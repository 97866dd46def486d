import Mathlib.Data.List.Pairwise
import PageMachine.Proofs.EncodedWord
import PageMachine.Proofs.InstructionFields

/-!
# What the machine reads where

The assembler's table says which bits an operand is put into, and the accessors of an instruction
say which bits the machine reads; neither mentions the other. An operand's role is what it is for,
and gives the bits in which the machine reads it. The table keeps to the roles: the slots of each
definition have the roles that the instruction with its pattern asks for, they do not meet, and they
leave the bits alone that tell instructions apart. The one slot that is wider than the field read,
the index of a store, never holds a number that needs its last bit.

These facts are about the table alone; what is put into the slots is left open.
-/

namespace PageMachine

/-- What an operand of an instruction is for. -/
inductive OperandRole where
  /-- The register that is set or stored. -/
  | target
  /-- The first source register, or the base register. -/
  | source
  /-- The second source register. -/
  | otherSource
  /-- The second operand, held in the instruction. -/
  | constant
  /-- The index added to a base register. -/
  | index
  /-- The number of a trap. -/
  | vector
  /-- The place in the page of the next instruction. -/
  | page
  deriving DecidableEq, Repr

/-- The highest and the lowest bit of those in which the machine reads an operand. -/
def OperandRole.bits : OperandRole → Nat × Nat
  | .target => (11, 9)
  | .source => (8, 6)
  | .otherSource => (2, 0)
  | .constant => (4, 0)
  | .index => (5, 0)
  | .vector => (7, 0)
  | .page => (8, 0)

/-- The bits of every role are in order, and bits of a word. -/
theorem OperandRole.bits_spec (role : OperandRole) :
    role.bits.2 ≤ role.bits.1 ∧ role.bits.1 < 16 := by
  cases role <;> decide

/-- The field in which the machine reads an operand. -/
def OperandRole.field (role : OperandRole) : BitRange where
  msb := role.bits.1
  lsb := role.bits.2
  lsb_le_msb := role.bits_spec.1
  msb_lt := role.bits_spec.2

/-- What the operand in a slot is for. -/
def OperandSlot.role (slot : OperandSlot) : OperandRole :=
  match slot.field.msb with
  | 11 => .target
  | 8 => if slot.pageRelative then .page else .source
  | 7 => .vector
  | 4 => .constant
  | 2 => .otherSource
  | _ => .index

/-- The opcode of a mnemonic. -/
def Opcode.ofMnemonic? (mnemonic : String) : Option Opcode :=
  match mnemonic with
  | "ADD" => some .add
  | "AND" => some .and
  | "BRN" | "BRZ" | "BRP" | "BRNZ" | "BRNP" | "BRZP" | "BRNZP" => some .branch
  | "DBUG" => some .debug
  | "JSR" | "JMP" => some .jump
  | "JSRR" | "JMPR" => some .jumpIndexed
  | "LD" => some .load
  | "LDI" => some .loadIndirect
  | "LDR" => some .loadIndexed
  | "LEA" => some .loadAddress
  | "NOT" => some .not
  | "RET" => some .ret
  | "ST" => some .store
  | "STI" => some .storeIndirect
  | "STR" => some .storeIndexed
  | "TRAP" => some .trap
  | _ => none

/-- The mask of the conditions whose letters stand behind the first two of a mnemonic. -/
def Condition.maskOf (mnemonic : String) : BitVec 3 :=
  let letters := mnemonic.toList.drop 2
  BitVec.ofBool (letters.contains 'N') ++ BitVec.ofBool (letters.contains 'Z') ++
    BitVec.ofBool (letters.contains 'P')

namespace Instruction

/-- What the operands of an instruction are for, in the order in which they are written. -/
def roles (i : Instruction) : List OperandRole :=
  match i.opcode with
  | .add | .and => [.target, .source, if i.immediateMode then .constant else .otherSource]
  | .branch | .jump => [.page]
  | .load | .loadIndirect | .loadAddress | .store | .storeIndirect => [.target, .page]
  | .loadIndexed | .storeIndexed => [.target, .source, .index]
  | .jumpIndexed => [.source, .index]
  | .not => [.target, .source]
  | .trap => [.vector]
  | .debug | .ret => []

/-- The number that the machine reads for an operand. -/
def read (i : Instruction) : OperandRole → Int
  | .target => (i.dst : Nat)
  | .source => (i.src1 : Nat)
  | .otherSource => (i.src2 : Nat)
  | .constant => i.imm5.toInt
  | .index => i.index6.toNat
  | .vector => i.trapVector.toNat
  | .page => i.pageOffset.toNat

end Instruction

namespace BitRange

/-- A number that fits a field is its own rest. -/
theorem rest_of_lt {width : Nat} {value : Int} (hlow : 0 ≤ value)
    (hhigh : value < (2 ^ width : Nat)) : (rest width value : Int) = value := by
  rw [natCast_rest, Int.emod_eq_of_lt hlow hhigh]

/-- The content of a field as a quotient and a rest. -/
theorem toNat_extract (range : BitRange) (word : Word) :
    (range.extract word).toNat = word.toNat / 2 ^ range.lsb % 2 ^ range.width := by
  apply Nat.eq_of_testBit_eq
  intro k
  rw [← BitVec.getLsbD, getLsbD_extract, Nat.testBit_mod_two_pow, Nat.testBit_div_two_pow,
    Nat.add_comm k]
  rfl

/-- Whether two fields share no bits. -/
def Apart (range other : BitRange) : Prop :=
  range.msb < other.lsb ∨ other.msb < range.lsb

instance (range other : BitRange) : Decidable (range.Apart other) :=
  inferInstanceAs (Decidable (_ ∨ _))

/-- A bit of a field is none of a field apart from it. -/
theorem Apart.not_covers {range other : BitRange} (h : range.Apart other) {k : Nat}
    (hk : range.Covers k) : ¬other.Covers k := by
  unfold Apart at h
  unfold Covers at hk ⊢
  omega

/-- Being apart goes both ways. -/
theorem Apart.symm {range other : BitRange} (h : range.Apart other) : other.Apart range :=
  Or.symm h

/-- Fields that share no bits can be set in either order. -/
theorem insert_comm {range other : BitRange} (hapart : range.Apart other) (word : Word)
    (value otherValue : Int) :
    other.insert (range.insert word value) otherValue =
      range.insert (other.insert word otherValue) value := by
  apply BitVec.eq_of_getLsbD_eq
  intro i hi
  rw [getLsbD_insert _ _ _ hi, getLsbD_insert _ _ _ hi, getLsbD_insert _ _ _ hi,
    getLsbD_insert _ _ _ hi]
  by_cases hcovers : range.Covers i
  · rw [if_pos hcovers, if_pos hcovers, if_neg (hapart.not_covers hcovers)]
  · rw [if_neg hcovers, if_neg hcovers]

/-- What a field holds depends on its bits only. -/
theorem extract_congr {range : BitRange} {word other : Word}
    (h : ∀ k, range.Covers k → word.getLsbD k = other.getLsbD k) :
    range.extract word = range.extract other := by
  apply BitVec.eq_of_getLsbD_eq
  intro k _
  rw [getLsbD_extract, getLsbD_extract]
  by_cases hk : k < range.width
  · have hlow := range.lsb_le_msb
    have hcovers : range.Covers (range.lsb + k) := by
      unfold width at hk
      unfold Covers
      omega
    rw [h _ hcovers]
  · simp [hk]

end BitRange

/-- A word with numbers put into fields, one after the other. -/
def filledWord (pattern : Word) (fields : List (BitRange × Int)) : Word :=
  fields.foldl (fun word field => field.1.orInto word field.2) pattern

/-- Bits outside all fields are those of the pattern. -/
theorem getLsbD_filledWord {pattern : Word} {fields : List (BitRange × Int)} {k : Nat}
    (h : ∀ field ∈ fields, ¬field.1.Covers k) :
    (filledWord pattern fields).getLsbD k = pattern.getLsbD k := by
  induction fields generalizing pattern with
  | nil => rfl
  | cons field rest ih =>
    have hfield := h field List.mem_cons_self
    rw [filledWord, List.foldl_cons, ← filledWord,
      ih fun other hother => h other (List.mem_cons_of_mem _ hother), BitRange.orInto,
      BitVec.getLsbD_or, BitRange.getLsbD_place, decide_eq_false hfield, Bool.false_and,
      Bool.or_false]

/-- What is put into a word depends only on where the bits come to lie. -/
theorem filledWord_map_congr {α : Type} {items : List α} {field other : α → BitRange × Int}
    (h : ∀ item ∈ items,
      (field item).1.place (field item).2 = (other item).1.place (other item).2) (pattern : Word) :
    filledWord pattern (items.map field) = filledWord pattern (items.map other) := by
  induction items generalizing pattern with
  | nil => rfl
  | cons item rest ih =>
    have hitem : (field item).1.orInto pattern (field item).2 =
        (other item).1.orInto pattern (other item).2 :=
      congrArg (pattern ||| ·) (h item List.mem_cons_self)
    rw [List.map_cons, List.map_cons, filledWord, filledWord, List.foldl_cons, List.foldl_cons,
      hitem]
    exact ih (fun other hother => h other (List.mem_cons_of_mem _ hother)) _

/-- A field apart from the others, empty in the pattern, holds the number put into it. -/
theorem toNat_extract_filledWord {pattern : Word} {front back : List (BitRange × Int)}
    {range : BitRange} {value : Int} (hpattern : pattern &&& range.mask = 0)
    (hfront : ∀ field ∈ front, field.1.Apart range) (hback : ∀ field ∈ back, range.Apart field.1) :
    (range.extract (filledWord pattern (front ++ (range, value) :: back))).toNat =
      BitRange.rest range.width value := by
  have hempty : filledWord pattern front &&& range.mask = 0 := by
    rw [← hpattern]
    apply BitVec.eq_of_getLsbD_eq
    intro k _
    rw [BitVec.getLsbD_and, BitVec.getLsbD_and, BitRange.getLsbD_mask]
    by_cases hk : range.Covers k
    · rw [getLsbD_filledWord fun field hfield => (hfront field hfield).symm.not_covers hk]
    · simp [hk]
  have hsplit : filledWord pattern (front ++ (range, value) :: back) =
      filledWord (filledWord pattern front ||| range.place value) back := by
    simp [filledWord, BitRange.orInto]
  rw [hsplit, ← BitRange.toNat_extract_place value hempty]
  congr 1
  refine BitRange.extract_congr fun k hk => ?_
  exact getLsbD_filledWord fun field hfield => (hback field hfield).not_covers hk

namespace Opcode

/-- Whether a bit belongs to the instruction itself and to none of its operands. -/
def fixes (opcode : Opcode) (k : Nat) : Bool :=
  decide (12 ≤ k) ||
    match opcode with
    | .add | .and => decide (k = 5)
    | .branch => decide (9 ≤ k)
    | .jump | .jumpIndexed => decide (k = 11)
    | _ => false

end Opcode

namespace InstructionSet

/-- The slots that definitions have. -/
def slots : List OperandSlot :=
  [target, source, otherSource, smallConstant, .index (OperandRole.field .index), storeIndex,
    .vector, .page, .literalPage]

/-- Every definition has the opcode of its mnemonic, and slots for the operands of that opcode. -/
theorem roles_of_mem_table : ∀ definition ∈ table,
    Opcode.ofMnemonic? definition.mnemonic = some (Instruction.mk definition.pattern).opcode ∧
      definition.operands.map OperandSlot.role = (Instruction.mk definition.pattern).roles := by
  decide +kernel

/-- A branch has the conditions of its letters. -/
theorem condition_of_mem_table : ∀ definition ∈ table,
    (Instruction.mk definition.pattern).opcode = .branch →
      (Instruction.mk definition.pattern).condition = Condition.maskOf definition.mnemonic := by
  decide +kernel

/-- A jump keeps the return address if its mnemonic says so. -/
theorem link_of_mem_table : ∀ definition ∈ table,
    (Instruction.mk definition.pattern).opcode = .jump ∨
      (Instruction.mk definition.pattern).opcode = .jumpIndexed →
    ((Instruction.mk definition.pattern).link = true ↔
      definition.mnemonic = "JSR" ∨ definition.mnemonic = "JSRR") := by
  decide +kernel

/-- The third slot of an addition or conjunction takes no register if the pattern says so. -/
theorem immediateMode_of_mem_table : ∀ definition ∈ table,
    (Instruction.mk definition.pattern).opcode = .add ∨
      (Instruction.mk definition.pattern).opcode = .and →
    ∀ slot ∈ definition.operands[2]?, ∀ kind ∈ slot.accepted,
      ((Instruction.mk definition.pattern).immediateMode = true ↔ kind ≠ .register) := by
  decide +kernel

/-- Every slot of a definition is one of the listed ones, and empty in the pattern. -/
theorem slot_of_mem_table : ∀ definition ∈ table, ∀ slot ∈ definition.operands,
    slot ∈ slots ∧ definition.pattern &&& slot.role.field.mask = 0 := by
  decide +kernel

/-- The operands of a definition are read in different bits. -/
theorem pairwise_of_mem_table : ∀ definition ∈ table,
    definition.operands.Pairwise fun slot other => slot.role.field.Apart other.role.field := by
  decide +kernel

/-- No operand is read in the bits of the instruction itself. -/
theorem fixes_of_mem_table : ∀ definition ∈ table, ∀ slot ∈ definition.operands, ∀ k < 16,
    (Instruction.mk definition.pattern).opcode.fixes k = true → ¬slot.role.field.Covers k := by
  decide +kernel

/-- A slot is the field in which its operand is read, except for the index of a store. -/
theorem field_of_mem_slots : ∀ slot ∈ slots, slot.field = slot.role.field ∨ slot = storeIndex := by
  decide +kernel

/-- The numbers that a slot takes, unless they are counted in a page, fit the field in which they
are read. -/
theorem range_of_mem_slots : ∀ slot ∈ slots, slot.pageRelative = false →
    (slot.role = .constant ∧ slot.minValue = -16 ∧ slot.maxValue = 15) ∨
      (slot.role ≠ .constant ∧ slot.minValue = 0 ∧
        slot.maxValue < (2 ^ slot.role.field.width : Nat)) := by
  decide +kernel

/-- The index of a store is put into the field in which it is read. -/
theorem place_storeIndex {value : Int} (h : storeIndex.InRange value) :
    storeIndex.field.place value = (OperandRole.field .index).place value := by
  have hlow : 0 ≤ value := h.1
  have hhigh : value ≤ 63 := h.2
  have hwide : BitRange.rest 7 value = BitRange.rest 6 value := by
    apply Int.ofNat_inj.mp
    rw [BitRange.rest_of_lt hlow (by omega), BitRange.rest_of_lt hlow (by omega)]
  apply BitVec.eq_of_getLsbD_eq
  intro k _
  rw [BitRange.getLsbD_place, BitRange.getLsbD_place]
  change (decide (0 ≤ k ∧ k ≤ 6) && (BitRange.rest 7 value).testBit (k - 0)) =
    (decide (0 ≤ k ∧ k ≤ 5) && (BitRange.rest 6 value).testBit (k - 0))
  rw [hwide]
  by_cases hk : k = 6
  · subst hk
    rw [Nat.testBit_lt_two_pow (BitRange.rest_lt 6 value), Bool.and_false, Bool.and_false]
  · congr 2
    exact propext (by omega)

/-- What a slot of an instruction is filled with is read as it was meant. -/
theorem place_of_mem_slots {slot : OperandSlot} (hslot : slot ∈ slots) {value : Int}
    (hrange : slot.pageRelative = false → slot.InRange value) :
    slot.field.place value = slot.role.field.place value := by
  rcases field_of_mem_slots slot hslot with hfield | rfl
  · rw [hfield]
  · exact place_storeIndex (hrange rfl)

end InstructionSet

namespace Instruction

/-- What the machine reads is the content of the operand's field, unless it is signed. -/
theorem read_eq_extract (i : Instruction) {role : OperandRole} (hrole : role ≠ .constant) :
    i.read role = (role.field.extract i.word).toNat := by
  rw [BitRange.toNat_extract]
  cases role with
  | target => exact congrArg (fun r : Register => ((r : Nat) : Int)) i.dst_eq
  | source => exact congrArg (fun r : Register => ((r : Nat) : Int)) i.src1_eq
  | otherSource =>
    change ((i.src2 : Nat) : Int) = ((i.word.toNat / 2 ^ 0 % 2 ^ 3 : Nat) : Int)
    rw [i.src2_eq, Nat.pow_zero, Nat.div_one]
    rfl
  | constant => exact absurd rfl hrole
  | index =>
    change (i.index6.toNat : Int) = ((i.word.toNat / 2 ^ 0 % 2 ^ 6 : Nat) : Int)
    rw [i.toNat_index6, Nat.pow_zero, Nat.div_one]
    rfl
  | vector =>
    change (i.trapVector.toNat : Int) = ((i.word.toNat / 2 ^ 0 % 2 ^ 8 : Nat) : Int)
    rw [i.toNat_trapVector, Nat.pow_zero, Nat.div_one]
    rfl
  | page =>
    change (i.pageOffset.toNat : Int) = ((i.word.toNat / 2 ^ 0 % 2 ^ 9 : Nat) : Int)
    rw [pageOffset, BitVec.extractLsb'_toNat, Nat.shiftRight_eq_div_pow]

/-- A signed operand is read from minus sixteen to fifteen. -/
theorem read_constant (i : Instruction) :
    i.read .constant =
      (((OperandRole.field .constant).extract i.word).toNat + 16 : Int) % 32 - 16 := by
  have hbound : ∀ n : Nat, (BitVec.ofInt 16 (((n : Int) + 16) % 32 - 16)).toInt =
      ((n : Int) + 16) % 32 - 16 := by
    intro n
    rw [BitVec.toInt_ofInt, Int.bmod_def]
    omega
  have hfield : ((OperandRole.field .constant).extract i.word).toNat = i.word.toNat % 32 := by
    rw [BitRange.toNat_extract]
    change i.word.toNat / 2 ^ 0 % 2 ^ 5 = i.word.toNat % 2 ^ 5
    rw [Nat.pow_zero, Nat.div_one]
  change i.imm5.toInt = _
  rw [imm5_eq, hbound, hfield]
  omega

/-- The machine reads the number that was put into a slot. -/
theorem read_of_inRange {i : Instruction} {slot : OperandSlot}
    (hslot : slot ∈ InstructionSet.slots) (hpage : slot.pageRelative = false) {value : Int}
    (hrange : slot.InRange value)
    (h : (slot.role.field.extract i.word).toNat = BitRange.rest slot.role.field.width value) :
    i.read slot.role = value := by
  obtain ⟨hlow, hhigh⟩ := hrange
  rcases InstructionSet.range_of_mem_slots slot hslot hpage with
    ⟨hrole, hmin, hmax⟩ | ⟨hrole, hmin, hmax⟩
  · rw [hrole] at h ⊢
    rw [read_constant, h, BitRange.natCast_rest]
    change (value % 32 + 16) % 32 - 16 = value
    omega
  · rw [read_eq_extract i hrole, h, BitRange.rest_of_lt (hmin ▸ hlow) (by omega)]

end Instruction

/-- Whether an instruction was made from a definition: its own bits are those of the pattern, and
the fields in which operands are read hold their numbers. -/
structure Instruction.MadeFrom (i : Instruction) (definition : InstructionDefinition)
    (pairs : List (OperandSlot × Operand)) (number : OperandSlot × Operand → Int) : Prop where
  /-- The bits of the instruction itself are those of the pattern. -/
  fixed : ∀ k < 16, (Instruction.mk definition.pattern).opcode.fixes k = true →
    i.word.getLsbD k = definition.pattern.getLsbD k
  /-- The field in which an operand is read holds its number. -/
  extract : ∀ pair ∈ pairs, (pair.1.role.field.extract i.word).toNat =
    BitRange.rest pair.1.role.field.width (number pair)

namespace InstructionSet

variable {definition : InstructionDefinition} {pairs : List (OperandSlot × Operand)}
  {number : OperandSlot × Operand → Int}

/-- Numbers put into the slots of a definition lie where they are read. -/
theorem filledWord_eq (hmem : definition ∈ table)
    (hslots : pairs.map Prod.fst = definition.operands)
    (hrange : ∀ pair ∈ pairs, pair.1.pageRelative = false → pair.1.InRange (number pair)) :
    filledWord definition.pattern (pairs.map fun pair => (pair.1.field, number pair)) =
      filledWord definition.pattern (pairs.map fun pair => (pair.1.role.field, number pair)) := by
  refine filledWord_map_congr (fun pair hpair => ?_) _
  have hslot : pair.1 ∈ definition.operands := hslots ▸ List.mem_map_of_mem hpair
  exact place_of_mem_slots (slot_of_mem_table definition hmem pair.1 hslot).1 (hrange pair hpair)

/-- The field in which an operand is read holds the number put into its slot. -/
theorem toNat_extract_filled (hmem : definition ∈ table)
    (hslots : pairs.map Prod.fst = definition.operands)
    (hrange : ∀ pair ∈ pairs, pair.1.pageRelative = false → pair.1.InRange (number pair))
    {pair : OperandSlot × Operand} (hpair : pair ∈ pairs) :
    (pair.1.role.field.extract
        (filledWord definition.pattern (pairs.map fun pair => (pair.1.field, number pair)))).toNat =
      BitRange.rest pair.1.role.field.width (number pair) := by
  rw [filledWord_eq hmem hslots hrange]
  have hslot : pair.1 ∈ definition.operands := hslots ▸ List.mem_map_of_mem hpair
  have hempty := (slot_of_mem_table definition hmem pair.1 hslot).2
  have hapart := pairwise_of_mem_table definition hmem
  rw [← hslots, List.pairwise_map] at hapart
  obtain ⟨front, back, rfl⟩ := List.append_of_mem hpair
  rw [List.pairwise_append, List.pairwise_cons] at hapart
  obtain ⟨-, ⟨hback, -⟩, hfront⟩ := hapart
  rw [List.map_append, List.map_cons]
  refine toNat_extract_filledWord hempty ?_ ?_
  · intro field hfield
    obtain ⟨other, hother, rfl⟩ := List.mem_map.mp hfield
    exact hfront other hother pair List.mem_cons_self
  · intro field hfield
    obtain ⟨other, hother, rfl⟩ := List.mem_map.mp hfield
    exact hback other hother

/-- The bits of the instruction itself are those of the pattern. -/
theorem getLsbD_filled (hmem : definition ∈ table)
    (hslots : pairs.map Prod.fst = definition.operands)
    (hrange : ∀ pair ∈ pairs, pair.1.pageRelative = false → pair.1.InRange (number pair)) {k : Nat}
    (hk : k < 16) (hfixes : (Instruction.mk definition.pattern).opcode.fixes k = true) :
    (filledWord definition.pattern (pairs.map fun pair => (pair.1.field, number pair))).getLsbD k =
      definition.pattern.getLsbD k := by
  rw [filledWord_eq hmem hslots hrange]
  refine getLsbD_filledWord fun field hfield => ?_
  obtain ⟨pair, hpair, rfl⟩ := List.mem_map.mp hfield
  have hslot : pair.1 ∈ definition.operands := hslots ▸ List.mem_map_of_mem hpair
  exact fixes_of_mem_table definition hmem pair.1 hslot k hk hfixes

/-- A pattern whose slots are filled with the numbers of operands is made from its definition. -/
theorem madeFrom_filledWord (hmem : definition ∈ table)
    (hslots : pairs.map Prod.fst = definition.operands)
    (hrange : ∀ pair ∈ pairs, pair.1.pageRelative = false → pair.1.InRange (number pair)) :
    Instruction.MadeFrom
      ⟨filledWord definition.pattern (pairs.map fun pair => (pair.1.field, number pair))⟩
      definition pairs number where
  fixed := fun _ hk => getLsbD_filled hmem hslots hrange hk
  extract := fun _ hpair => toNat_extract_filled hmem hslots hrange hpair

end InstructionSet

namespace Instruction

/-- A run of bits that two words share is the same field of both. -/
theorem extractLsb'_congr {word other : Word} {start width : Nat}
    (h : ∀ k < width, word.getLsbD (start + k) = other.getLsbD (start + k)) :
    word.extractLsb' start width = other.extractLsb' start width := by
  apply BitVec.eq_of_getLsbD_eq
  intro k hk
  rw [BitVec.getLsbD_extractLsb', BitVec.getLsbD_extractLsb', h k hk]

variable {i pattern : Instruction}
  (hfixed : ∀ k < 16, pattern.opcode.fixes k = true → i.word.getLsbD k = pattern.word.getLsbD k)

include hfixed

/-- The bits of the instruction itself give the opcode. -/
theorem opcode_eq_of_fixes : i.opcode = pattern.opcode := by
  have hnumber : i.opcodeNumber = pattern.opcodeNumber := by
    refine extractLsb'_congr fun k hk => hfixed _ (by omega) ?_
    simp [Opcode.fixes]
  rw [opcode, opcode, hnumber]

/-- The bits of the instruction itself give the conditions of a branch. -/
theorem condition_eq_of_fixes (hbranch : pattern.opcode = .branch) :
    i.condition = pattern.condition := by
  refine extractLsb'_congr fun k hk => hfixed _ (by omega) ?_
  simp [Opcode.fixes, hbranch]

/-- The bits of the instruction itself tell whether a jump keeps the return address. -/
theorem link_eq_of_fixes (hjump : pattern.opcode = .jump ∨ pattern.opcode = .jumpIndexed) :
    i.link = pattern.link := by
  refine hfixed 11 (by decide) ?_
  rcases hjump with hjump | hjump <;> simp [Opcode.fixes, hjump]

/-- The bits of the instruction itself tell whether it holds the second operand of a calculation. -/
theorem immediateMode_eq_of_fixes (hbinary : pattern.opcode = .add ∨ pattern.opcode = .and) :
    i.immediateMode = pattern.immediateMode := by
  refine hfixed 5 (by decide) ?_
  rcases hbinary with hbinary | hbinary <;> simp [Opcode.fixes, hbinary]

/-- The bits of the instruction itself tell what the operands are for. -/
theorem roles_eq_of_fixes : i.roles = pattern.roles := by
  have hopcode := opcode_eq_of_fixes hfixed
  have himmediate := immediateMode_eq_of_fixes hfixed
  unfold roles
  rw [hopcode]
  cases hpattern : pattern.opcode <;> simp_all

end Instruction

end PageMachine
