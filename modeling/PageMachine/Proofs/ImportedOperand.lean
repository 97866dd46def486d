import PageMachine.Proofs.DecodedStatement
import PageMachine.Proofs.LinkSuccess

/-!
# Operands that other modules supply

An object file says of an imported operand which bits it fills and nothing of the numbers that it
may take. Linking writes as many low bits of the exported value there as there is room for, and the
machine reads the value cut to the operand: from -16 to 15 of a small constant, from zero of an
index or a trap number, and the place in a page. This is the value itself exactly if it fits.

The index of a store is patched one bit beyond what the machine reads of it. That bit belongs to the
base register, which is not considered here.
-/

namespace PageMachine

namespace OperandRole

/-- What is left of a number in an operand. -/
def cut (role : OperandRole) (value : Int) : Int :=
  match role with
  | .constant => value.bmod (2 ^ 5)
  | _ => value % (2 ^ role.field.width : Nat)

/-- Whether a number fits an operand. -/
def Fits (role : OperandRole) (value : Int) : Prop :=
  match role with
  | .constant => -16 ≤ value ∧ value ≤ 15
  | _ => 0 ≤ value ∧ value < (2 ^ role.field.width : Nat)

/-- The number that a symbol is as an operand: a small constant has a sign. -/
def meaning (role : OperandRole) (symbol : Symbol) : Int :=
  match role with
  | .constant => symbol.word.toInt
  | _ => symbol.value

/-- All of a number is left if it fits. -/
theorem cut_eq_self_iff {role : OperandRole} {value : Int} :
    role.cut value = value ↔ role.Fits value := by
  have hrest : value % (2 ^ role.field.width : Nat) = value ↔
      0 ≤ value ∧ value < (2 ^ role.field.width : Nat) := by
    have hpos : (0 : Int) < (2 ^ role.field.width : Nat) :=
      Int.ofNat_lt.mpr (Nat.two_pow_pos _)
    constructor
    · intro heq
      rw [← heq]
      exact ⟨Int.emod_nonneg _ (Int.ne_of_gt hpos), Int.emod_lt_of_pos _ hpos⟩
    · rintro ⟨hlow, hhigh⟩
      exact Int.emod_eq_of_lt hlow hhigh
  cases role with
  | constant =>
    change value.bmod 32 = value ↔ -16 ≤ value ∧ value ≤ 15
    rw [Int.bmod_def]
    omega
  | _ => exact hrest

/-- Cutting does not depend on the sign of a symbol's word. -/
theorem cut_meaning (role : OperandRole) (symbol : Symbol) :
    role.cut (role.meaning symbol) = role.cut symbol.value := by
  cases role with
  | constant =>
    change symbol.word.toInt.bmod (2 ^ 5) = symbol.value.bmod (2 ^ 5)
    rw [Symbol.word, BitVec.toInt_ofInt]
    exact Int.bmod_bmod_of_dvd (by decide)
  | _ => rfl

end OperandRole

/-- The machine reads what is left of a number whose low bits are in the field of an operand. -/
theorem Instruction.read_eq_cut {i : Instruction} {role : OperandRole} {value : Int}
    (h : (role.field.extract i.word).toNat = BitRange.rest role.field.width value) :
    i.read role = role.cut value := by
  cases role with
  | constant =>
    rw [i.read_constant, h, BitRange.natCast_rest]
    change (value % 32 + 16) % 32 - 16 = value.bmod 32
    rw [Int.bmod_def]
    omega
  | _ =>
    rw [i.read_eq_extract (by decide), h, BitRange.natCast_rest]
    rfl

/-- Whether an instruction takes the value of a symbol as the last operand of its line: it has the
opcode of the line, and reads what is left of the value. -/
structure Instruction.Takes (i : Instruction) (line : SourceLine) (symbol : Symbol) : Prop where
  /-- It has the opcode of the mnemonic. -/
  opcode : Opcode.ofMnemonic? line.operation = some i.opcode
  /-- It reads the value cut to the operand, which is the value if it fits. -/
  last : ∃ role, i.roles.getLast? = some role ∧ i.read role = role.cut (role.meaning symbol) ∧
    (i.read role = role.meaning symbol ↔ role.Fits (role.meaning symbol))

namespace InstructionSet

/-- No slot has bits of the instruction itself. -/
theorem not_covers_of_mem_table : ∀ definition ∈ table, ∀ slot ∈ definition.operands, ∀ k < 16,
    (Instruction.mk definition.pattern).opcode.fixes k = true → ¬slot.field.Covers k := by
  decide +kernel

/-- A slot begins with the field in which its operand is read. -/
theorem role_field_of_mem_slots : ∀ slot ∈ slots,
    slot.role.field.lsb = slot.field.lsb ∧ slot.role.field.msb ≤ slot.field.msb := by
  decide +kernel

end InstructionSet

/-- Registers leave the bits outside their slots. -/
theorem getLsbD_registerWord {word : Word} {pairs : List (OperandSlot × Operand)} {k : Nat}
    (h : ∀ pair ∈ pairs, ¬pair.1.field.Covers k) :
    (registerWord word pairs).getLsbD k = word.getLsbD k := by
  have hfilled : registerWord word pairs =
      filledWord word (pairs.map fun pair => (pair.1.field, (pair.2.registerNumber : Int))) := by
    rw [filledWord, List.foldl_map]
    rfl
  rw [hfilled]
  refine getLsbD_filledWord fun field hfield => ?_
  obtain ⟨pair, hpair, rfl⟩ := List.mem_map.mp hfield
  exact h pair hpair

/-- A slot into which the low bits of a number were written holds them where its operand is read. -/
theorem toNat_extract_of_mem_slots {slot : OperandSlot} (hslot : slot ∈ InstructionSet.slots)
    {word : Word} {value : Int}
    (h : ∀ k, slot.field.Covers k →
      word.getLsbD k = (BitVec.ofInt 16 value).getLsbD (k - slot.field.lsb)) :
    (slot.role.field.extract word).toNat = BitRange.rest slot.role.field.width value := by
  obtain ⟨hlsb, hmsb⟩ := InstructionSet.role_field_of_mem_slots slot hslot
  apply Nat.eq_of_testBit_eq
  intro k
  rw [← BitVec.getLsbD, BitRange.getLsbD_extract]
  by_cases hk : k < slot.role.field.width
  · have hcovers : slot.field.Covers (slot.role.field.lsb + k) := by
      have hordered := slot.role.field.lsb_le_msb
      unfold BitRange.width at hk
      unfold BitRange.Covers
      omega
    rw [h _ hcovers, hlsb, Nat.add_sub_cancel_left,
      BitRange.getLsbD_ofInt value slot.role.field.width_le hk]
    simp [hk]
  · have hlarge : BitRange.rest slot.role.field.width value < 2 ^ k :=
      Nat.lt_of_lt_of_le (BitRange.rest_lt _ _)
        (Nat.pow_le_pow_right (by decide) (Nat.not_lt.mp hk))
    simp [hk, Nat.testBit_lt_two_pow hlarge]

/-- Whether an instruction has the bits of a definition outside its operands, the last of which is
put into a slot. -/
structure Instruction.Shaped (i : Instruction) (definition : InstructionDefinition)
    (slot : OperandSlot) : Prop where
  /-- The definition is one of the table. -/
  mem : definition ∈ InstructionSet.table
  /-- The slot is the last of the definition. -/
  last : definition.operands.getLast? = some slot
  /-- The bits of the instruction itself are those of the pattern. -/
  fixed : ∀ k < 16, (Instruction.mk definition.pattern).opcode.fixes k = true →
    i.word.getLsbD k = definition.pattern.getLsbD k

namespace Instruction.Shaped

variable {i : Instruction} {definition : InstructionDefinition} {slot : OperandSlot}

/-- The last slot is one of the definition. -/
theorem slot_mem (h : i.Shaped definition slot) : slot ∈ definition.operands :=
  List.mem_of_getLast? h.last

/-- Writing into the slot does not change the shape. -/
theorem written (h : i.Shaped definition slot) {word : Word}
    (hkept : ∀ k < 16, ¬slot.field.Covers k → word.getLsbD k = i.word.getLsbD k) :
    (Instruction.mk word).Shaped definition slot where
  mem := h.mem
  last := h.last
  fixed := by
    intro k hk hfixes
    have hfree := InstructionSet.not_covers_of_mem_table definition h.mem slot h.slot_mem k hk hfixes
    exact (hkept k hk hfree).trans (h.fixed k hk hfixes)

/-- With the low bits of a symbol's value in the slot, the instruction takes the value. -/
theorem takes (h : i.Shaped definition slot) {line : SourceLine} {symbol : Symbol}
    (hname : definition.mnemonic = line.operation)
    (hvalue : ∀ k, slot.field.Covers k →
      i.word.getLsbD k = symbol.word.getLsbD (k - slot.field.lsb)) :
    i.Takes line symbol := by
  obtain ⟨hmnemonic, hroles⟩ := InstructionSet.roles_of_mem_table definition h.mem
  have hslot := (InstructionSet.slot_of_mem_table definition h.mem slot h.slot_mem).1
  have hread : i.read slot.role = slot.role.cut (slot.role.meaning symbol) := by
    rw [OperandRole.cut_meaning]
    exact read_eq_cut (toNat_extract_of_mem_slots hslot hvalue)
  refine ⟨?_, slot.role, ?_, hread, ?_⟩
  · rw [opcode_eq_of_fixes h.fixed, ← hname, hmnemonic]
  · rw [roles_eq_of_fixes h.fixed, ← hroles, List.getLast?_map, h.last]
    rfl
  · rw [hread]
    exact OperandRole.cut_eq_self_iff

end Instruction.Shaped

/-- An instruction whose last operand another module supplies is one word, in which nothing moves
and the last slot is not filled yet. -/
theorem Layout.Yields.exists_shaped {layout : Layout} {program : Program}
    (hyields : layout.Yields program) (hsound : layout.Sound) {statement : Statement}
    (hstatement : statement ∈ layout.statements) {definition : InstructionDefinition}
    {line : SourceLine}
    (hcontent : statement.content = .machine definition (line.operands.map Operand.mk))
    {site : ImportSite}
    (hsite : site ∈ (statement.encode (layout.context program.symbols)).imports) :
    ∃ word slot, (statement.encode (layout.context program.symbols)).words =
        [⟨site.address, word, none⟩] ∧
      (Instruction.mk word).Shaped definition slot ∧ site.field = slot.field ∧
      line.operands.getLast? = some site.name := by
  have hformed := hsound.formed statement hstatement
  have hclean := hyields.encodes statement hstatement
  obtain ⟨word, slot, operand, symbol, hlast, rfl, -⟩ :=
    statement.exists_of_mem_imports hformed hclean hsite
  obtain ⟨held, hresolves, hencode⟩ := Statement.encode_of_last? hformed hlast hclean
  have hwords : (statement.encode (layout.context program.symbols)).words =
      [⟨statement.place, word, none⟩] := by
    rw [hencode] at hsite ⊢
    cases hresolves with
    | imported => rfl
    | _ => cases hsite
  obtain ⟨pattern, front, hform, rfl⟩ := Content.last?_eq_some hlast
  rw [hcontent] at hform hformed
  obtain ⟨rfl, hslots⟩ := hformed.slots_eq hform
  refine ⟨_, slot, hwords, ⟨hformed.1, by simp [hslots], fun k hk hfixes => ?_⟩, rfl, ?_⟩
  · refine getLsbD_registerWord fun pair hpair => ?_
    refine InstructionSet.not_covers_of_mem_table definition hformed.1 pair.1 ?_ k hk hfixes
    rw [hslots]
    exact List.mem_append_left _ (List.mem_map_of_mem hpair)
  · have hpairs : definition.operands.zip (line.operands.map Operand.mk) =
        front ++ [(slot, operand)] := by
      simpa [Content.form?] using hform
    have hfits := hformed.2.1
    simp only [InstructionDefinition.fits, Bool.and_eq_true, beq_iff_eq] at hfits
    have hoperands := congrArg (List.map Prod.snd) hpairs
    rw [List.map_snd_zip (by simp [hfits.1])] at hoperands
    have htexts := congrArg (List.map Operand.text) hoperands
    rw [List.map_map, show Operand.text ∘ Operand.mk = id from rfl, List.map_id] at htexts
    simp [htexts]

namespace ObjectModule

/-- Whether the words of a module in which nothing moves are the same at its place. -/
def KeepsFixedWords (module stood : ObjectModule) : Prop :=
  ∀ address, module.tag? address = none →
    stood.memory.get? (address + module.distance stood) = module.memory.get? address

/-- A module that was not moved keeps its words. -/
theorem keepsFixedWords_self (module : ObjectModule) : module.KeepsFixedWords module := by
  intro address _
  have hzero : module.distance module = 0 := BitVec.sub_self _
  simp [hzero]

/-- A module that begins at zero and was moved keeps the words in which nothing moves. -/
theorem MovedTo.keepsFixedWords {module stood : ObjectModule} {place : Word}
    (hmoved : module.MovedTo place stood) (horigin : module.origin = 0) :
    module.KeepsFixedWords stood := by
  have hdistance : module.distance stood = place := by
    rw [distance, hmoved.origin, horigin]
    exact BitVec.sub_zero place
  intro address htag
  rw [hdistance, hmoved.words, htag]
  exact Option.map_id'

end ObjectModule

/-- All modules of a link keep the words in which nothing moves. -/
theorem LinkedImage.Placed.keepsFixedWords {base : Option Word} {modules placed : List ObjectModule}
    (h : Placed base modules placed)
    (horigin : ∀ module ∈ modules, module.relocatable = true → module.origin = 0) :
    List.Forall₂ ObjectModule.KeepsFixedWords modules placed :=
  h.forall₂ ObjectModule.keepsFixedWords_self fun module hmem _ _ hmoves hmoved =>
    hmoved.keepsFixedWords (horigin module hmem hmoves)

/-- Whether the instruction of a line of an assembled module imports a name; its address is that at
the module's place. -/
inductive ImportedOperand (modules placed : List ObjectModule) (address : Word) (line : SourceLine)
    (name : String) : Prop
  | intro (module stood : ObjectModule) (hint source : String) (program : Program)
      (encoded : EncodedStatement) (site : ImportSite)
      (hmodule : (module, stood) ∈ modules.zip placed)
      (hprogram : assemble hint source = .ok program)
      (hload : load program.objectText = .ok module) (hencoded : encoded ∈ program.statements)
      (hscan : (SourceLine.scan encoded.statement.source.toList).2 = some line)
      (hmnemonic : InstructionSet.isMnemonic line.operation = true)
      (hsite : site ∈ encoded.imports) (hname : site.name = name)
      (haddress : site.address + module.distance stood = address) :
      ImportedOperand modules placed address line name

/-- The word of an imported operand at its place is an instruction of its line, and the operand is
an import site of the module there. -/
theorem ImportedOperand.exists_shaped {modules placed : List ObjectModule} {address : Word}
    {line : SourceLine} {name : String} (h : ImportedOperand modules placed address line name)
    (hstand : List.Forall₂ ObjectModule.StandsAs modules placed)
    (hkept : List.Forall₂ ObjectModule.KeepsFixedWords modules placed) :
    line.operands.getLast? = some name ∧ ∃ stood ∈ placed, ∃ definition slot word,
      ⟨address, slot.field, name⟩ ∈ stood.imports ∧ stood.memory.get? address = some word ∧
      (Instruction.mk word).Shaped definition slot ∧ definition.mnemonic = line.operation := by
  obtain ⟨module, stood, hint, source, program, encoded, site, hmodule, hprogram, hload, hencoded,
    hscan, hmnemonic, hsite, rfl, rfl⟩ := h
  have hyields := yields_of_assemble hprogram
  have hsound := Layout.sound_ofSource hyields.errors
  have hlines := Layout.forall₂_laysOut_ofSource hyields.errors
  have hloads := loadsAs_of_load hprogram hload
  have himport : site ∈ module.imports := by
    rw [hloads.imports]
    exact List.mem_flatMap_of_mem hencoded hsite
  have hstands := (List.forall₂_iff_zip.mp hstand).2 hmodule
  have hkeeps := (List.forall₂_iff_zip.mp hkept).2 hmodule
  have hmem := hencoded
  rw [hyields.statements] at hmem
  obtain ⟨statement, hstatement, rfl⟩ := List.mem_map.mp hmem
  rw [Statement.statement_encode] at hscan
  obtain ⟨own, -, hlaid⟩ := Layout.exists_line_of_mem hlines hstatement
  obtain rfl := hlaid.eq_of_scan hscan
  obtain ⟨before, after, -, hstep, -, -, -⟩ := hlaid
  obtain ⟨definition, -, hoperation, hcontent⟩ := hstep.machine_of_isMnemonic hmnemonic
  obtain ⟨word, slot, hwords, hshaped, hfield, hlast⟩ :=
    hyields.exists_shaped hsound hstatement hcontent hsite
  have hword : (⟨site.address, word, none⟩ : TaggedWord) ∈ program.words :=
    List.mem_append_left _ (List.mem_flatMap_of_mem hencoded (by simp [hwords]))
  refine ⟨hlast, stood, (List.of_mem_zip hmodule).2, definition, slot, word, ?_, ?_, hshaped,
    hoperation⟩
  · rw [hstands.imports, ← hfield]
    exact List.mem_map_of_mem himport
  · rw [hkeeps _ (hloads.tag?_of_mem hword)]
    exact hloads.get?_of_mem hword

/-- An instruction of joined modules takes the value of the symbol exported under the name that it
imports. -/
theorem LinkedImage.Joins.takes_of_importedOperand {image : LinkedImage}
    {modules placed : List ObjectModule} (hjoins : image.Joins placed)
    (hassembled : ∀ module ∈ modules, module.Assembled)
    (hstand : List.Forall₂ ObjectModule.StandsAs modules placed)
    (hkept : List.Forall₂ ObjectModule.KeepsFixedWords modules placed) {address : Word}
    {line : SourceLine} {name : String} (h : ImportedOperand modules placed address line name)
    {exporter : ObjectModule} (hexporter : exporter ∈ placed) {symbol : Symbol}
    (hexports : exporter.Exports name symbol) :
    (Instruction.mk (image.memory.read address)).Takes line symbol := by
  obtain ⟨-, stood, hstood, definition, slot, word, hsite, hword, hshaped, hname⟩ :=
    h.exists_shaped hstand hkept
  have hlisted := List.mem_flatMap_of_mem hstood hsite
  have hunique : ∀ other ∈ placed.flatMap ObjectModule.imports, other.address = address →
      other = ⟨address, slot.field, name⟩ := fun other hother hsame =>
    hjoins.site_unique hassembled hstand hlisted hother hsame
  have hown : ∀ module ∈ placed, module.FillsOwnWords := by
    intro module hmodule
    obtain ⟨original, horiginal, hstands⟩ := exists_standsAs hstand hmodule
    exact hstands.fillsOwnWords (hassembled original horiginal).fillsOwnWords
  have hkeeps := hjoins.keepsWord hown hstood hword
  refine (hshaped.written fun k hk hfree => hkeeps k hk ?_).takes hname fun k hcovers => ?_
  · rintro ⟨other, hother, hsame, hcovers⟩
    rw [hunique other (List.mem_flatMap_of_mem hstood hother) hsame] at hcovers
    exact hfree hcovers
  · exact hjoins.getLsbD_of_site hlisted hunique hexporter hexports hcovers

/-- In modules of assembled programs that are linked together, each instruction that imports a name
has the opcode of its line and reads what is left of the value that a module exports under the name,
which is the value exactly if it fits; and the modules can be linked whatever the values are. -/
theorem takes_of_link {modules : List ObjectModule} {base : Option Word} {image : LinkedImage}
    (hassembled : ∀ module ∈ modules, module.Assembled) (hlink : link modules base = .ok image) :
    (∃ placed, LinkedImage.placements modules base = .ok placed ∧
      ∀ address line name, ImportedOperand modules placed address line name →
        line.operands.getLast? = some name ∧
          (∃ exporter ∈ placed, ∃ symbol, exporter.Exports name symbol) ∧
          ∀ exporter ∈ placed, ∀ symbol, exporter.Exports name symbol →
            (Instruction.mk (image.memory.read address)).Takes line symbol) ∧
      ∀ values, ∃ other,
        link (modules.map (ObjectModule.withValues · values)) base = .ok other := by
  have hloaded : ∀ module ∈ modules, ∃ text, load text = .ok module :=
    fun module hmem => (hassembled module hmem).exists_text
  obtain ⟨placed, hplaced, hstand, hjoins⟩ := exists_placements_of_link hloaded hlink
  have horigin := origin_of_loaded hloaded
  have hkept := (placed_of_placements horigin hplaced).keepsFixedWords horigin
  refine ⟨⟨placed, hplaced, fun address line name himported => ?_⟩, fun values =>
    exists_link_withValues hlink values⟩
  obtain ⟨hlast, stood, hstood, _, _, _, hsite, -⟩ := himported.exists_shaped hstand hkept
  refine ⟨hlast, hjoins.supplied stood hstood _ hsite, fun exporter hexporter symbol hexports => ?_⟩
  exact hjoins.takes_of_importedOperand hassembled hstand hkept himported hexporter hexports

/-- The lines of a program that imports a constant and the number of a trap. -/
def importingLines : List String :=
  ["         .ORIG", "         .EXT    N,V", "         ADD     R0,R0,N", "         TRAP    V",
    "         .END"]

/-- The program that imports a constant and the number of a trap, and its module. -/
def importing : Build "main" importingLines :=
  .ofLines (by decide +kernel)

/-- The lines of a module of constants, the first of which does not fit an addition. -/
def constantLines : List String :=
  ["         .ORIG   x0100", "         .ENT    N,V", "N        .EQU    #20",
    "V        .EQU    x25", "         .END"]

/-- The module of constants, with its program. -/
def constants : Build "constants" constantLines :=
  .ofLines (by decide +kernel)

/-- The memory of the importing program and the module of constants. -/
def importingMemory :
    { memory // LinkedImage.combine [importing.module, constants.module] = .ok memory } :=
  okValue _ (by decide +kernel)

/-- The module of constants stays. -/
theorem placeAfter_constants :
    constants.module.placeAfter importing.module = .ok constants.module :=
  ObjectModule.placeAfter_eq_self (by decide +kernel) _

/-- The image of the importing program and the module of constants. -/
def importingImage : LinkedImage :=
  ⟨importingMemory.1, importing.module.start, importing.module.segmentName⟩

/-- The importing program and the module of constants are linked. -/
theorem link_importing :
    link [importing.module, constants.module] none = .ok importingImage := by
  have haddresses : importingMemory.1.toList.map Prod.fst = [0, 1] := by decide +kernel
  have hpage := LinkedImage.checkPage_eq_ok haddresses (by simp [pageOf])
  rw [link_pair (show importing.module.placeFirst none = .ok importing.module from rfl)
    placeAfter_constants]
  exact LinkedImage.ofPlaced_eq importingMemory.2 hpage

/-- Neither the importing program nor the module of constants is moved by the link. -/
theorem placements_importing :
    LinkedImage.placements [importing.module, constants.module] none =
      .ok [importing.module, constants.module] :=
  placements_pair rfl placeAfter_constants

/-- An import of the first program is one of the linked modules, at the address of its site. -/
theorem importedOperand_importing {line : SourceLine} {site : ImportSite}
    (h : ∃ encoded ∈ importing.program.statements,
      (SourceLine.scan encoded.statement.source.toList).2 = some line ∧ site ∈ encoded.imports)
    (hmnemonic : InstructionSet.isMnemonic line.operation = true) :
    ImportedOperand [importing.module, constants.module] [importing.module, constants.module]
      site.address line site.name := by
  obtain ⟨encoded, hencoded, hscan, hsite⟩ := h
  have hzero : importing.module.distance importing.module = 0 := BitVec.sub_self _
  exact .intro importing.module importing.module _ _ importing.program encoded site (by simp)
    importing.assembled importing.loaded hencoded hscan hmnemonic hsite rfl (by simp [hzero])

/-- The trap imports its number, and the addition its constant. -/
theorem importedOperands_importing :
    ImportedOperand [importing.module, constants.module] [importing.module, constants.module] 1
        ⟨"", "TRAP", ["V"]⟩ "V" ∧
      ImportedOperand [importing.module, constants.module] [importing.module, constants.module] 0
        ⟨"", "ADD", ["R0", "R0", "N"]⟩ "N" := by
  have hsites : (∃ encoded ∈ importing.program.statements,
      (SourceLine.scan encoded.statement.source.toList).2 = some ⟨"", "TRAP", ["V"]⟩ ∧
        ⟨1, OperandSlot.vector.field, "V"⟩ ∈ encoded.imports) ∧
      ∃ encoded ∈ importing.program.statements,
        (SourceLine.scan encoded.statement.source.toList).2 =
            some ⟨"", "ADD", ["R0", "R0", "N"]⟩ ∧
          ⟨0, InstructionSet.smallConstant.field, "N"⟩ ∈ encoded.imports := by
    decide +kernel
  exact ⟨importedOperand_importing hsites.1 (by decide +kernel),
    importedOperand_importing hsites.2 (by decide +kernel)⟩

/-- The module of constants exports the two numbers. -/
theorem exports_constants :
    constants.module.Exports "V" ⟨0x25, false, false, true⟩ ∧
      constants.module.Exports "N" ⟨20, false, false, true⟩ := by
  have hsymbols : constants.module.exports.get? "V" = some ⟨0x25, false, false, true⟩ ∧
      constants.module.exports.get? "N" = some ⟨20, false, false, true⟩ := by
    decide +kernel
  exact ⟨⟨hsymbols.1, rfl⟩, ⟨hsymbols.2, rfl⟩⟩

/-- What the machine reads of the trap and of the addition. -/
theorem operands_importingImage :
    (Instruction.mk (importingImage.memory.read 1)).trapVector = 0x25 ∧
      (Instruction.mk (importingImage.memory.read 0)).imm5.toInt = -12 := by
  decide +kernel

/-- The number of the trap fits, and the trap takes it. -/
theorem takes_importing :
    ∃ module other image placed, module.Assembled ∧ other.Assembled ∧
      link [module, other] none = .ok image ∧
      LinkedImage.placements [module, other] none = .ok placed ∧
      ImportedOperand [module, other] placed 1 ⟨"", "TRAP", ["V"]⟩ "V" ∧
      (Instruction.mk (image.memory.read 1)).Takes ⟨"", "TRAP", ["V"]⟩ ⟨0x25, false, false, true⟩ ∧
      (Instruction.mk (image.memory.read 1)).trapVector = 0x25 := by
  obtain ⟨⟨placed, hplaced, htakes⟩, -⟩ := takes_of_link
    (by simp [importing.module_assembled, constants.module_assembled]) link_importing
  obtain rfl := Except.ok.inj (placements_importing.symm.trans hplaced)
  obtain ⟨-, -, htrap⟩ := htakes _ _ _ importedOperands_importing.1
  exact ⟨_, _, importingImage, _, importing.module_assembled, constants.module_assembled,
    link_importing, placements_importing, importedOperands_importing.1,
    htrap constants.module (by simp) _ exports_constants.1, operands_importingImage.1⟩

/-- The constant of the addition does not fit; the modules are linked, and the addition reads
another number. -/
theorem exists_cut_operand :
    ∃ module other image placed, module.Assembled ∧ other.Assembled ∧
      link [module, other] none = .ok image ∧
      LinkedImage.placements [module, other] none = .ok placed ∧
      ImportedOperand [module, other] placed 0 ⟨"", "ADD", ["R0", "R0", "N"]⟩ "N" ∧
      other ∈ placed ∧ other.Exports "N" ⟨20, false, false, true⟩ ∧
      (Instruction.mk (image.memory.read 0)).imm5.toInt = -12 ∧
      ¬(Instruction.mk (image.memory.read 0)).imm5.toInt =
        (⟨20, false, false, true⟩ : Symbol).word.toInt := by
  refine ⟨_, _, importingImage, _, importing.module_assembled, constants.module_assembled,
    link_importing, placements_importing, importedOperands_importing.2, by simp,
    exports_constants.2, operands_importingImage.2, ?_⟩
  rw [operands_importingImage.2]
  decide

end PageMachine
