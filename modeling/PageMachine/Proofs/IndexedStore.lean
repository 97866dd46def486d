import PageMachine.Proofs.EncodedWord

/-!
# Operands put into their slots by the linker

The assembler sets the bits of a slot in a word where they are still clear; the linker replaces what
the slot holds. The two agree where the slot has bits of its own, as all last slots have but one:
the index of a store takes six bits and its slot has seven, the highest of which is the lowest bit
of the base register. There the linker's word is the assembler's without that bit, which makes a
difference for every odd base register.
-/

namespace PageMachine

open InstructionSet (target source storeIndex)

/-- The word of a store's registers has nothing below its seventh bit, which is the lowest of the
base register. -/
theorem getLsbD_registerWord_store (stored base : Operand) {i : Nat} (hi : i ≤ 6) :
    (registerWord 0x7000 [(target, stored), (source, base)]).getLsbD i =
      (decide (i = 6) && decide (base.registerNumber % 2 = 1)) := by
  have hpattern : (0x7000 : Word).getLsbD i = false := by
    have hall : ∀ i < 7, (0x7000 : Word).getLsbD i = false := by decide
    exact hall i (Nat.lt_succ_of_le hi)
  have htarget : ¬target.field.Covers i := fun h => by
    have hlow : 9 ≤ i := h.1
    omega
  change (((0x7000 ||| target.field.place stored.registerNumber) |||
    source.field.place base.registerNumber : Word)).getLsbD i = _
  rw [BitVec.getLsbD_or, BitVec.getLsbD_or, BitRange.getLsbD_place, BitRange.getLsbD_place,
    hpattern]
  by_cases h : i = 6
  · subst h
    have hsource : source.field.Covers 6 := by decide
    have hbit : (BitRange.rest source.field.width base.registerNumber).testBit 0 =
        decide (base.registerNumber % 2 = 1) := by
      have hrest := BitRange.natCast_rest source.field.width base.registerNumber
      have hwidth : ((2 ^ source.field.width : Nat) : Int) = 8 := rfl
      rw [hwidth] at hrest
      rw [Nat.testBit_zero, decide_eq_decide]
      omega
    simp only [htarget, hsource, decide_false, decide_true, Bool.false_and, Bool.true_and,
      Bool.false_or]
    exact hbit
  · have hsource : ¬source.field.Covers i := fun hcovers => by
      have hlow : 6 ≤ i := hcovers.1
      omega
    simp [htarget, hsource, h]

/-- An index that a store takes leaves the seventh bit of its slot empty. -/
theorem testBit_rest_storeIndex {value : Int} (h : storeIndex.InRange value) :
    (BitRange.rest storeIndex.field.width value).testBit 6 = false := by
  have hlow : 0 ≤ value := h.1
  have hhigh : value ≤ 63 := h.2
  have hwidth : ((2 ^ storeIndex.field.width : Nat) : Int) = 128 := rfl
  have hrest := BitRange.natCast_rest storeIndex.field.width value
  rw [hwidth] at hrest
  exact Nat.testBit_lt_two_pow (by omega)

/-- The seventh bit, as a mask, has that bit only. -/
theorem getLsbD_seventh {i : Nat} (hi : i < 16) : (0x40 : Word).getLsbD i = decide (i = 6) := by
  have hall : ∀ i < 16, (0x40 : Word).getLsbD i = decide (i = 6) := by decide
  exact hall i hi

/-- Inserting the index of a store gives what placing it does, without the lowest bit of the base
register. -/
theorem insert_storeIndex (stored base : Operand) {value : Int} (h : storeIndex.InRange value) :
    storeIndex.field.insert (registerWord 0x7000 [(target, stored), (source, base)]) value =
      storeIndex.field.orInto (registerWord 0x7000 [(target, stored), (source, base)]) value &&&
        ~~~0x40 := by
  apply BitVec.eq_of_getLsbD_eq
  intro i hi
  rw [BitRange.insert, BitRange.orInto, BitVec.getLsbD_or, BitVec.getLsbD_and, BitVec.getLsbD_not,
    BitVec.getLsbD_and, BitVec.getLsbD_or, BitVec.getLsbD_not, BitRange.getLsbD_mask,
    BitRange.getLsbD_place, getLsbD_seventh hi]
  have hcovers : storeIndex.field.Covers i ↔ i ≤ 6 := ⟨And.right, fun h => ⟨Nat.zero_le _, h⟩⟩
  rcases Nat.lt_trichotomy i 6 with hlow | rfl | hhigh
  · rw [getLsbD_registerWord_store stored base (Nat.le_of_lt hlow)]
    simp [hcovers, hi, Nat.le_of_lt hlow, Nat.ne_of_lt hlow]
  · have hbit : (BitRange.rest storeIndex.field.width value).testBit (6 - storeIndex.field.lsb) =
        false := testBit_rest_storeIndex h
    simp [hcovers, hbit]
  · simp [hcovers, hi, Nat.not_le.mpr hhigh, Nat.ne_of_gt hhigh]

/-- Placing the index of a store leaves the lowest bit of the base register, which is not set if the
register is even. -/
theorem orInto_storeIndex_eq_iff (stored base : Operand) {value : Int}
    (h : storeIndex.InRange value) :
    storeIndex.field.orInto (registerWord 0x7000 [(target, stored), (source, base)]) value &&&
          ~~~0x40 =
        storeIndex.field.orInto (registerWord 0x7000 [(target, stored), (source, base)]) value ↔
      ¬base.registerNumber % 2 = 1 := by
  let word := registerWord 0x7000 [(target, stored), (source, base)]
  change storeIndex.field.orInto word value &&& ~~~0x40 = storeIndex.field.orInto word value ↔ _
  have hseventh : (storeIndex.field.orInto word value).getLsbD 6 =
      decide (base.registerNumber % 2 = 1) := by
    have hbit : (BitRange.rest storeIndex.field.width value).testBit (6 - storeIndex.field.lsb) =
        false := testBit_rest_storeIndex h
    rw [BitRange.orInto, BitVec.getLsbD_or, BitRange.getLsbD_place, hbit,
      getLsbD_registerWord_store stored base (Nat.le_refl 6)]
    simp
  constructor
  · intro heq hodd
    have hbit := congrArg (·.getLsbD 6) heq
    simp only [BitVec.getLsbD_and, BitVec.getLsbD_not, getLsbD_seventh (show 6 < 16 by decide),
      hseventh, hodd] at hbit
    exact absurd hbit (by decide)
  · intro heven
    apply BitVec.eq_of_getLsbD_eq
    intro i hi
    rw [BitVec.getLsbD_and, BitVec.getLsbD_not, getLsbD_seventh hi]
    by_cases hsix : i = 6
    · subst hsix
      rw [hseventh]
      simp [heven]
    · simp [hsix, hi]

namespace Content

/-- The linker puts into a last slot what the assembler does, except in an indexed store. -/
theorem Formed.insert_eq_orInto {content : Content} (hformed : content.Formed) {word : Word}
    {slot : OperandSlot} {operand : Operand} (h : content.last? = some (word, slot, operand))
    (hstore : ¬content.IsIndexedStore) (value : Int) :
    slot.field.insert word value = slot.field.orInto word value :=
  BitRange.insert_eq_orInto value (hformed.and_mask_eq_zero h hstore)

/-- In an indexed store the linker clears the lowest bit of the base register besides. -/
theorem Formed.insert_indexedStore {content : Content} (hformed : content.Formed) {word : Word}
    {slot : OperandSlot} {operand : Operand} (h : content.last? = some (word, slot, operand))
    (hstore : content.IsIndexedStore) {value : Int}
    (hrange : slot.pageRelative = true ∨ slot.InRange value) :
    ∃ stored base, content = .machine InstructionSet.indexedStore [stored, base, operand] ∧
      slot.field.insert word value = slot.field.orInto word value &&& ~~~0x40 ∧
      (slot.field.insert word value = slot.field.orInto word value ↔
        ¬base.registerNumber % 2 = 1) := by
  obtain ⟨stored, base, hcontent, rfl, rfl⟩ := hformed.indexedStore_spec h hstore
  have hrange : storeIndex.InRange value := hrange.resolve_left (by decide)
  refine ⟨stored, base, hcontent, insert_storeIndex stored base hrange, ?_⟩
  rw [insert_storeIndex stored base hrange]
  exact orInto_storeIndex_eq_iff stored base hrange

end Content

end PageMachine
