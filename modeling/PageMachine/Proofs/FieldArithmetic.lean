import Mathlib.Data.Int.ModEq
import PageMachine.Proofs.OperandRole

/-!
# Exact arithmetic in a field

A field is a number modulo a power of two that lies in a word. What is inserted is kept up to
multiples of that power, adding to the field adds to the number, and no other bit changes. All this
is for integers of any size. A machine that adds in 32 bits comes to the same words, because no
field is wider than a word: the carries that it loses are multiples of every field's modulus. So
values that leave its range need no separate treatment.
-/

namespace PageMachine

namespace BitRange

/-- A number as 32 bits hold it in two's complement. -/
def wrap (value : Int) : Int :=
  value.bmod (2 ^ 32)

/-- Wrapping changes a number by a multiple of all that 32 bits can hold. -/
theorem wrap_modEq (value : Int) : wrap value ≡ value [ZMOD (2 ^ 32 : Nat)] :=
  Int.bmod_emod

variable {range : BitRange} {word : Word}

/-- A field does not tell apart what 32 bits do not tell apart. -/
theorem place_of_modEq {value other : Int} (h : value ≡ other [ZMOD (2 ^ 32 : Nat)]) :
    range.place value = range.place other := by
  have hwidth : range.width ≤ 32 := range.width_le.trans (by decide)
  have hdvd : ((2 ^ range.width : Nat) : Int) ∣ (2 ^ 32 : Nat) :=
    Int.natCast_dvd_natCast.mpr (Nat.pow_dvd_pow 2 hwidth)
  apply place_congr
  apply Int.ofNat_inj.mp
  rw [natCast_rest, natCast_rest]
  exact h.of_dvd hdvd

/-- Inserting does not tell apart what 32 bits do not tell apart. -/
theorem insert_of_modEq {value other : Int} (h : value ≡ other [ZMOD (2 ^ 32 : Nat)]) :
    range.insert word value = range.insert word other := by
  rw [insert, insert, place_of_modEq h]

/-- Adding does not tell apart what 32 bits do not tell apart. -/
theorem add_of_modEq {delta other : Int} (h : delta ≡ other [ZMOD (2 ^ 32 : Nat)]) :
    range.add word delta = range.add word other :=
  insert_of_modEq (h.add_left _)

/-- What was inserted is found again, modulo the width. -/
theorem extract_insert (range : BitRange) (word : Word) (value : Int) :
    ((range.extract (range.insert word value)).toNat : Int) = value % 2 ^ range.width := by
  have hrest := toNat_extract_place value (range.and_not_mask_and_mask word)
  rw [insert, hrest, natCast_rest]
  push_cast
  rfl

/-- A field with nothing in it has no bits in the word. -/
theorem and_mask_eq_zero (h : range.extract word = 0) : word &&& range.mask = 0 := by
  apply BitVec.eq_of_getLsbD_eq
  intro i _
  have hzero : ∀ k, (0 : Word).getLsbD k = false := fun _ => BitVec.getLsbD_zero
  rw [BitVec.getLsbD_and, getLsbD_mask, hzero]
  by_cases hcovers : range.Covers i
  · have hwithin := hcovers.sub_lsb_lt
    have hbit : (range.extract word).getLsbD (i - range.lsb) = false := by rw [h, hzero]
    rw [getLsbD_extract, Nat.add_sub_cancel' hcovers.1] at hbit
    simpa [hwithin, hcovers] using hbit
  · simp [hcovers]

/-- Setting bits in a field leaves the other bits. -/
theorem getLsbD_orInto (range : BitRange) (word : Word) (value : Int) {i : Nat}
    (h : ¬range.Covers i) : (range.orInto word value).getLsbD i = word.getLsbD i := by
  rw [orInto, BitVec.getLsbD_or, getLsbD_place]
  simp [h]

/-- Whether a field's arithmetic is exact. -/
structure Exact (range : BitRange) : Prop where
  /-- The field gives back what was inserted, modulo its width. -/
  extract_insert : ∀ word value,
    ((range.extract (range.insert word value)).toNat : Int) = value % 2 ^ range.width
  /-- Bits outside the field stay. -/
  outside : ∀ word value, ∀ i < 16, ¬range.Covers i →
    (range.insert word value).getLsbD i = word.getLsbD i ∧
      (range.orInto word value).getLsbD i = word.getLsbD i ∧
      (range.add word value).getLsbD i = word.getLsbD i
  /-- Inserting what the field holds changes nothing. -/
  insert_extract : ∀ word, range.insert word (range.extract word).toNat = word
  /-- Of two insertions the last one counts. -/
  insert_insert : ∀ word value other,
    range.insert (range.insert word value) other = range.insert word other
  /-- Setting bits in an empty field inserts. -/
  orInto_eq : ∀ word value, range.extract word = 0 →
    range.orInto word value = range.insert word value
  /-- The field after an addition holds the sum, modulo its width. -/
  extract_add : ∀ word delta, ((range.extract (range.add word delta)).toNat : Int) =
    ((range.extract word).toNat + delta) % 2 ^ range.width
  /-- A sum that is taken in 32 bits is as good. -/
  add_eq : ∀ word delta,
    range.add word delta = range.insert word (wrap ((range.extract word).toNat + delta))
  /-- Two additions make one, of the sum in 32 bits. -/
  add_add : ∀ word first second,
    range.add (range.add word first) second = range.add word (wrap (first + second))
  /-- An addition is undone by the negative number, in 32 bits or not. -/
  add_neg : ∀ word delta, range.add (range.add word delta) (-delta) = word ∧
    range.add (range.add word delta) (wrap (-delta)) = word
  /-- Insertions into fields that share no bits can be made in either order. -/
  insert_comm : ∀ other : BitRange, range.Apart other → ∀ word value otherValue,
    other.insert (range.insert word value) otherValue =
      range.insert (other.insert word otherValue) value

/-- The arithmetic of every field is exact, for values of any size and sign. -/
theorem exact_arithmetic (range : BitRange) : range.Exact := by
  have hneg : ∀ word delta, range.add (range.add word delta) (-delta) = word := by
    intro word delta
    rw [range.add_add, Int.add_right_neg, range.add_zero]
  exact
    { extract_insert := range.extract_insert
      outside := by
        intro word value i hi houtside
        refine ⟨?_, range.getLsbD_orInto word value houtside,
          range.getLsbD_add word value hi houtside⟩
        rw [getLsbD_insert _ _ _ hi, if_neg houtside]
      insert_extract := range.orInto_extract
      insert_insert := fun word value other =>
        insert_place value other (range.and_not_mask_and_mask word)
      orInto_eq := fun word value hempty =>
        (insert_eq_orInto value (and_mask_eq_zero hempty)).symm
      extract_add := fun word delta => range.extract_insert word _
      add_eq := fun word delta => insert_of_modEq (wrap_modEq _).symm
      add_add := by
        intro word first second
        rw [range.add_add, add_of_modEq (wrap_modEq _)]
      add_neg := fun word delta =>
        ⟨hneg word delta, (add_of_modEq (wrap_modEq _)).trans (hneg word delta)⟩
      insert_comm := fun _ hapart => insert_comm hapart }

/-- The field that holds the highest bit of a word. -/
def opcodeField : BitRange where
  msb := 15
  lsb := 12
  lsb_le_msb := Nat.le_of_ble_eq_true rfl
  msb_lt := Nat.le_of_ble_eq_true rfl

/-- A negative number in the highest field, one that is too wide in the lowest, and the least number
of 32 bits, which is its own negative there. -/
theorem exact_opcodeField :
    opcodeField.extract 0x0ABC = 0 ∧ opcodeField.Apart pageOffset ∧ ¬opcodeField.Covers 9 ∧
      opcodeField.orInto 0x0ABC (-3) = opcodeField.insert 0x0ABC (-3) ∧
      ((opcodeField.extract (opcodeField.insert 0x0ABC (-3))).toNat : Int) = 13 ∧
      (opcodeField.insert 0x0ABC (-3)).getLsbD 9 = true ∧
      pageOffset.insert (opcodeField.insert 0x0ABC (-3)) 517 =
        opcodeField.insert (pageOffset.insert 0x0ABC 517) (-3) ∧
      wrap 2147483648 = -2147483648 ∧
      opcodeField.add (opcodeField.add 0x0ABC (-2147483648)) (-2147483648) = 0x0ABC := by
  have hexact := exact_arithmetic opcodeField
  have hempty : opcodeField.extract 0x0ABC = 0 := by decide
  have hapart : opcodeField.Apart pageOffset := by decide
  have houtside : ¬opcodeField.Covers 9 := by decide
  have hwrap : wrap 2147483648 = -2147483648 := by decide
  refine ⟨hempty, hapart, houtside, hexact.orInto_eq _ _ hempty, ?_, ?_,
    hexact.insert_comm _ hapart _ _ _, hwrap, ?_⟩
  · exact hexact.extract_insert _ _
  · exact (hexact.outside _ _ 9 (by decide) houtside).1.trans (by decide)
  · have hundone := (hexact.add_neg 0x0ABC (-2147483648)).2
    rwa [Int.neg_neg, hwrap] at hundone

end BitRange

end PageMachine
