import Mathlib.Algebra.Group.Nat.Defs
import PageMachine.BitRange

/-!
# The arithmetic of bit fields

A field holds a number modulo its width: what is placed in it depends on the number only so far,
and what is extracted is the rest. Placing a number in an empty field by `orInto` or `insert` is
the same, and adding to the field then adds to the number. The statements are for every field of a
word, not for those that instructions have.
-/

namespace PageMachine

/-- The offset in its page of an address. -/
theorem toNat_and_offsetMask (address : Word) :
    (address &&& 0x1FF).toNat = address.toNat % 512 := by
  rw [BitVec.toNat_and]
  exact Nat.and_two_pow_sub_one_eq_mod address.toNat 9

namespace BitRange

/-- A number as a field of the given width holds it: its rest modulo the width. -/
def rest (width : Nat) (value : Int) : Nat :=
  (value % (2 ^ width : Nat)).toNat

/-- The rest is the number modulo the width. -/
theorem natCast_rest (width : Nat) (value : Int) :
    (rest width value : Int) = value % (2 ^ width : Nat) := by
  have hpos : ((2 ^ width : Nat) : Int) ≠ 0 :=
    Int.ofNat_ne_zero.mpr (Nat.ne_of_gt (Nat.two_pow_pos width))
  exact Int.toNat_of_nonneg (Int.emod_nonneg _ hpos)

/-- The rest is below the width. -/
theorem rest_lt (width : Nat) (value : Int) : rest width value < 2 ^ width := by
  have hpos : 0 < ((2 ^ width : Nat) : Int) := Int.ofNat_lt.mpr (Nat.two_pow_pos width)
  have hlt := Int.emod_lt_of_pos value hpos
  rw [← natCast_rest] at hlt
  exact Int.ofNat_lt.mp hlt

/-- The rest of a rest in a wider field. -/
theorem rest_rest {width wider : Nat} (h : width ≤ wider) (value : Int) :
    rest wider value % 2 ^ width = rest width value := by
  have hdvd : ((2 ^ width : Nat) : Int) ∣ (2 ^ wider : Nat) :=
    Int.ofNat_dvd.mpr (Nat.pow_dvd_pow 2 h)
  apply Int.ofNat_inj.mp
  rw [Int.natCast_emod, natCast_rest, natCast_rest, Int.emod_emod_of_dvd value hdvd]

/-- The bits of an integer's low part. -/
theorem getLsbD_ofInt {width i : Nat} (value : Int) (hwidth : width ≤ 16) (hi : i < width) :
    (BitVec.ofInt 16 value).getLsbD i = (rest width value).testBit i := by
  rw [← rest_rest hwidth, Nat.testBit_mod_two_pow, BitVec.getLsbD, BitVec.toNat_ofInt, rest]
  simp [hi]

/-- A field is no wider than a word. -/
theorem width_le (range : BitRange) : range.width ≤ 16 := by
  have := range.msb_lt
  unfold width
  omega

/-- The number of a bit within its field is below the width. -/
theorem Covers.sub_lsb_lt {range : BitRange} {i : Nat} (h : range.Covers i) :
    i - range.lsb < range.width := by
  unfold Covers at h
  unfold width
  omega

/-- The bits of a field's mask. -/
theorem getLsbD_mask (range : BitRange) (i : Nat) :
    range.mask.getLsbD i = decide (range.Covers i) := by
  have hlsb := range.lsb_le_msb
  have hmsb := range.msb_lt
  rw [mask, width, BitVec.getLsbD_shiftLeft, BitVec.getLsbD_setWidth, BitVec.getLsbD_allOnes,
    Bool.eq_iff_iff, decide_eq_true_iff]
  simp only [Covers, Bool.and_eq_true, Bool.not_eq_true', decide_eq_true_eq,
    decide_eq_false_iff_not]
  omega

/-- The bits of a number in its field. -/
theorem getLsbD_place (range : BitRange) (value : Int) (i : Nat) :
    (range.place value).getLsbD i =
      (decide (range.Covers i) && (rest range.width value).testBit (i - range.lsb)) := by
  rw [place, BitVec.getLsbD_and, getLsbD_mask, BitVec.getLsbD_shiftLeft]
  by_cases hcovers : range.Covers i
  · have hmsb := range.msb_lt
    have hlow := hcovers.1
    have hhigh := hcovers.2
    have hsmall : i < 16 := by omega
    rw [getLsbD_ofInt value range.width_le hcovers.sub_lsb_lt]
    simp [hcovers, hsmall, Nat.not_lt.mpr hlow]
  · simp [hcovers]

/-- A field keeps a number modulo its width. -/
theorem place_congr {range : BitRange} {value other : Int}
    (h : rest range.width value = rest range.width other) :
    range.place value = range.place other := by
  apply BitVec.eq_of_getLsbD_eq
  intro i _
  rw [getLsbD_place, getLsbD_place, h]

/-- The bits of a field's content. -/
theorem getLsbD_extract (range : BitRange) (word : Word) (i : Nat) :
    (range.extract word).getLsbD i =
      (decide (i < range.width) && word.getLsbD (range.lsb + i)) := by
  have hlsb := range.lsb_le_msb
  have hcovers : range.Covers (range.lsb + i) ↔ i < range.width := by
    unfold Covers width
    omega
  rw [extract, BitVec.getLsbD_ushiftRight, BitVec.getLsbD_and, getLsbD_mask, Bool.and_comm]
  simp only [hcovers]

/-- The content of a word in which a number is placed is the number modulo the width. -/
theorem toNat_extract_place {range : BitRange} {word : Word} (value : Int)
    (h : word &&& range.mask = 0) :
    (range.extract (word ||| range.place value)).toNat = rest range.width value := by
  apply Nat.eq_of_testBit_eq
  intro i
  have hbit := congrArg (·.getLsbD (range.lsb + i)) h
  simp only [BitVec.getLsbD_and, getLsbD_mask] at hbit
  rw [← BitVec.getLsbD, getLsbD_extract, BitVec.getLsbD_or, getLsbD_place]
  have hlsb := range.lsb_le_msb
  by_cases hi : i < range.width
  · have hcovers : range.Covers (range.lsb + i) := by
      unfold width at hi
      unfold Covers
      omega
    simp only [hcovers, decide_true, Bool.and_true] at hbit
    simp [hi, hcovers, hbit]
  · have hlarge : rest range.width value < 2 ^ i :=
      Nat.lt_of_lt_of_le (rest_lt _ _) (Nat.pow_le_pow_right (by decide) (Nat.not_lt.mp hi))
    simp [hi, Nat.testBit_lt_two_pow hlarge]

/-- A word without bits in a field is the same outside it. -/
theorem and_not_mask_eq_self {range : BitRange} {word : Word} (h : word &&& range.mask = 0) :
    word &&& ~~~range.mask = word := by
  apply BitVec.eq_of_getLsbD_eq
  intro i hi
  have hbit := congrArg (·.getLsbD i) h
  simp only [BitVec.getLsbD_and, BitVec.getLsbD_not] at hbit ⊢
  cases hword : word.getLsbD i <;> simp_all

/-- Inserting a number drops what the field held. -/
theorem insert_place {range : BitRange} {word : Word} (old new : Int)
    (h : word &&& range.mask = 0) :
    range.insert (word ||| range.place old) new = word ||| range.place new := by
  have hold : range.place old &&& ~~~range.mask = 0 := by
    apply BitVec.eq_of_getLsbD_eq
    intro i hi
    rw [BitVec.getLsbD_and, getLsbD_place, BitVec.getLsbD_not, getLsbD_mask]
    by_cases hcovers : range.Covers i <;> simp [hcovers]
  have hword : word ||| (0 : Word) = word := BitVec.or_zero
  rw [insert, BitVec.and_or_distrib_right, hold, and_not_mask_eq_self h, hword]

/-- Inserting a number into an empty field sets its bits. -/
theorem insert_eq_orInto {range : BitRange} {word : Word} (value : Int)
    (h : word &&& range.mask = 0) : range.insert word value = range.orInto word value := by
  rw [insert, and_not_mask_eq_self h, orInto]

/-- The bits of a word into which a number is inserted: those of the number in the field, and of the
word elsewhere. -/
theorem getLsbD_insert (range : BitRange) (word : Word) (value : Int) {i : Nat} (hi : i < 16) :
    (range.insert word value).getLsbD i =
      if range.Covers i then (BitVec.ofInt 16 value).getLsbD (i - range.lsb)
      else word.getLsbD i := by
  rw [insert, BitVec.getLsbD_or, BitVec.getLsbD_and, BitVec.getLsbD_not, getLsbD_mask,
    getLsbD_place]
  by_cases hcovers : range.Covers i
  · rw [if_pos hcovers, getLsbD_ofInt value range.width_le hcovers.sub_lsb_lt]
    simp [hcovers]
  · simp [hcovers, hi]

/-- Adding to a field adds to the number that was placed in it. -/
theorem add_orInto {range : BitRange} {word : Word} (value delta : Int)
    (h : word &&& range.mask = 0) :
    range.add (range.orInto word value) delta = range.orInto word (value + delta) := by
  rw [add, orInto, toNat_extract_place value h, insert_place _ _ h, orInto]
  congr 1
  apply place_congr
  apply Int.ofNat_inj.mp
  rw [natCast_rest, natCast_rest, natCast_rest, Int.emod_add_emod]

/-- A word without a field's bits has nothing in the field. -/
theorem and_not_mask_and_mask (range : BitRange) (word : Word) :
    word &&& ~~~range.mask &&& range.mask = 0 := by
  rw [BitVec.and_assoc, BitVec.and_comm (~~~range.mask), BitVec.and_not_self]
  exact BitVec.and_zero

/-- A word is the rest of it with the field's content put back. -/
theorem orInto_extract (range : BitRange) (word : Word) :
    range.orInto (word &&& ~~~range.mask) (range.extract word).toNat = word := by
  apply BitVec.eq_of_getLsbD_eq
  intro i hi
  rw [orInto, BitVec.getLsbD_or, getLsbD_place, BitVec.getLsbD_and, BitVec.getLsbD_not,
    getLsbD_mask]
  by_cases hcovers : range.Covers i
  · have hwithin := hcovers.sub_lsb_lt
    have hplace : range.lsb + (i - range.lsb) = i := Nat.add_sub_cancel' hcovers.1
    rw [← getLsbD_ofInt _ range.width_le hwithin, BitVec.ofInt_natCast, BitVec.ofNat_toNat,
      BitVec.setWidth_eq, getLsbD_extract, hplace]
    simp [hcovers, hwithin]
  · simp [hcovers, hi]

/-- Adding to a field twice adds the sum. -/
theorem add_add (range : BitRange) (word : Word) (first second : Int) :
    range.add (range.add word first) second = range.add word (first + second) := by
  have hempty := range.and_not_mask_and_mask word
  rw [← range.orInto_extract word, add_orInto _ _ hempty, add_orInto _ _ hempty,
    add_orInto _ _ hempty, Int.add_assoc]

/-- Adding nothing to a field leaves the word. -/
theorem add_zero (range : BitRange) (word : Word) : range.add word 0 = word := by
  calc range.add word 0
      = range.add (range.orInto (word &&& ~~~range.mask) (range.extract word).toNat) 0 := by
        rw [orInto_extract]
    _ = range.orInto (word &&& ~~~range.mask) ((range.extract word).toNat + 0) :=
        add_orInto _ _ (range.and_not_mask_and_mask word)
    _ = word := by rw [Int.add_zero, orInto_extract]

/-- Adding to a field leaves the other bits. -/
theorem getLsbD_add (range : BitRange) (word : Word) (delta : Int) {i : Nat} (hi : i < 16)
    (h : ¬range.Covers i) : (range.add word delta).getLsbD i = word.getLsbD i := by
  rw [add, getLsbD_insert _ _ _ hi, if_neg h]

end BitRange

end PageMachine
