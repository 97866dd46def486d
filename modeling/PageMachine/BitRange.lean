import PageMachine.Word

/-!
# Bit fields of a word

A field is a run of adjacent bits, given by its highest and lowest bit, both included and
counted from 0 at the least significant end. Values put into a field are integers, of which
the field keeps the low bits, so that a negative number is stored in two's complement.
-/

namespace PageMachine

/-- A field of a word, from bit `msb` down to bit `lsb`. -/
structure BitRange where
  /-- The highest bit. -/
  msb : Nat
  /-- The lowest bit. -/
  lsb : Nat
  /-- A field has at least one bit. -/
  lsb_le_msb : lsb ≤ msb := by decide
  /-- A field lies inside the word. -/
  msb_lt : msb < 16 := by decide
  deriving DecidableEq, Repr

namespace BitRange

/-- The field between two bits, if they bound one. -/
def ofBounds? (msb lsb : Nat) : Option BitRange :=
  if h : lsb ≤ msb ∧ msb < 16 then some ⟨msb, lsb, h.1, h.2⟩ else none

/-- The field of a page offset. -/
def pageOffset : BitRange where
  msb := 8
  lsb := 0

/-- The field that is the whole word. -/
def wholeWord : BitRange where
  msb := 15
  lsb := 0

/-- The number of bits of a field. -/
def width (range : BitRange) : Nat :=
  range.msb - range.lsb + 1

/-- The word whose set bits are those of the field. -/
def mask (range : BitRange) : Word :=
  (BitVec.allOnes range.width).setWidth 16 <<< range.lsb

/-- The content of the field as a number from 0. -/
def extract (range : BitRange) (word : Word) : Word :=
  (word &&& range.mask) >>> range.lsb

/-- A value moved to the field's place, with what does not fit cut off. -/
def place (range : BitRange) (value : Int) : Word :=
  (BitVec.ofInt 16 value <<< range.lsb) &&& range.mask

/-- The word with the field set to a value. -/
def insert (range : BitRange) (word : Word) (value : Int) : Word :=
  (word &&& ~~~range.mask) ||| range.place value

/-- The word with the bits of a value set in the field, besides those already set. -/
def orInto (range : BitRange) (word : Word) (value : Int) : Word :=
  word ||| range.place value

/-- The word with `delta` added to the field, whose carry is dropped. -/
def add (range : BitRange) (word : Word) (delta : Int) : Word :=
  range.insert word ((range.extract word).toNat + delta)

/-- Whether the field contains bit `i`. -/
def Covers (range : BitRange) (i : Nat) : Prop :=
  range.lsb ≤ i ∧ i ≤ range.msb

instance (range : BitRange) (i : Nat) : Decidable (range.Covers i) :=
  inferInstanceAs (Decidable (_ ∧ _))

/-- The field as it is written in text: highest bit, colon, lowest bit. -/
def render (range : BitRange) : String :=
  "[" ++ toString range.msb ++ ":" ++ toString range.lsb ++ "]"

end BitRange

end PageMachine
