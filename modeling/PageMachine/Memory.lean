import Std.Data.ExtTreeMap
import PageMachine.Word
import PageMachine.Text.Digits

/-!
# Memory

A memory image holds the words that have been written, by address. Every other address reads
as zero, yet the image knows which addresses were written: they are what an object file lists
and what must not overlap when modules are joined.
-/

namespace PageMachine

/-- Addresses are ordered as numbers. -/
instance : Std.TransOrd Word :=
  inferInstanceAs (Std.TransOrd (BitVec 16))

/-- The written words of the address space. -/
structure Memory where
  /-- The word at each address that was written. -/
  words : Std.ExtTreeMap Word Word

namespace Memory

/-- The image in which nothing is written. -/
def empty : Memory :=
  ⟨∅⟩

instance : Inhabited Memory :=
  ⟨empty⟩

/-- The word at an address, if it was written. -/
def get? (memory : Memory) (address : Word) : Option Word :=
  memory.words[address]?

/-- The word at an address. -/
def read (memory : Memory) (address : Word) : Word :=
  (memory.get? address).getD 0

/-- Whether an address was written. -/
def contains (memory : Memory) (address : Word) : Bool :=
  memory.words.contains address

/-- Set the word at an address. -/
def write (memory : Memory) (address value : Word) : Memory :=
  ⟨memory.words.insert address value⟩

/-- The number of addresses written. -/
def size (memory : Memory) : Nat :=
  memory.words.size

/-- The lowest address written. -/
def first? (memory : Memory) : Option Word :=
  memory.words.minKey?

/-- The highest address written. -/
def last? (memory : Memory) : Option Word :=
  memory.words.maxKey?

/-- The addresses written with their words, in the order of the addresses. -/
def toList (memory : Memory) : List (Word × Word) :=
  memory.words.toList

/-- Write words one after the other; the last word for an address counts. -/
def writeAll (memory : Memory) (words : List (Word × Word)) : Memory :=
  words.foldl (fun image entry => image.write entry.1 entry.2) memory

/-- The line that shows the eight words from an address on, as far as the address space goes. -/
def rowText (memory : Memory) (start : Nat) : List Char :=
  let cell (i : Nat) : List Char :=
    if start + i < addressLimit then
      ' ' :: Text.hex 4 (memory.read (BitVec.ofNat 16 (start + i))).toNat
    else []
  '0' :: 'x' :: Text.hex 4 start ++ ':' :: (List.range 8).flatMap cell ++ ['\n']

/-- The text that shows a page, eight words to a line. -/
def pageText (memory : Memory) (page : Nat) : String :=
  String.ofList ((List.range 64).flatMap fun row => memory.rowText (page * pageSize + 8 * row))

/-- A written address reads as the word written, and no other address changes. -/
theorem get?_write (memory : Memory) (address value other : Word) :
    (memory.write address value).get? other =
      if other = address then some value else memory.get? other := by
  simp [get?, write, Std.ExtTreeMap.getElem?_insert, eq_comm (a := other)]

/-- Reading after a write. -/
theorem read_write (memory : Memory) (address value other : Word) :
    (memory.write address value).read other =
      if other = address then value else memory.read other := by
  unfold read
  rw [get?_write]
  split <;> simp_all

/-- Two images with the same words at the same addresses are the same image. -/
theorem ext_get? {left right : Memory} (h : ∀ address, left.get? address = right.get? address) :
    left = right := by
  cases left
  cases right
  exact congrArg Memory.mk (Std.ExtTreeMap.ext_getElem? h)

end Memory

end PageMachine
