/-!
# Words and pages

Everything the machine stores is a word of sixteen bits: data, instructions and addresses.
Memory is divided into 128 pages of 512 words. An instruction that names a place in memory
holds only the nine bits of a page offset; the page itself is that of the following
instruction. `pageReplace` is this addressing rule, and its two laws say that it keeps the
page and takes the offset.
-/

namespace PageMachine

/-- A machine word of sixteen bits. -/
abbrev Word := BitVec 16

/-- The number of words in a page. -/
def pageSize : Nat := 512

/-- One past the largest address. -/
def addressLimit : Nat := 65536

/-- The number of the page that holds an address. -/
def pageOf (address : Word) : Word :=
  address >>> 9

/-- The address at `offset` in the page that holds `base`; only nine bits of the offset count. -/
def pageReplace (base offset : Word) : Word :=
  (base &&& ~~~0x1FF) ||| (offset &&& 0x1FF)

/-- The low `width` bits of a word, read as a two's complement number. -/
def signExtend (width : Nat) (word : Word) : Word :=
  (word.setWidth width).signExtend 16

/-- The mask of a page offset has exactly its nine low bits set. -/
theorem getLsbD_offsetMask (i : Nat) : (0x1FF : Word).getLsbD i = decide (i < 9) := by
  rw [show (0x1FF : Word) = BitVec.ofNat 16 (2 ^ 9 - 1) from rfl, BitVec.getLsbD_ofNat,
    Nat.testBit_two_pow_sub_one]
  by_cases h : i < 9 <;> simp [h]
  omega

/-- Replacing the offset stays on the page. -/
theorem pageOf_pageReplace (base offset : Word) :
    pageOf (pageReplace base offset) = pageOf base := by
  apply BitVec.eq_of_getLsbD_eq
  intro i _
  simp only [pageOf, pageReplace, BitVec.getLsbD_ushiftRight, BitVec.getLsbD_or,
    BitVec.getLsbD_and, BitVec.getLsbD_not, getLsbD_offsetMask]
  by_cases h : 9 + i < 16
  · simp [h, show ¬9 + i < 9 by omega]
  · simp [BitVec.getLsbD_of_ge base (9 + i) (by omega)]

/-- The address it gives has the offset asked for. -/
theorem pageReplace_and_offset (base offset : Word) :
    pageReplace base offset &&& 0x1FF = offset &&& 0x1FF := by
  unfold pageReplace
  ext i hi
  simp only [BitVec.getElem_and, BitVec.getElem_or, BitVec.getElem_not]
  cases (0x1FF : Word)[i] <;> simp

end PageMachine
