import PageMachine.Instruction
import PageMachine.Machine.State
import PageMachine.Proofs.BitField

/-!
# The fields of an instruction as numbers

A field of an instruction is a quotient and a rest of its word: the bits above are divided off and
those below are what remains. These equations say so for each accessor, for every word and whatever
its opcode is, so that what is stated of an instruction can be stated of the number of its word.
-/

namespace PageMachine

/-- The number of the page of an address is the address divided by the size of a page. -/
theorem toNat_pageOf (address : Word) : (pageOf address).toNat = address.toNat / 512 := by
  rw [pageOf, BitVec.toNat_ushiftRight, Nat.shiftRight_eq_div_pow]

/-- Replacing the offset keeps the page and takes the offset. -/
theorem toNat_pageReplace (base offset : Word) :
    (pageReplace base offset).toNat = base.toNat / 512 * 512 + offset.toNat % 512 := by
  have hpage := congrArg BitVec.toNat (pageOf_pageReplace base offset)
  have hoffset := congrArg BitVec.toNat (pageReplace_and_offset base offset)
  rw [toNat_pageOf, toNat_pageOf] at hpage
  rw [toNat_and_offsetMask, toNat_and_offsetMask] at hoffset
  omega

/-- The address that a word names has the page of the program counter and the word's low bits. -/
theorem toNat_pageAddress (word pc : Word) :
    ((⟨word⟩ : Instruction).pageAddress pc).toNat = pc.toNat / 512 * 512 + word.toNat % 512 := by
  rw [Instruction.pageAddress, toNat_pageReplace, Instruction.pageOffset]
  simp

/-- An opcode from the table has its own number. -/
theorem Opcode.number_ofFin (n : Fin 16) : (Opcode.ofFin n).number = n := by
  decide +revert

/-- Opcodes with one number are the same. -/
theorem Opcode.number_injective : Function.Injective Opcode.number := fun op other h =>
  Option.some.inj (by rw [← ofNumber?_number op, h, ofNumber?_number])

namespace Instruction

/-- The number of the opcode is what remains above the other twelve bits. -/
theorem number_opcode (i : Instruction) : i.opcode.number = i.word.toNat / 4096 := by
  have hlt := i.word.isLt
  have hfield : i.opcodeNumber.toNat = i.word.toNat / 4096 := by
    rw [opcodeNumber, BitVec.extractLsb'_toNat, Nat.shiftRight_eq_div_pow]
    omega
  rw [opcode, Opcode.number_ofFin]
  exact hfield

/-- The register whose number is in the low three bits of a number. -/
def registerOf (n : Nat) : Register :=
  ⟨n % 8, Nat.mod_lt n (by decide)⟩

/-- Three bits of a word as the number of a register. -/
theorem toFin_extractLsb' (word : Word) (start : Nat) :
    (word.extractLsb' start 3).toFin = registerOf (word.toNat / 2 ^ start) := by
  apply Fin.ext
  change (word.extractLsb' start 3).toNat = _
  rw [BitVec.extractLsb'_toNat, Nat.shiftRight_eq_div_pow]
  rfl

/-- The register that receives or supplies the value. -/
theorem dst_eq (i : Instruction) : i.dst = registerOf (i.word.toNat / 512) :=
  toFin_extractLsb' i.word 9

/-- The first source register. -/
theorem src1_eq (i : Instruction) : i.src1 = registerOf (i.word.toNat / 64) :=
  toFin_extractLsb' i.word 6

/-- The second source register. -/
theorem src2_eq (i : Instruction) : i.src2 = registerOf i.word.toNat := by
  rw [src2, toFin_extractLsb', Nat.pow_zero, Nat.div_one]

/-- The index added to a base register. -/
theorem toNat_index6 (i : Instruction) : i.index6.toNat = i.word.toNat % 64 := by
  rw [index6, BitVec.extractLsb'_toNat]
  rfl

/-- The number of a trap. -/
theorem toNat_trapVector (i : Instruction) : i.trapVector.toNat = i.word.toNat % 256 := by
  rw [trapVector, BitVec.extractLsb'_toNat]
  rfl

/-- Bit 5 decides about the second operand. -/
theorem immediateMode_iff (i : Instruction) :
    i.immediateMode = true ↔ i.word.toNat / 32 % 2 = 1 := by
  rw [immediateMode, BitVec.getLsbD, Nat.testBit_eq_decide_div_mod_eq, decide_eq_true_eq]

/-- Bit 11 decides whether the return address is kept. -/
theorem link_iff (i : Instruction) : i.link = true ↔ i.word.toNat / 2048 % 2 = 1 := by
  rw [link, BitVec.getLsbD, Nat.testBit_eq_decide_div_mod_eq, decide_eq_true_eq]

/-- The second operand held in the instruction is a number from -16 to 15. -/
theorem imm5_eq (i : Instruction) :
    i.imm5 = BitVec.ofInt 16 ((i.word.toNat + 16) % 32 - 16) := by
  have hfield : (i.word.setWidth 5).toNat = i.word.toNat % 32 := BitVec.toNat_setWidth ..
  have hsigned : ∀ held : BitVec 5,
      held.signExtend 16 = BitVec.ofInt 16 ((held.toNat + 16) % 32 - 16) := by decide
  rw [imm5, signExtend, hsigned, hfield]
  congr 2
  omega

end Instruction

namespace Condition

/-- The condition is the sign of the value read as a signed number. -/
theorem ofWord_eq (value : Word) :
    ofWord value =
      if value.toInt < 0 then .negative else if value.toInt = 0 then .zero else .positive := by
  have hzero : value = 0 ↔ value.toInt = 0 := by
    rw [← BitVec.toInt_inj]
    exact Iff.rfl
  have hsign : value.msb = true ↔ value.toInt < 0 := by
    rw [BitVec.msb_eq_toInt, decide_eq_true_eq]
  rw [ofWord]
  simp only [hzero, hsign]
  by_cases h : value.toInt = 0 <;> simp [h]

/-- The bit of a condition in the word of a branch. -/
def bit : Condition → Nat
  | .negative => 2048
  | .zero => 1024
  | .positive => 512

/-- A branch is taken when the bit of the condition is set in its word. -/
theorem matchesMask_iff (condition : Condition) (i : Instruction) :
    condition.matchesMask i.condition = true ↔ i.word.toNat / condition.bit % 2 = 1 := by
  have hmask : i.condition.toNat = i.word.toNat / 512 % 8 := by
    rw [Instruction.condition, BitVec.extractLsb'_toNat, Nat.shiftRight_eq_div_pow]
  have hbits : ∀ mask : BitVec 3, condition.matchesMask mask = true ↔
      mask.toNat / (condition.bit / 512) % 2 = 1 := by
    cases condition <;> decide
  rw [hbits, hmask]
  cases condition <;> simp only [bit] <;> omega

end Condition

end PageMachine
