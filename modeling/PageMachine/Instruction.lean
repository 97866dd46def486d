import PageMachine.Word
import PageMachine.Text.Digits

/-!
# Instructions

An instruction is one word. Its top four bits are the opcode, of which all sixteen values are
in use, so that every word decodes to an instruction. The other twelve bits hold register
numbers, a signed five-bit operand, a six-bit index, a page offset or a trap vector, as the
opcode requires; the accessors read each field whatever the opcode is.
-/

namespace PageMachine

/-- What an instruction does. -/
inductive Opcode where
  | branch
  | add
  | load
  | store
  | jump
  | and
  | loadIndexed
  | storeIndexed
  | debug
  | not
  | loadIndirect
  | storeIndirect
  | jumpIndexed
  | ret
  | loadAddress
  | trap
  deriving DecidableEq, Repr

namespace Opcode

/-- The opcodes in the order of their numbers. -/
def table : Vector Opcode 16 :=
  #v[.branch, .add, .load, .store, .jump, .and, .loadIndexed, .storeIndexed, .debug, .not,
    .loadIndirect, .storeIndirect, .jumpIndexed, .ret, .loadAddress, .trap]

/-- The opcode with a number. -/
def ofFin (n : Fin 16) : Opcode :=
  table[n]

/-- The number of an opcode. -/
def number : Opcode → Nat
  | .branch => 0
  | .add => 1
  | .load => 2
  | .store => 3
  | .jump => 4
  | .and => 5
  | .loadIndexed => 6
  | .storeIndexed => 7
  | .debug => 8
  | .not => 9
  | .loadIndirect => 10
  | .storeIndirect => 11
  | .jumpIndexed => 12
  | .ret => 13
  | .loadAddress => 14
  | .trap => 15

/-- The short name of an opcode, which several mnemonics may share. -/
def mnemonic : Opcode → String
  | .branch => "BR"
  | .add => "ADD"
  | .load => "LD"
  | .store => "ST"
  | .jump => "JSR"
  | .and => "AND"
  | .loadIndexed => "LDR"
  | .storeIndexed => "STR"
  | .debug => "DBUG"
  | .not => "NOT"
  | .loadIndirect => "LDI"
  | .storeIndirect => "STI"
  | .jumpIndexed => "JSRR"
  | .ret => "RET"
  | .loadAddress => "LEA"
  | .trap => "TRAP"

/-- The full name of an opcode, as it appears in a trace. -/
def name : Opcode → String
  | .branch => "Branch"
  | .add => "Add"
  | .load => "Load"
  | .store => "Store"
  | .jump => "Jump Subroutine Immediate"
  | .and => "And"
  | .loadIndexed => "Load Register"
  | .storeIndexed => "Store Register"
  | .debug => "Debug"
  | .not => "Not"
  | .loadIndirect => "Load Immediate"
  | .storeIndirect => "Store Immediate"
  | .jumpIndexed => "Jump Subroutine Register"
  | .ret => "Return"
  | .loadAddress => "Load Effective Address"
  | .trap => "Trap"

/-- The opcode with a number, if the number is one of an opcode. -/
def ofNumber? (n : Nat) : Option Opcode :=
  if h : n < 16 then some (ofFin ⟨n, h⟩) else none

/-- The complaint about a number that belongs to no opcode. -/
def invalidMessage (n : Nat) : String :=
  "invalid op code 0x" ++ String.ofList (Text.hex 1 n)

/-- An opcode is the one with its own number. -/
theorem ofNumber?_number (op : Opcode) : ofNumber? op.number = some op := by
  cases op <;> rfl

end Opcode

/-- The number of a general register. -/
abbrev Register := Fin 8

/-- A word seen as an instruction. -/
structure Instruction where
  /-- The encoded form. -/
  word : Word
  deriving DecidableEq

namespace Instruction

/-- Bits 15 to 12. -/
def opcodeNumber (i : Instruction) : BitVec 4 :=
  i.word.extractLsb' 12 4

/-- What the instruction does. -/
def opcode (i : Instruction) : Opcode :=
  Opcode.ofFin i.opcodeNumber.toFin

/-- The register that receives or supplies the value, in bits 11 to 9. -/
def dst (i : Instruction) : Register :=
  (i.word.extractLsb' 9 3).toFin

/-- The first source register, in bits 8 to 6. -/
def src1 (i : Instruction) : Register :=
  (i.word.extractLsb' 6 3).toFin

/-- The base register of an indexed address, which has the place of the first source. -/
def base (i : Instruction) : Register :=
  i.src1

/-- The second source register, in bits 2 to 0. -/
def src2 (i : Instruction) : Register :=
  (i.word.extractLsb' 0 3).toFin

/-- Whether the second operand is held in the instruction itself, by bit 5. -/
def immediateMode (i : Instruction) : Bool :=
  i.word.getLsbD 5

/-- The second operand held in bits 4 to 0, signed. -/
def imm5 (i : Instruction) : Word :=
  signExtend 5 i.word

/-- The conditions on which a branch is taken, in bits 11 to 9: negative, zero, positive. -/
def condition (i : Instruction) : BitVec 3 :=
  i.word.extractLsb' 9 3

/-- Whether a jump keeps the return address, by bit 11. -/
def link (i : Instruction) : Bool :=
  i.word.getLsbD 11

/-- The offset in the page, in bits 8 to 0. -/
def pageOffset (i : Instruction) : BitVec 9 :=
  i.word.extractLsb' 0 9

/-- The index added to a base register, in bits 5 to 0. -/
def index6 (i : Instruction) : BitVec 6 :=
  i.word.extractLsb' 0 6

/-- The number of a trap, in bits 7 to 0. -/
def trapVector (i : Instruction) : BitVec 8 :=
  i.word.extractLsb' 0 8

/-- The address that a page offset names when the program counter is `pc`. -/
def pageAddress (i : Instruction) (pc : Word) : Word :=
  pageReplace pc (i.pageOffset.setWidth 16)

/-- The instruction as text: its word in hexadecimal. -/
def render (i : Instruction) : String :=
  "Instruction(0x" ++ String.ofList (Text.hex 4 i.word.toNat) ++ ")"

end Instruction

end PageMachine
