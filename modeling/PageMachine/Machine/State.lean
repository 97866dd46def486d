import PageMachine.Instruction

/-!
# Registers

What a program sees of the machine besides its memory: eight registers, the program counter, and
the condition, which is the sign of the value last written to a register. A register holds a
word, read as a signed number or as an address as the instruction requires.
-/

namespace PageMachine

/-- The sign of a value. -/
inductive Condition where
  | negative
  | zero
  | positive
  deriving DecidableEq, Repr

namespace Condition

/-- The sign of a word read as a signed number. -/
def ofWord (word : Word) : Condition :=
  if word = 0 then .zero else if word.msb then .negative else .positive

/-- The bit of a condition in the mask of a branch. -/
def mask : Condition → BitVec 3
  | .negative => 0b100
  | .zero => 0b010
  | .positive => 0b001

/-- Whether a branch with a mask is taken. -/
def matchesMask (condition : Condition) (mask : BitVec 3) : Bool :=
  mask &&& condition.mask != 0

end Condition

/-- The registers of the machine. -/
structure MachineState where
  /-- The general registers. -/
  registers : Vector Word 8
  /-- The sign of the value last written to one of them. -/
  condition : Condition
  /-- The address of the next instruction. -/
  pc : Word
  /-- Whether the program has not halted itself. -/
  executing : Bool
  deriving DecidableEq

namespace MachineState

/-- The state in which execution begins at an address. -/
def initial (pc : Word) : MachineState where
  registers := .replicate 8 0
  condition := .zero
  pc := pc
  executing := true

/-- The content of a register. -/
def register (state : MachineState) (r : Register) : Word :=
  state.registers[r]

/-- Write a register without regard to the condition. -/
def putRegister (state : MachineState) (r : Register) (value : Word) : MachineState :=
  { state with registers := state.registers.set r value }

/-- Write a register and take the condition from the value. -/
def setRegister (state : MachineState) (r : Register) (value : Word) : MachineState :=
  { state.putRegister r value with condition := .ofWord value }

/-- A flag as a digit. -/
def flagDigit (flag : Bool) : String :=
  if flag then "1" else "0"

/-- The line that shows a register. -/
def registerLine (state : MachineState) (r : Register) : String :=
  "Register " ++ toString r.val ++ " = 0x" ++
    String.ofList (Text.hex 4 (state.register r).toNat) ++ "\n"

/-- The text that shows the registers, the program counter and the condition. -/
def render (state : MachineState) : String :=
  "Program Counter = 0x" ++ String.ofList (Text.hex 4 state.pc.toNat) ++ "\n" ++
    String.join ((List.finRange 8).map state.registerLine) ++
    "CCR: N = " ++ flagDigit (state.condition == .negative) ++
    " Z = " ++ flagDigit (state.condition == .zero) ++
    " P = " ++ flagDigit (state.condition == .positive) ++ "\n"

end MachineState

end PageMachine
