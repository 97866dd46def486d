import PageMachine.Generator
import PageMachine.Machine.Alarm
import PageMachine.Machine.State
import PageMachine.Memory
import PageMachine.Text.Blank
import PageMachine.Text.Numeral

/-!
# The machine

The machine executes one instruction at a time. `execute` is what an instruction does once it has
been fetched: it gives the machine afterwards, or an alarm and no machine, so that an instruction
that fails has no effect. `step` adds what is common to all instructions: the limit on their
number, the program counter, which moves on before the instruction is executed, and the end.

Addresses are words and wrap around, except for the sum of a base register and an index: it can
lie beyond the end of memory, where reading gives zero and writing raises an alarm.
-/

namespace PageMachine

/-- Where the machine is in its life. -/
inductive RunState where
  /-- Instructions are executed. -/
  | running
  /-- The program has halted itself. -/
  | halted
  /-- An alarm has stopped the machine. -/
  | faulted
  deriving DecidableEq, Repr

/-- A machine with a program. -/
structure Machine where
  /-- The registers. -/
  state : MachineState
  /-- The memory. -/
  memory : Memory
  /-- The source of random words. -/
  generator : Generator
  /-- Where the machine is in its life. -/
  runState : RunState
  /-- The number of instructions allowed, if it is limited. -/
  limit : Option Nat
  /-- The number of instructions executed. -/
  executed : Nat

/-- What is done with a console in states `σ` and may raise an alarm. -/
abbrev Execution (σ : Type) := ExceptT Alarm (StateM σ)

namespace Execution

/-- A console call, whose fault raises an alarm. -/
def call {σ α : Type} (request : σ → Except ConsoleFault α × σ) : Execution σ α :=
  ExceptT.mk fun console =>
    match request console with
    | (.ok value, after) => (.ok value, after)
    | (.error fault, after) => (.error (.console fault), after)

/-- Write a text to the console. -/
def write {σ : Type} [Console σ] (text : String) : Execution σ Unit :=
  call (Console.writeBytes text.toUTF8)

end Execution

/-- The service routines. -/
inductive Trap where
  /-- Write the low byte of register 0. -/
  | writeByte
  /-- Write the text at the address in register 0. -/
  | writeText
  /-- Ask for a byte. -/
  | readByte
  /-- Halt. -/
  | halt
  /-- Write register 0 in decimal. -/
  | writeNumber
  /-- Ask for a decimal number. -/
  | readNumber
  /-- Draw a random word. -/
  | random
  deriving DecidableEq, Repr

/-- The service routine of a trap vector. -/
def Trap.ofVector? (vector : BitVec 8) : Option Trap :=
  if vector = 0x21 then some .writeByte
  else if vector = 0x22 then some .writeText
  else if vector = 0x23 then some .readByte
  else if vector = 0x25 then some .halt
  else if vector = 0x31 then some .writeNumber
  else if vector = 0x33 then some .readNumber
  else if vector = 0x43 then some .random
  else none

/-- The character that a word stands for. Half of a surrogate pair is no character. -/
def charOfWord (word : Word) : Char :=
  if word.toNat.isValidChar then Char.ofNat word.toNat else Text.replacement

/-- The characters from an address on, up to a zero word, at most `count` of them. -/
def Memory.textAt (memory : Memory) : (count address : Nat) → List Char
  | 0, _ => []
  | count + 1, address =>
      let word := memory.read (BitVec.ofNat 16 address)
      if word = 0 then [] else charOfWord word :: memory.textAt count (address + 1)

/-- The low sixteen bits of the number on a line, if there is a number. -/
def numberOnLine? (line : String) : Option Word :=
  match Text.readInt32 (Text.trim line.toList) with
  | .ok value => some (BitVec.ofInt 16 value)
  | .error _ => none

namespace Machine

/-- A machine that begins at an address, with a seed for its random words. -/
def initial (memory : Memory) (start : Word) (seed : BitVec 64) : Machine where
  state := .initial start
  memory := memory
  generator := .ofSeed seed
  runState := .running
  limit := none
  executed := 0

/-- The machine with another limit on the number of instructions. -/
def withLimit (machine : Machine) (limit : Option Nat) : Machine :=
  { machine with limit := limit }

/-- The register that keeps return addresses. -/
def linkRegister : Register := 7

/-- The content of a register. -/
def register (machine : Machine) (r : Register) : Word :=
  machine.state.register r

/-- Write a register and take the condition from the value. -/
def setRegister (machine : Machine) (r : Register) (value : Word) : Machine :=
  { machine with state := machine.state.setRegister r value }

/-- Go on at an address. -/
def goTo (machine : Machine) (address : Word) : Machine :=
  { machine with state := { machine.state with pc := address } }

/-- The word at an address that may lie beyond the end of memory. -/
def load (machine : Machine) (address : Nat) : Word :=
  if address < addressLimit then machine.memory.read (BitVec.ofNat 16 address) else 0

/-- Store a word at an address. -/
def storeWord (machine : Machine) (address value : Word) : Machine :=
  { machine with memory := machine.memory.write address value }

/-- Store a word at an address that may lie beyond the end of memory. -/
def store (machine : Machine) (address : Nat) (value : Word) : Except Alarm Machine :=
  if address < addressLimit then .ok (machine.storeWord (BitVec.ofNat 16 address) value)
  else .error (.writeOutOfRange address)

/-- The address named by a page offset. -/
def pageAddress (machine : Machine) (i : Instruction) : Word :=
  i.pageAddress machine.state.pc

/-- The sum of a base register and an index. -/
def indexedAddress (machine : Machine) (i : Instruction) : Nat :=
  (machine.register i.base).toNat + i.index6.toNat

/-- The second operand of an addition or a conjunction. -/
def secondOperand (machine : Machine) (i : Instruction) : Word :=
  if i.immediateMode then i.imm5 else machine.register i.src2

/-- Keep the return address if the instruction asks for it. The condition stays. -/
def keepReturn (machine : Machine) (i : Instruction) : Machine :=
  if i.link then
    { machine with state := machine.state.putRegister linkRegister machine.state.pc }
  else machine

/-- Carry out a service routine. -/
def serve {σ : Type} [Console σ] (machine : Machine) : Trap → Execution σ Machine
  | .writeByte => do
      Execution.call (Console.writeBytes ⟨#[UInt8.ofNat (machine.register 0).toNat]⟩)
      return machine
  | .writeText => do
      let start := (machine.register 0).toNat
      Execution.write (String.ofList (machine.memory.textAt (addressLimit - start) start))
      return machine
  | .readByte => do
      Execution.write "? "
      let byte? ← Execution.call Console.readByte
      return machine.setRegister 0 (BitVec.ofNat 16 (byte?.getD 0).toNat)
  | .halt => return { machine with state := { machine.state with executing := false } }
  | .writeNumber => do
      Execution.write (toString (machine.register 0).toInt)
      return machine
  | .readNumber => do
      Execution.write "d? "
      match ← Execution.call Console.readLine with
      | none => return machine.setRegister 0 0
      | some line =>
          match numberOnLine? line with
          | some value => return machine.setRegister 0 value
          | none => do
              Execution.write "Input by user was not a number.\n"
              return machine.setRegister 0 0
  | .random =>
      let generator := machine.generator.next
      return { machine with generator := generator }.setRegister 0 generator.word

/-- Carry out a trap of the instruction at an address. -/
def trap {σ : Type} [Console σ] (machine : Machine) (i : Instruction) (address : Word) :
    Execution σ Machine :=
  match Trap.ofVector? i.trapVector with
  | some service => machine.serve service
  | none => throw (.unknownTrap i.trapVector address)

/-- Carry out the instruction fetched from an address. The program counter has moved on. -/
def execute {σ : Type} [Console σ] (machine : Machine) (i : Instruction) (address : Word) :
    Execution σ Machine :=
  match i.opcode with
  | .add =>
      return machine.setRegister i.dst (machine.register i.src1 + machine.secondOperand i)
  | .and =>
      return machine.setRegister i.dst (machine.register i.src1 &&& machine.secondOperand i)
  | .not => return machine.setRegister i.dst (~~~machine.register i.src1)
  | .branch =>
      if machine.state.condition.matchesMask i.condition then
        return machine.goTo (machine.pageAddress i)
      else return machine
  | .jump => return (machine.keepReturn i).goTo (machine.pageAddress i)
  | .jumpIndexed =>
      return (machine.keepReturn i).goTo (machine.load (machine.indexedAddress i))
  | .ret => return machine.goTo (machine.register linkRegister)
  | .load => return machine.setRegister i.dst (machine.memory.read (machine.pageAddress i))
  | .loadIndirect =>
      return machine.setRegister i.dst
        (machine.memory.read (machine.memory.read (machine.pageAddress i)))
  | .loadIndexed => return machine.setRegister i.dst (machine.load (machine.indexedAddress i))
  | .loadAddress => return machine.setRegister i.dst (machine.pageAddress i)
  | .store => return machine.storeWord (machine.pageAddress i) (machine.register i.dst)
  | .storeIndirect =>
      return machine.storeWord (machine.memory.read (machine.pageAddress i))
        (machine.register i.dst)
  | .storeIndexed =>
      liftExcept (machine.store (machine.indexedAddress i) (machine.register i.dst))
  | .trap => machine.trap i address
  | .debug => do
      Execution.write machine.state.render
      return machine

/-- The instruction that comes next. -/
def instruction (machine : Machine) : Instruction :=
  ⟨machine.memory.read machine.state.pc⟩

/-- The machine with the next instruction counted and the program counter moved on. -/
def fetched (machine : Machine) : Machine :=
  { machine.goTo (machine.state.pc + 1) with executed := machine.executed + 1 }

/-- The machine stopped by an alarm. -/
def fault (machine : Machine) : Machine :=
  { machine with runState := .faulted }

/-- The machine after an instruction, stopped if the program has halted itself. -/
def settle (machine : Machine) : Machine :=
  if machine.state.executing then machine else { machine with runState := .halted }

/-- The limit, if as many instructions were executed. -/
def limitReached? (machine : Machine) : Option Nat :=
  machine.limit.filter (· ≤ machine.executed)

/-- Execute the next instruction, unless the machine has stopped. -/
def step {σ : Type} [Console σ] (machine : Machine) (console : σ) :
    Except Alarm RunState × Machine × σ :=
  if machine.runState ≠ .running then (.ok machine.runState, machine, console)
  else
    match machine.limitReached? with
    | some limit => (.error (.limitReached limit), machine.fault, console)
    | none =>
        match (machine.fetched.execute machine.instruction machine.state.pc).run console with
        | (.ok done, after) => (.ok done.settle.runState, done.settle, after)
        | (.error alarm, after) => (.error alarm, machine.fetched.fault, after)

end Machine

end PageMachine
