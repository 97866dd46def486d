import Mathlib.Logic.Basic
import PageMachine.Machine
import PageMachine.Proofs.InstructionFields

/-!
# What an instruction does

The effect of an instruction is told by the number of its word: which one thing it changes, and
where the machine goes on. Everything else stays, which is the other half of the statement. The only
instructions that fail are a store beyond the end of memory and a trap without a service routine,
unless the console fails; a console that does not is one whose calls succeed however often they are
made. The limit on the number of instructions and a machine that has stopped are left aside, and so
is what is written on the console.
-/

namespace PageMachine

namespace Console

variable {σ : Type} [Console σ]

/-- A property of consoles under which every call succeeds, and which every call keeps. -/
structure Closed (good : σ → Prop) : Prop where
  /-- Reading a byte. -/
  readByte : ∀ console, good console →
    ∃ byte? after, Console.readByte console = (.ok byte?, after) ∧ good after
  /-- Reading a line. -/
  readLine : ∀ console, good console →
    ∃ line? after, Console.readLine console = (.ok line?, after) ∧ good after
  /-- Writing bytes. -/
  writeBytes : ∀ bytes console, good console →
    ∃ after, Console.writeBytes bytes console = (.ok (), after) ∧ good after
  /-- Writing text of a trace. -/
  writeTrace : ∀ text console, good console →
    ∃ after, Console.writeTrace text console = (.ok (), after) ∧ good after

/-- A console whose calls succeed, now and after any calls. -/
def Reliable (console : σ) : Prop :=
  ∃ good, Closed good ∧ good console

/-- A byte can be read from a reliable console. -/
theorem Reliable.readByte {console : σ} (h : Reliable console) :
    ∃ byte? after, Console.readByte console = (.ok byte?, after) ∧ Reliable after := by
  obtain ⟨good, hclosed, hgood⟩ := h
  obtain ⟨byte?, after, hcall, hafter⟩ := hclosed.readByte console hgood
  exact ⟨byte?, after, hcall, good, hclosed, hafter⟩

/-- A line can be read from a reliable console. -/
theorem Reliable.readLine {console : σ} (h : Reliable console) :
    ∃ line? after, Console.readLine console = (.ok line?, after) ∧ Reliable after := by
  obtain ⟨good, hclosed, hgood⟩ := h
  obtain ⟨line?, after, hcall, hafter⟩ := hclosed.readLine console hgood
  exact ⟨line?, after, hcall, good, hclosed, hafter⟩

/-- Bytes can be written to a reliable console. -/
theorem Reliable.writeBytes {console : σ} (h : Reliable console) (bytes : ByteArray) :
    ∃ after, Console.writeBytes bytes console = (.ok (), after) ∧ Reliable after := by
  obtain ⟨good, hclosed, hgood⟩ := h
  obtain ⟨after, hcall, hafter⟩ := hclosed.writeBytes bytes console hgood
  exact ⟨after, hcall, good, hclosed, hafter⟩

/-- A buffer is reliable. -/
theorem reliable_buffer (console : BufferConsole) : Reliable console :=
  ⟨fun _ => True,
    { readByte := fun _ _ => ⟨_, _, rfl, trivial⟩
      readLine := fun _ _ => ⟨_, _, rfl, trivial⟩
      writeBytes := fun _ _ _ => ⟨_, rfl, trivial⟩
      writeTrace := fun _ _ _ => ⟨_, rfl, trivial⟩ }, trivial⟩

/-- The byte with which the operator answers the prompt for one, or zero at the end of the input. -/
def byteAnswer (console : σ) : Word :=
  match (Console.readByte (Console.writeBytes "? ".toUTF8 console).2).1 with
  | .ok (some byte) => BitVec.ofNat 16 byte.toNat
  | _ => 0

/-- The number with which the operator answers the prompt for one, or zero if the line is no number
or the input is at its end. -/
def numberAnswer (console : σ) : Word :=
  match (Console.readLine (Console.writeBytes "d? ".toUTF8 console).2).1 with
  | .ok (some line) => (numberOnLine? line).getD 0
  | _ => 0

end Console

/-- After a call that succeeds, what follows it runs with its result. -/
theorem Execution.run_call_bind {σ α β : Type} {request : σ → Except ConsoleFault α × σ}
    {console rest : σ} {value : α} (next : α → Execution σ β)
    (hcall : request console = (.ok value, rest)) :
    (Execution.call request >>= next).run console = (next value).run rest := by
  simp only [Execution.call, bind, ExceptT.bind, ExceptT.bindCont, ExceptT.run, ExceptT.mk,
    StateT.bind, hcall]

namespace Trap

/-- The vector of a service routine. -/
def vector : Trap → Nat
  | .writeByte => 0x21
  | .writeText => 0x22
  | .readByte => 0x23
  | .halt => 0x25
  | .writeNumber => 0x31
  | .readNumber => 0x33
  | .random => 0x43

/-- A vector has no service routine but the one with that vector. -/
theorem ofVector?_eq_some_iff (number : BitVec 8) (service : Trap) :
    ofVector? number = some service ↔ number.toNat = service.vector := by
  revert number
  cases service <;> decide +kernel

/-- The vectors that have a service routine. -/
theorem ofVector?_eq_none_iff (number : BitVec 8) :
    ofVector? number = none ↔ number.toNat ∉ [0x21, 0x22, 0x23, 0x25, 0x31, 0x33, 0x43] := by
  decide +kernel +revert

end Trap

/-- What an instruction changes besides the program counter. -/
inductive Change where
  /-- Nothing. -/
  | nothing
  /-- A register receives a result, whose sign becomes the condition. -/
  | result (r : Register) (value : Word)
  /-- The link register receives the return address. -/
  | link (value : Word)
  /-- A word of memory is replaced. -/
  | stored (address : Nat) (value : Word)
  /-- The program halts itself. -/
  | halt

namespace Change

/-- The content of a register after a change. -/
def register (change : Change) (before : Machine) (r : Register) : Word :=
  match change with
  | .result written value => if r = written then value else before.register r
  | .link value => if r = Machine.linkRegister then value else before.register r
  | .nothing | .stored .. | .halt => before.register r

/-- The condition after a change. -/
def condition (change : Change) (before : Machine) : Condition :=
  match change with
  | .result _ value =>
      if value.toInt < 0 then .negative else if value.toInt = 0 then .zero else .positive
  | .nothing | .link _ | .stored .. | .halt => before.state.condition

/-- The word at an address after a change, if it was written. -/
def word? (change : Change) (before : Machine) (address : Word) : Option Word :=
  match change with
  | .stored written value =>
      if address.toNat = written then some value else before.memory.get? address
  | .nothing | .result .. | .link _ | .halt => before.memory.get? address

/-- Whether the program has not halted itself after a change. -/
def executing (change : Change) (before : Machine) : Bool :=
  match change with
  | .halt => false
  | .nothing | .result .. | .link _ | .stored .. => before.state.executing

end Change

/-- What an instruction does. -/
structure Effect where
  /-- What it changes. -/
  change : Change
  /-- The address of the next instruction. -/
  next : Nat
  /-- Whether it draws a random word. -/
  draws : Bool := false

/-- A machine is as an effect leaves it, and in every other respect as it was before. -/
structure Effect.Turns (effect : Effect) (before after : Machine) : Prop where
  pc : after.state.pc.toNat = effect.next
  register : ∀ r, after.register r = effect.change.register before r
  condition : after.state.condition = effect.change.condition before
  executing : after.state.executing = effect.change.executing before
  word? : ∀ address, after.memory.get? address = effect.change.word? before address
  generator : after.generator = if effect.draws then before.generator.next else before.generator
  limit : after.limit = before.limit
  executed : after.executed = before.executed + 1

namespace Machine

variable (machine : Machine)

/-- The number of the word at the program counter. -/
def wordNumber : Nat :=
  (machine.memory.read machine.state.pc).toNat

/-- The address of the following instruction. -/
def following : Nat :=
  (machine.state.pc.toNat + 1) % 65536

/-- The address that the page offset of the instruction names. -/
def pageTarget : Nat :=
  512 * (machine.following / 512) + machine.wordNumber % 512

/-- The base register of the instruction and its index added as numbers. -/
def indexedTarget : Nat :=
  (machine.register (Instruction.registerOf (machine.wordNumber / 64))).toNat + machine.wordNumber % 64

/-- The word at an address, which is zero beyond the end of memory. -/
def wordAt (address : Nat) : Word :=
  if address ≤ 65535 then machine.memory.read (BitVec.ofNat 16 address) else 0

/-- The second operand of the instruction: a number from -16 to 15, or a register. -/
def operand : Word :=
  if machine.wordNumber / 32 % 2 = 1 then BitVec.ofInt 16 ((machine.wordNumber + 16) % 32 - 16)
  else machine.register (Instruction.registerOf machine.wordNumber)

/-- The return address is kept if bit 11 of the instruction is set. -/
def linked : Change :=
  if machine.wordNumber / 2048 % 2 = 1 then .link (BitVec.ofNat 16 machine.following)
  else .nothing

/-- What the trap with a vector does. -/
def trapEffect {σ : Type} [Console σ] (console : σ) (vector : Nat) : Effect :=
  let p := machine.following
  let answered := Instruction.registerOf 0
  match vector with
  | 0x23 => { change := .result answered (Console.byteAnswer console), next := p }
  | 0x25 => { change := .halt, next := p }
  | 0x33 => { change := .result answered (Console.numberAnswer console), next := p }
  | 0x43 => { change := .result answered machine.generator.next.word, next := p, draws := true }
  | _ => { change := .nothing, next := p }

/-- What an instruction with the number of an opcode does, whose other fields are those of the word
at the program counter. -/
def opcodeEffect {σ : Type} [Console σ] (console : σ) (opcode : Nat) : Effect :=
  let w := machine.wordNumber
  let p := machine.following
  let t := machine.pageTarget
  let i := machine.indexedTarget
  let target := Instruction.registerOf (w / 512)
  let source := machine.register (Instruction.registerOf (w / 64))
  match opcode with
  | 0 => { change := .nothing, next := if w / machine.state.condition.bit % 2 = 1 then t else p }
  | 1 => { change := .result target (source + machine.operand), next := p }
  | 2 => { change := .result target (machine.wordAt t), next := p }
  | 3 => { change := .stored t (machine.register target), next := p }
  | 4 => { change := machine.linked, next := t }
  | 5 => { change := .result target (source &&& machine.operand), next := p }
  | 6 => { change := .result target (machine.wordAt i), next := p }
  | 7 => { change := .stored i (machine.register target), next := p }
  | 9 => { change := .result target (~~~source), next := p }
  | 10 => { change := .result target (machine.wordAt (machine.wordAt t).toNat), next := p }
  | 11 => { change := .stored (machine.wordAt t).toNat (machine.register target), next := p }
  | 12 => { change := machine.linked, next := (machine.wordAt i).toNat }
  | 13 => { change := .nothing, next := (machine.register linkRegister).toNat }
  | 14 => { change := .result target (BitVec.ofNat 16 t), next := p }
  | 15 => machine.trapEffect console (w % 256)
  -- What is left shows the registers and changes nothing.
  | _ => { change := .nothing, next := p }

/-- What the instruction at the program counter does. -/
def effect {σ : Type} [Console σ] (console : σ) : Effect :=
  machine.opcodeEffect console (machine.wordNumber / 4096)

/-- Whether the instruction at the program counter is a store beyond the end of memory or a trap
without a service routine. -/
def Alarms : Prop :=
  machine.wordNumber / 4096 = 7 ∧ 65535 < machine.indexedTarget ∨
    machine.wordNumber / 4096 = 15 ∧
      machine.wordNumber % 256 ∉ [0x21, 0x22, 0x23, 0x25, 0x31, 0x33, 0x43]

instance : Decidable machine.Alarms :=
  inferInstanceAs (Decidable (_ ∧ _ ∨ _ ∧ _))

/-! ## The machine that has fetched its instruction -/

/-- The program counter moves on and wraps around. -/
theorem toNat_pc_fetched : machine.fetched.state.pc.toNat = machine.following := by
  change (machine.state.pc + 1).toNat = _
  rw [BitVec.toNat_add]
  rfl

/-- The page of an address is that of the following instruction. -/
theorem toNat_pageAddress_fetched :
    (machine.fetched.pageAddress machine.instruction).toNat = machine.pageTarget := by
  rw [pageAddress, instruction, toNat_pageAddress, toNat_pc_fetched, pageTarget, Nat.mul_comm]
  rfl

/-- An indexed address. -/
theorem indexedAddress_fetched :
    machine.fetched.indexedAddress machine.instruction = machine.indexedTarget := by
  rw [indexedAddress, Instruction.base, Instruction.src1_eq, Instruction.toNat_index6]
  rfl

/-- The second operand. -/
theorem secondOperand_fetched :
    machine.fetched.secondOperand machine.instruction = machine.operand := by
  rw [secondOperand, Instruction.imm5_eq, Instruction.src2_eq, operand]
  exact if_congr machine.instruction.immediateMode_iff rfl rfl

/-- Reading at an address beyond the end of memory gives zero. -/
theorem load_fetched (address : Nat) : machine.fetched.load address = machine.wordAt address :=
  if_congr Nat.lt_succ_iff rfl rfl

/-- Reading at an address in memory. -/
theorem read_fetched (address : Word) :
    machine.fetched.memory.read address = machine.wordAt address.toNat := by
  rw [wordAt, if_pos (Nat.le_of_lt_succ address.isLt), BitVec.ofNat_toNat, BitVec.setWidth_eq]
  rfl

/-- The content of a register after another was written. -/
theorem register_setRegister (r other : Register) (value : Word) :
    (machine.setRegister r value).register other =
      if other = r then value else machine.register other := by
  simp only [register, setRegister, MachineState.setRegister, MachineState.putRegister,
    MachineState.register, Fin.getElem_fin, Vector.getElem_set, Fin.val_inj, eq_comm (a := other)]

/-! ## What each instruction leaves behind -/

/-- An instruction that changes nothing. -/
theorem turns_fetched :
    Effect.Turns { change := .nothing, next := machine.following } machine machine.fetched where
  pc := machine.toNat_pc_fetched
  register _ := rfl
  condition := rfl
  executing := rfl
  word? _ := rfl
  generator := rfl
  limit := rfl
  executed := rfl

/-- An instruction with a result. -/
theorem turns_setRegister (r : Register) (value : Word) :
    Effect.Turns { change := .result r value, next := machine.following } machine
      (machine.fetched.setRegister r value) :=
  { machine.turns_fetched with
    register := fun other => machine.fetched.register_setRegister r other value
    condition := Condition.ofWord_eq value }

/-- An instruction with a jump. -/
theorem turns_goTo {address : Word} {next : Nat} (h : address.toNat = next) :
    Effect.Turns { change := .nothing, next := next } machine (machine.fetched.goTo address) :=
  { machine.turns_fetched with pc := h }

/-- A jump that may keep the return address. -/
theorem turns_keepReturn {address : Word} {next : Nat} (hnext : address.toNat = next) :
    Effect.Turns { change := machine.linked, next := next } machine
      ((machine.fetched.keepReturn machine.instruction).goTo address) := by
  have hlink : machine.instruction.link = true ↔ machine.wordNumber / 2048 % 2 = 1 :=
    machine.instruction.link_iff
  rw [linked, keepReturn]
  by_cases h : machine.wordNumber / 2048 % 2 = 1
  · rw [if_pos h, if_pos (hlink.mpr h), ← toNat_pc_fetched, BitVec.ofNat_toNat, BitVec.setWidth_eq]
    exact
      { machine.turns_goTo hnext with
        register := fun other =>
          machine.fetched.register_setRegister linkRegister other machine.fetched.state.pc }
  · rw [if_neg h, if_neg (mt hlink.mp h)]
    exact machine.turns_goTo hnext

/-- Keeping the return address does not end the run. -/
theorem runState_keepReturn {address : Word} :
    ((machine.fetched.keepReturn machine.instruction).goTo address).runState =
      machine.runState := by
  rw [keepReturn]
  split <;> rfl

/-- An instruction that stores a word. -/
theorem turns_storeWord {address : Word} {place : Nat} (h : address.toNat = place) (value : Word) :
    Effect.Turns { change := .stored place value, next := machine.following } machine
      (machine.fetched.storeWord address value) := by
  subst h
  exact
    { machine.turns_fetched with
      word? := fun other =>
        (machine.memory.get?_write address value other).trans
          (if_congr BitVec.toNat_inj.symm rfl rfl) }

/-- The instruction that halts. -/
theorem turns_halt :
    Effect.Turns { change := .halt, next := machine.following } machine
      { machine.fetched with state := { machine.fetched.state with executing := false } } :=
  { machine.turns_fetched with executing := rfl }

/-- The instruction that draws a random word. -/
theorem turns_random :
    Effect.Turns
      { change := .result 0 machine.generator.next.word, next := machine.following, draws := true }
      machine
      ({ machine.fetched with generator := machine.generator.next }.setRegister 0
        machine.generator.next.word) :=
  { machine.turns_setRegister 0 machine.generator.next.word with generator := rfl }

variable {machine}

/-- Settling keeps all that an effect is about. -/
theorem turns_settle {effect : Effect} {after : Machine} (h : effect.Turns machine after) :
    effect.Turns machine after.settle := by
  rw [settle]
  split
  · exact h
  · exact { h with }

variable {σ : Type} [Console σ] {console : σ}

/-- An action that succeeds, leaves the machine as an effect says and the console reliable. It does
not end the run; that is for the step to do. -/
def Performs (machine : Machine) (effect : Effect) (action : Execution σ Machine) (console : σ) :
    Prop :=
  ∃ after rest, action.run console = (.ok after, rest) ∧ effect.Turns machine after ∧
    after.runState = machine.runState ∧ Console.Reliable rest

/-- An action that needs no console. -/
theorem performs_pure {effect : Effect} {after : Machine} (h : effect.Turns machine after)
    (hstate : after.runState = machine.runState) (hconsole : Console.Reliable console) :
    machine.Performs effect (pure after) console :=
  ⟨after, console, rfl, h, hstate, hconsole⟩

/-- An action that begins with a console call. -/
theorem performs_call {α : Type} {effect : Effect} {request : σ → Except ConsoleFault α × σ}
    {value : α} {rest : σ} {next : α → Execution σ Machine}
    (hcall : request console = (.ok value, rest)) (h : machine.Performs effect (next value) rest) :
    machine.Performs effect (Execution.call request >>= next) console := by
  obtain ⟨after, last, hrun, hrest⟩ := h
  exact ⟨after, last, (Execution.run_call_bind next hcall).trans hrun, hrest⟩

/-- An action that begins with writing a text. -/
theorem performs_write {effect : Effect} {text : String} {next : Unit → Execution σ Machine}
    (hconsole : Console.Reliable console)
    (h : ∀ rest, Console.writeBytes text.toUTF8 console = (.ok (), rest) → Console.Reliable rest →
      machine.Performs effect (next ()) rest) :
    machine.Performs effect (Execution.write text >>= next) console := by
  obtain ⟨rest, hcall, hrest⟩ := hconsole.writeBytes text.toUTF8
  exact performs_call hcall (h rest hcall hrest)

/-- Carrying out a service routine. -/
theorem performs_serve (hconsole : Console.Reliable console) (service : Trap) :
    machine.Performs (machine.trapEffect console service.vector) (machine.fetched.serve service)
      console := by
  cases service with
  | writeByte =>
    obtain ⟨rest, hcall, hrest⟩ :=
      hconsole.writeBytes ⟨#[UInt8.ofNat (machine.register 0).toNat]⟩
    exact performs_call hcall (performs_pure machine.turns_fetched rfl hrest)
  | writeText =>
    exact performs_write hconsole fun _ _ hrest => performs_pure machine.turns_fetched rfl hrest
  | readByte =>
    refine performs_write hconsole fun asked hasked hreliable => ?_
    obtain ⟨byte?, rest, hcall, hrest⟩ := hreliable.readByte
    have hanswer : Console.byteAnswer console = BitVec.ofNat 16 (byte?.getD 0).toNat := by
      rw [Console.byteAnswer, hasked, hcall]
      cases byte? <;> rfl
    refine performs_call hcall (performs_pure ?_ rfl hrest)
    rw [← hanswer]
    exact machine.turns_setRegister 0 _
  | halt => exact performs_pure machine.turns_halt rfl hconsole
  | writeNumber =>
    exact performs_write hconsole fun _ _ hrest => performs_pure machine.turns_fetched rfl hrest
  | readNumber =>
    refine performs_write hconsole fun asked hasked hreliable => ?_
    obtain ⟨line?, rest, hcall, hrest⟩ := hreliable.readLine
    have hanswer : Console.numberAnswer console = (line?.bind numberOnLine?).getD 0 := by
      rw [Console.numberAnswer, hasked, hcall]
      cases line? <;> rfl
    have hturns : ∀ value, (line?.bind numberOnLine?).getD 0 = value →
        (machine.trapEffect console Trap.readNumber.vector).Turns machine
          (machine.fetched.setRegister 0 value) := by
      rintro _ rfl
      rw [← hanswer]
      exact machine.turns_setRegister 0 _
    refine performs_call hcall ?_
    cases line? with
    | none => exact performs_pure (hturns 0 rfl) rfl hrest
    | some line =>
      rw [Option.bind_some] at hturns
      cases hnumber : numberOnLine? line with
      | some value =>
        simp only [hnumber]
        exact performs_pure (hturns value (congrArg (Option.getD · 0) hnumber)) rfl hrest
      | none =>
        simp only [hnumber]
        exact performs_write hrest fun _ _ hlast =>
          performs_pure (hturns 0 (congrArg (Option.getD · 0) hnumber)) rfl hlast
  | random => exact performs_pure machine.turns_random rfl hconsole

/-- A trap with the vector of a service routine carries it out. -/
theorem execute_eq_serve (machine : Machine) {i : Instruction} (service : Trap)
    (hopcode : i.word.toNat / 4096 = 15) (hvector : i.word.toNat % 256 = service.vector)
    (address : Word) :
    (machine.execute i address : Execution σ Machine) = machine.serve service := by
  have htrap : i.opcode = .trap := Opcode.number_injective (i.number_opcode.trans hopcode)
  have hservice : Trap.ofVector? i.trapVector = some service :=
    (Trap.ofVector?_eq_some_iff _ _).mpr (i.toNat_trapVector.trans hvector)
  rw [execute, htrap]
  dsimp only
  rw [trap, hservice]

/-- Carrying out a trap with a service routine. -/
theorem performs_trap (hconsole : Console.Reliable console)
    (h : machine.wordNumber % 256 ∈ [0x21, 0x22, 0x23, 0x25, 0x31, 0x33, 0x43]) :
    machine.Performs (machine.trapEffect console (machine.wordNumber % 256))
      (machine.fetched.trap machine.instruction machine.state.pc) console := by
  have hvector : machine.instruction.trapVector.toNat = machine.wordNumber % 256 :=
    machine.instruction.toNat_trapVector
  rw [← hvector] at h ⊢
  rw [trap]
  cases hservice : Trap.ofVector? machine.instruction.trapVector with
  | none => exact absurd h ((Trap.ofVector?_eq_none_iff _).mp hservice)
  | some service =>
    rw [(Trap.ofVector?_eq_some_iff _ _).mp hservice]
    exact performs_serve hconsole service

/-- Carrying out an indexed store in memory. -/
theorem performs_store (hconsole : Console.Reliable console) {place : Nat} (h : place ≤ 65535)
    (value : Word) :
    machine.Performs { change := .stored place value, next := machine.following }
      (liftExcept (machine.fetched.store place value)) console := by
  have hlt : place < addressLimit := Nat.lt_succ_of_le h
  have hplace : (BitVec.ofNat 16 place).toNat = place := by
    rw [BitVec.toNat_ofNat]
    exact Nat.mod_eq_of_lt hlt
  rw [store, if_pos hlt]
  exact performs_pure (machine.turns_storeWord hplace value) rfl hconsole

/-- Carrying out an instruction that raises no alarm. -/
theorem performs_execute (hconsole : Console.Reliable console) (h : ¬machine.Alarms) :
    machine.Performs (machine.effect console)
      (machine.fetched.execute machine.instruction machine.state.pc) console := by
  have hnumber : machine.wordNumber / 4096 = machine.instruction.opcode.number :=
    machine.instruction.number_opcode.symm
  have htarget := machine.toNat_pageAddress_fetched
  rw [effect, hnumber]
  unfold execute
  simp only [machine.instruction.dst_eq, machine.instruction.src1_eq, machine.secondOperand_fetched,
    machine.indexedAddress_fetched, machine.load_fetched, machine.read_fetched, htarget]
  cases hop : machine.instruction.opcode with
  | add | and | not | load | loadIndirect | loadIndexed =>
    exact performs_pure (machine.turns_setRegister _ _) rfl hconsole
  | loadAddress =>
    have haddress : machine.fetched.pageAddress machine.instruction =
        BitVec.ofNat 16 machine.pageTarget := by
      rw [← htarget, BitVec.ofNat_toNat, BitVec.setWidth_eq]
    simp only [haddress]
    exact performs_pure (machine.turns_setRegister _ _) rfl hconsole
  | store => exact performs_pure (machine.turns_storeWord htarget _) rfl hconsole
  | storeIndirect => exact performs_pure (machine.turns_storeWord rfl _) rfl hconsole
  | storeIndexed =>
    rw [hop] at hnumber
    exact performs_store hconsole (Nat.le_of_not_lt fun hlt => h (.inl ⟨hnumber, hlt⟩)) _
  | branch =>
    have htaken : machine.state.condition.matchesMask machine.instruction.condition = true ↔
        machine.wordNumber / machine.state.condition.bit % 2 = 1 :=
      machine.state.condition.matchesMask_iff machine.instruction
    change machine.Performs
      { change := .nothing
        next :=
          if machine.wordNumber / machine.state.condition.bit % 2 = 1 then machine.pageTarget
          else machine.following }
      (if machine.state.condition.matchesMask machine.instruction.condition then
        pure (machine.fetched.goTo (machine.fetched.pageAddress machine.instruction))
      else pure machine.fetched) console
    simp only [htaken]
    split
    · exact performs_pure (machine.turns_goTo htarget) rfl hconsole
    · exact performs_pure machine.turns_fetched rfl hconsole
  | jump =>
    exact performs_pure (machine.turns_keepReturn htarget) machine.runState_keepReturn hconsole
  | jumpIndexed =>
    exact performs_pure (machine.turns_keepReturn rfl) machine.runState_keepReturn hconsole
  | ret => exact performs_pure (machine.turns_goTo rfl) rfl hconsole
  | trap =>
    rw [hop] at hnumber
    exact performs_trap hconsole (Decidable.of_not_not fun hnone => h (.inr ⟨hnumber, hnone⟩))
  | debug =>
    exact performs_write hconsole fun _ _ hrest => performs_pure machine.turns_fetched rfl hrest

/-- Carrying out an instruction that raises an alarm. -/
theorem exists_alarm_of_execute (console : σ) (h : machine.Alarms) :
    ∃ alarm, (machine.fetched.execute machine.instruction machine.state.pc).run console =
      (.error alarm, console) := by
  have hnumber : machine.wordNumber / 4096 = machine.instruction.opcode.number :=
    machine.instruction.number_opcode.symm
  have hindexed := machine.indexedAddress_fetched
  rcases h with ⟨hopcode, hbeyond⟩ | ⟨hopcode, hvector⟩
  · have hop : machine.instruction.opcode = .storeIndexed :=
      Opcode.number_injective (hnumber.symm.trans hopcode)
    have hstore : ¬machine.indexedTarget < addressLimit := Nat.not_lt_of_ge hbeyond
    refine ⟨.writeOutOfRange machine.indexedTarget, ?_⟩
    simp only [execute, hop, hindexed, store, if_neg hstore]
    rfl
  · have hop : machine.instruction.opcode = .trap :=
      Opcode.number_injective (hnumber.symm.trans hopcode)
    have hnone : Trap.ofVector? machine.instruction.trapVector = none := by
      rw [Trap.ofVector?_eq_none_iff, Instruction.toNat_trapVector]
      exact hvector
    refine ⟨.unknownTrap machine.instruction.trapVector machine.state.pc, ?_⟩
    simp only [execute, hop, trap, hnone]
    rfl

/-- Below the limit nothing is reached. -/
theorem limitReached?_eq_none (hlimit : ∀ limit ∈ machine.limit, machine.executed < limit) :
    machine.limitReached? = none := by
  rw [limitReached?, Option.filter_eq_none_iff]
  intro limit hmem hreached
  exact Nat.not_le_of_lt (hlimit limit hmem) (of_decide_eq_true hreached)

/-- A running machine below its limit settles once its instruction is carried out. -/
theorem step_of_run_ok (hrunning : machine.runState = .running)
    (hlimit : ∀ limit ∈ machine.limit, machine.executed < limit) {done : Machine} {rest : σ}
    (hrun : (machine.fetched.execute machine.instruction machine.state.pc).run console =
      (.ok done, rest)) :
    machine.step console = (.ok done.settle.runState, done.settle, rest) := by
  rw [step, if_neg (not_not_intro hrunning)]
  simp only [limitReached?_eq_none hlimit, hrun]

/-- A running machine below its limit is stopped by the alarm of its instruction. -/
theorem step_of_run_error (hrunning : machine.runState = .running)
    (hlimit : ∀ limit ∈ machine.limit, machine.executed < limit) {alarm : Alarm} {rest : σ}
    (hrun : (machine.fetched.execute machine.instruction machine.state.pc).run console =
      (.error alarm, rest)) :
    machine.step console = (.error alarm, machine.fetched.fault, rest) := by
  rw [step, if_neg (not_not_intro hrunning)]
  simp only [limitReached?_eq_none hlimit, hrun]

/-- A running machine below its limit whose instruction raises no alarm. -/
theorem step_of_not_alarms (hrunning : machine.runState = .running)
    (hlimit : ∀ limit ∈ machine.limit, machine.executed < limit)
    (hconsole : Console.Reliable console) (h : ¬machine.Alarms) :
    ∃ after rest, machine.step console = (.ok after.runState, after, rest) ∧
      (machine.effect console).Turns machine after ∧
      after.runState = (if after.state.executing then .running else .halted) ∧
      Console.Reliable rest := by
  obtain ⟨done, rest, hrun, hturns, hstate, hrest⟩ := performs_execute hconsole h
  refine ⟨done.settle, rest, step_of_run_ok hrunning hlimit hrun, turns_settle hturns, ?_, hrest⟩
  rw [settle]
  by_cases hexecuting : done.state.executing = true
  · rw [if_pos hexecuting, if_pos hexecuting, hstate, hrunning]
  · rw [if_neg hexecuting, if_neg hexecuting]

/-- A running machine below its limit raises an alarm exactly when its instruction is a store beyond
the end of memory or a trap without a service routine. Otherwise it does what the instruction does
and nothing else. -/
theorem turns_step (hrunning : machine.runState = .running)
    (hlimit : ∀ limit ∈ machine.limit, machine.executed < limit)
    (hconsole : Console.Reliable console) :
    ((∃ alarm, (machine.step console).1 = .error alarm) ↔ machine.Alarms) ∧
      (¬machine.Alarms → ∃ after rest,
        machine.step console = (.ok after.runState, after, rest) ∧
          (machine.effect console).Turns machine after ∧
          after.runState = (if after.state.executing then .running else .halted) ∧
          Console.Reliable rest) := by
  refine ⟨⟨fun halarm => ?_, fun h => ?_⟩, step_of_not_alarms hrunning hlimit hconsole⟩
  · refine Decidable.of_not_not fun h => ?_
    obtain ⟨alarm, halarm⟩ := halarm
    obtain ⟨after, rest, hstep, -⟩ := step_of_not_alarms hrunning hlimit hconsole h
    rw [hstep] at halarm
    cases halarm
  · obtain ⟨alarm, hrun⟩ := exists_alarm_of_execute console h
    exact ⟨alarm, congrArg Prod.fst (step_of_run_error hrunning hlimit hrun)⟩

/-- A machine at the last address, where it is to jump through register 7 and to keep the return
address in it. -/
def jumping : Machine :=
  (((initial .empty 0xFFFF 1).storeWord 0xFFFF 0xC9C1).storeWord 0x4001 0x5000).setRegister
    linkRegister 0x4000 |>.withLimit (some 1)

/-- The jump at the last address leads to where register 7 pointed, and the return address wraps
around. -/
theorem turns_step_jumping :
    ∃ after rest, jumping.step (BufferConsole.ofInput []) = (.ok .running, after, rest) ∧
      after.state.pc.toNat = 0x5000 ∧ after.register 7 = 0 ∧ after.register 6 = 0 := by
  have hrunning : jumping.runState = .running := rfl
  have hlimit : ∀ limit ∈ jumping.limit, jumping.executed < limit := by
    rintro limit ⟨⟩
    decide
  obtain ⟨after, rest, hstep, hturns, hstate, -⟩ :=
    (turns_step hrunning hlimit (Console.reliable_buffer (.ofInput []))).2 (by decide +kernel)
  have hexecuting : after.state.executing = true := hturns.executing.trans (by decide +kernel)
  rw [if_pos hexecuting] at hstate
  exact ⟨after, rest, hstate ▸ hstep, hturns.pc.trans (by decide +kernel),
    (hturns.register 7).trans (by decide +kernel), (hturns.register 6).trans (by decide +kernel)⟩

end Machine

end PageMachine
