import Mathlib
import PageMachine.Console.Scripted
import PageMachine.Proofs.StepEffect

/-!
# A failed step

An instruction gives the machine afterwards or an alarm and no machine, so that nothing of a failed
instruction can be left. A machine that keeps its registers and its memory in place has no such
choice: it changes them one after the other, and what was changed before an alarm stays changed.
`InPlace` is this machine, with the same changes and console calls in the order in which they are
made. It does the same as the machine that is given as a whole, since no instruction can fail behind
its first change.

A step that fails therefore leaves no more than the next program counter, the count and the alarm,
and not even those two if the limit was reached. What the console was asked before it failed is not
taken back.
-/

namespace PageMachine

/-- The numerals below are numbers of registers. -/
local instance neZeroRegisters : NeZero 8 :=
  ⟨by decide⟩

/-- What is done with a machine that is changed in place and with a console, and may raise an alarm.
The changes made before the alarm stay. -/
abbrev InPlace (σ : Type) := ExceptT Alarm (StateM (Machine × σ))

namespace InPlace

variable {σ α : Type}

/-- The machine as it is by now. -/
def current : InPlace σ Machine :=
  ExceptT.mk fun both => (.ok both.1, both)

/-- Change the machine. -/
def change (f : Machine → Machine) : InPlace σ Unit :=
  ExceptT.mk fun both => (.ok (), f both.1, both.2)

/-- A console call, whose fault raises an alarm. -/
def call (request : σ → Except ConsoleFault α × σ) : InPlace σ α :=
  ExceptT.mk fun both =>
    match request both.2 with
    | (.ok value, after) => (.ok value, both.1, after)
    | (.error fault, after) => (.error (.console fault), both.1, after)

/-- Store a word at an address that may lie beyond the end of memory. -/
def store (address : Nat) (value : Word) : InPlace σ Unit :=
  if address < addressLimit then change (·.storeWord (BitVec.ofNat 16 address) value)
  else throw (.writeOutOfRange address)

/-- Stop the machine by an alarm and pass the alarm on. -/
def stop (alarm : Alarm) : InPlace σ α := do
  change Machine.fault
  throw alarm

variable [Console σ]

/-- Write a text to the console. -/
def write (text : String) : InPlace σ Unit :=
  call (Console.writeBytes text.toUTF8)

/-- The number for which the operator is asked, with a complaint if it is none. -/
def askNumber : InPlace σ Word := do
  write "d? "
  match ← call Console.readLine with
  | none => return 0
  | some line =>
      match numberOnLine? line with
      | some value => return value
      | none => do
          write "Input by user was not a number.\n"
          return 0

/-- Carry out a service routine. -/
def serve : Trap → InPlace σ Unit
  | .writeByte => do
      let machine ← current
      call (Console.writeBytes ⟨#[UInt8.ofNat (machine.register 0).toNat]⟩)
  | .writeText => do
      let machine ← current
      let start := (machine.register 0).toNat
      write (String.ofList (machine.memory.textAt (addressLimit - start) start))
  | .readByte => do
      write "? "
      let byte? ← call Console.readByte
      change (·.setRegister 0 (BitVec.ofNat 16 (byte?.getD 0).toNat))
  | .halt =>
      change fun machine => { machine with state := { machine.state with executing := false } }
  | .writeNumber => do
      let machine ← current
      write (toString (machine.register 0).toInt)
  | .readNumber => do
      let value ← askNumber
      change (·.setRegister 0 value)
  | .random => do
      change fun machine => { machine with generator := machine.generator.next }
      let machine ← current
      change (·.setRegister 0 machine.generator.word)

/-- Carry out the instruction fetched from an address. -/
def execute (i : Instruction) (address : Word) : InPlace σ Unit := do
  let machine ← current
  match i.opcode with
  | .add => change (·.setRegister i.dst (machine.register i.src1 + machine.secondOperand i))
  | .and => change (·.setRegister i.dst (machine.register i.src1 &&& machine.secondOperand i))
  | .not => change (·.setRegister i.dst (~~~machine.register i.src1))
  | .branch =>
      if machine.state.condition.matchesMask i.condition then
        change (·.goTo (machine.pageAddress i))
      else return ()
  | .jump => do
      change (·.keepReturn i)
      let linked ← current
      change (·.goTo (linked.pageAddress i))
  | .jumpIndexed => do
      -- The target is read before the return address is kept: register 7 may be the base.
      let target := machine.load (machine.indexedAddress i)
      change (·.keepReturn i)
      change (·.goTo target)
  | .ret => change (·.goTo (machine.register Machine.linkRegister))
  | .load => change (·.setRegister i.dst (machine.memory.read (machine.pageAddress i)))
  | .loadIndirect =>
      change (·.setRegister i.dst
        (machine.memory.read (machine.memory.read (machine.pageAddress i))))
  | .loadIndexed => change (·.setRegister i.dst (machine.load (machine.indexedAddress i)))
  | .loadAddress => change (·.setRegister i.dst (machine.pageAddress i))
  | .store => store (machine.pageAddress i).toNat (machine.register i.dst)
  | .storeIndirect =>
      store (machine.memory.read (machine.pageAddress i)).toNat (machine.register i.dst)
  | .storeIndexed => store (machine.indexedAddress i) (machine.register i.dst)
  | .trap =>
      match Trap.ofVector? i.trapVector with
      | some service => serve service
      | none => throw (.unknownTrap i.trapVector address)
  | .debug => write machine.state.render

/-- Execute the next instruction, unless the machine has stopped. -/
def step : InPlace σ RunState := do
  let machine ← current
  if machine.runState = .running then
    match machine.limitReached? with
    | some limit => stop (.limitReached limit)
    | none => do
        change (·.goTo (machine.state.pc + 1))
        change fun moved => { moved with executed := moved.executed + 1 }
        tryCatch (execute machine.instruction machine.state.pc) stop
        change Machine.settle
        let settled ← current
        return settled.runState
  else return machine.runState

end InPlace

/-- After a call that fails, nothing follows. -/
theorem Execution.run_call_bind_of_error {σ α β : Type} {request : σ → Except ConsoleFault α × σ}
    {console rest : σ} {fault : ConsoleFault} (next : α → Execution σ β)
    (hcall : request console = (.error fault, rest)) :
    (Execution.call request >>= next).run console = (.error (.console fault), rest) := by
  simp only [Execution.call, bind, ExceptT.bind, ExceptT.bindCont, ExceptT.run, ExceptT.mk,
    StateT.bind, hcall]
  rfl

/-- Whether an alarm is raised by an instruction, and not by the limit on their number. -/
def Alarm.OfInstruction : Alarm → Prop
  | .limitReached _ => False
  | .unknownTrap .. | .writeOutOfRange _ | .console _ => True

namespace InPlace

variable {σ α : Type} {machine : Machine}

/-- The machine given as a whole takes the place of the one before. If there is none, that one
stays. -/
def replace (machine : Machine) : Except Alarm Machine × σ → Except Alarm Unit × Machine × σ
  | (.ok done, after) => (.ok (), done, after)
  | (.error alarm, after) => (.error alarm, machine, after)

/-- What is done in place leaves the machine that is given as a whole, and has changed nothing when
it raises an alarm. It is part of an instruction, so that the limit on instructions and the end of
the run are none of its business. -/
structure Agrees (program : InPlace σ Unit) (machine : Machine) (whole : Execution σ Machine) :
    Prop where
  run : ∀ console, program.run (machine, console) = replace machine (whole.run console)
  alarm : ∀ {console alarm after}, whole.run console = (.error alarm, after) → alarm.OfInstruction
  runState : ∀ {console done after}, whole.run console = (.ok done, after) →
    done.runState = machine.runState

/-- One change. -/
theorem agrees_change (f : Machine → Machine) (h : (f machine).runState = machine.runState) :
    Agrees (change f : InPlace σ Unit) machine (pure (f machine)) where
  run _ := rfl
  alarm := nofun
  runState := by
    rintro _ _ _ ⟨⟩
    exact h

/-- Nothing. -/
theorem agrees_pure : Agrees (pure () : InPlace σ Unit) machine (pure machine) where
  run _ := rfl
  alarm := nofun
  runState := by
    rintro _ _ _ ⟨⟩
    rfl

/-- A change before others. What follows may not fail, or the change would stay. -/
theorem agrees_change_bind {f : Machine → Machine} {next : Unit → InPlace σ Unit} {done : Machine}
    (hf : (f machine).runState = machine.runState)
    (h : Agrees (next ()) (f machine) (pure done)) :
    Agrees (change f >>= next) machine (pure done) where
  run := h.run
  alarm := nofun
  runState hdone := (h.runState hdone).trans hf

/-- A look at the machine. -/
theorem agrees_current_bind {next : Machine → InPlace σ Unit} {whole : Execution σ Machine}
    (h : Agrees (next machine) machine whole) : Agrees (current >>= next) machine whole where
  run := h.run
  alarm := h.alarm
  runState := h.runState

/-- An alarm. -/
theorem agrees_throw {alarm : Alarm} (h : alarm.OfInstruction) :
    Agrees (throw alarm : InPlace σ Unit) machine (throw alarm) where
  run _ := rfl
  alarm := by
    rintro _ _ _ ⟨⟩
    exact h
  runState := nofun

/-- A console call before anything else. It leaves the machine alone, whether it fails or not. -/
theorem agrees_call_bind {request : σ → Except ConsoleFault α × σ} {next : α → InPlace σ Unit}
    {whole : α → Execution σ Machine} (h : ∀ value, Agrees (next value) machine (whole value)) :
    Agrees (call request >>= next) machine (Execution.call request >>= whole) where
  run console := by
    rcases hcall : request console with ⟨fault | value, after⟩
    · rw [Execution.run_call_bind_of_error whole hcall]
      simp only [call, bind, ExceptT.bind, ExceptT.bindCont, ExceptT.run, ExceptT.mk, StateT.bind,
        hcall, replace]
      rfl
    · rw [Execution.run_call_bind whole hcall, ← (h value).run after]
      simp only [call, bind, ExceptT.bind, ExceptT.bindCont, ExceptT.run, ExceptT.mk, StateT.bind,
        hcall]
  alarm {console alarm last} halarm := by
    rcases hcall : request console with ⟨fault | value, after⟩
    · rw [Execution.run_call_bind_of_error whole hcall] at halarm
      cases halarm
      trivial
    · rw [Execution.run_call_bind whole hcall] at halarm
      exact (h value).alarm halarm
  runState {console done last} hdone := by
    rcases hcall : request console with ⟨fault | value, after⟩
    · rw [Execution.run_call_bind_of_error whole hcall] at hdone
      cases hdone
    · rw [Execution.run_call_bind whole hcall] at hdone
      exact (h value).runState hdone

/-- A console call and nothing else. -/
theorem agrees_call {request : σ → Except ConsoleFault Unit × σ} :
    Agrees (call request) machine (Execution.call request >>= fun _ => pure machine) := by
  rw [← bind_pure (call request)]
  exact agrees_call_bind fun _ => agrees_pure

/-- A store. -/
theorem agrees_store (address : Nat) (value : Word) :
    Agrees (store address value : InPlace σ Unit) machine
      (liftExcept (machine.store address value)) := by
  rw [store, Machine.store]
  split
  · exact agrees_change _ rfl
  · exact agrees_throw trivial

/-- A store at a word. -/
theorem agrees_storeWord (address value : Word) :
    Agrees (store address.toNat value : InPlace σ Unit) machine
      (pure (machine.storeWord address value)) := by
  have hlt : address.toNat < addressLimit := address.isLt
  rw [store, if_pos hlt, BitVec.ofNat_toNat, BitVec.setWidth_eq]
  exact agrees_change (·.storeWord address value) rfl

/-- Either nothing stops the machine and what follows is done, or an alarm stops it where it is. -/
theorem run_tryCatch_stop_bind {program : InPlace σ Unit} {whole : Execution σ Machine}
    (h : Agrees program machine whole) (next : Unit → InPlace σ α) (console : σ) :
    (tryCatch program stop >>= next).run (machine, console) =
      match whole.run console with
      | (.ok done, after) => (next ()).run (done, after)
      | (.error alarm, after) => (.error alarm, machine.fault, after) := by
  have hrun : program (machine, console) = replace machine (whole console) := h.run console
  simp only [tryCatch, tryCatchThe, MonadExceptOf.tryCatch, ExceptT.tryCatch, bind, ExceptT.bind,
    ExceptT.bindCont, ExceptT.run, ExceptT.mk, StateT.bind, hrun]
  rcases whole console with ⟨alarm | done, after⟩ <;> rfl

variable [Console σ]

/-- A service routine. -/
theorem agrees_serve (service : Trap) :
    Agrees (serve service : InPlace σ Unit) machine (machine.serve service) := by
  cases service with
  | writeByte | writeText | writeNumber => exact agrees_current_bind agrees_call
  | readByte => exact agrees_call_bind fun _ => agrees_call_bind fun _ => agrees_change _ rfl
  | halt =>
    exact agrees_change
      (fun machine => { machine with state := { machine.state with executing := false } }) rfl
  | readNumber =>
    -- Three calls at most, and the register is written behind the last of them.
    simp only [serve, askNumber, bind_assoc]
    refine agrees_call_bind fun _ => agrees_call_bind fun line? => ?_
    cases line? with
    | none =>
      simp only [pure_bind]
      exact agrees_change (·.setRegister 0 0) rfl
    | some line =>
      cases hnumber : numberOnLine? line with
      | some value =>
        simp only [hnumber, pure_bind]
        exact agrees_change (·.setRegister 0 value) rfl
      | none =>
        simp only [hnumber, bind_assoc, pure_bind]
        exact agrees_call_bind fun _ => agrees_change (·.setRegister 0 0) rfl
  | random => exact agrees_change_bind rfl (agrees_current_bind (agrees_change _ rfl))

/-- An instruction. -/
theorem agrees_execute (i : Instruction) (address : Word) :
    Agrees (execute i address : InPlace σ Unit) machine (machine.execute i address) := by
  have hkeep : (machine.keepReturn i).runState = machine.runState := by
    rw [Machine.keepReturn]
    split <;> rfl
  refine agrees_current_bind ?_
  unfold Machine.execute
  cases i.opcode with
  | add | and | not | ret | load | loadIndirect | loadIndexed | loadAddress =>
    exact agrees_change _ rfl
  | branch =>
    dsimp only
    split
    · exact agrees_change _ rfl
    · exact agrees_pure
  | jump =>
    -- The page is looked up behind the return address, which is no part of it.
    have hpage : (machine.keepReturn i).pageAddress i = machine.pageAddress i := by
      rw [Machine.keepReturn]
      split <;> rfl
    refine agrees_change_bind hkeep (agrees_current_bind ?_)
    rw [hpage]
    exact agrees_change _ rfl
  | jumpIndexed => exact agrees_change_bind hkeep (agrees_change _ rfl)
  | store => exact agrees_storeWord _ _
  | storeIndirect => exact agrees_storeWord _ _
  | storeIndexed => exact agrees_store _ _
  | trap =>
    simp only [Machine.trap]
    cases Trap.ofVector? i.trapVector with
    | some service => exact agrees_serve service
    | none => exact agrees_throw trivial
  | debug => exact agrees_call

/-- The instruction that comes next, once it has been fetched. -/
theorem agrees_fetched (machine : Machine) :
    Agrees (execute machine.instruction machine.state.pc : InPlace σ Unit) machine.fetched
      (machine.fetched.execute machine.instruction machine.state.pc) :=
  agrees_execute machine.instruction machine.state.pc

/-- A step in place is a step. -/
theorem run_step (machine : Machine) (console : σ) :
    (step : InPlace σ RunState).run (machine, console) = machine.step console := by
  have hlook (next : Machine → InPlace σ RunState) :
      (current >>= next).run (machine, console) = (next machine).run (machine, console) := rfl
  rw [step, hlook, Machine.step, ite_not]
  split
  · cases machine.limitReached? with
    | some limit => rfl
    | none => exact run_tryCatch_stop_bind (agrees_fetched machine) _ console
  · rfl

end InPlace

namespace Machine

variable {σ : Type} [Console σ] {machine stopped : Machine} {console rest : σ} {alarm : Alarm}

/-- Two machines differ in nothing but the program counter, the count of instructions and whether
they run. -/
structure Keeps (before after : Machine) : Prop where
  register : ∀ r, after.register r = before.register r
  condition : after.state.condition = before.state.condition
  executing : after.state.executing = before.state.executing
  memory : after.memory = before.memory
  generator : after.generator = before.generator
  limit : after.limit = before.limit

/-- Stopping keeps all that an instruction could have changed. -/
theorem keeps_fault (machine : Machine) : machine.Keeps machine.fault :=
  ⟨fun _ => rfl, rfl, rfl, rfl, rfl, rfl⟩

/-- Stopping behind an instruction that was fetched keeps all that it could have changed. -/
theorem keeps_fault_fetched (machine : Machine) : machine.Keeps machine.fetched.fault :=
  ⟨fun _ => rfl, rfl, rfl, rfl, rfl, rfl⟩

/-- What a step can come to. -/
inductive Stepped (machine : Machine) (console : σ) : Except Alarm RunState × Machine × σ → Prop
  /-- The machine does not run. -/
  | stays (hstate : machine.runState ≠ .running) :
      Stepped machine console (.ok machine.runState, machine, console)
  /-- The limit was reached. -/
  | limited (limit : Nat) (hstate : machine.runState = .running)
      (hlimit : machine.limitReached? = some limit) :
      Stepped machine console (.error (.limitReached limit), machine.fault, console)
  /-- The instruction was carried out. -/
  | done (done : Machine) (rest : σ) (hstate : machine.runState = .running)
      (hlimit : machine.limitReached? = none)
      (hrun : (machine.fetched.execute machine.instruction machine.state.pc).run console =
        (.ok done, rest)) :
      Stepped machine console (.ok done.settle.runState, done.settle, rest)
  /-- The instruction raised an alarm. -/
  | failed (alarm : Alarm) (rest : σ) (hstate : machine.runState = .running)
      (hlimit : machine.limitReached? = none)
      (hrun : (machine.fetched.execute machine.instruction machine.state.pc).run console =
        (.error alarm, rest)) :
      Stepped machine console (.error alarm, machine.fetched.fault, rest)

/-- Every step comes to one of these. -/
theorem stepped_step (machine : Machine) (console : σ) :
    machine.Stepped console (machine.step console) := by
  rw [step]
  split
  · next hstate => exact .stays hstate
  · next hstate =>
    rw [Decidable.not_not] at hstate
    split
    · next limit hlimit => exact .limited limit hstate hlimit
    · next hlimit =>
      split
      · next done rest hrun => exact .done done rest hstate hlimit hrun
      · next alarm rest hrun => exact .failed alarm rest hstate hlimit hrun

/-- An alarm of a step is that of the limit, before anything is fetched, or that of the instruction
that was fetched. -/
theorem stopped_of_step_error (h : machine.step console = (.error alarm, stopped, rest)) :
    (∃ limit, alarm = .limitReached limit ∧ stopped = machine.fault ∧ rest = console) ∨
      alarm.OfInstruction ∧ stopped = machine.fetched.fault := by
  have hstepped := machine.stepped_step console
  rw [h] at hstepped
  cases hstepped with
  | limited limit => exact .inl ⟨limit, rfl, rfl, rfl⟩
  | failed _ _ _ _ hrun => exact .inr ⟨(InPlace.agrees_fetched machine).alarm hrun, rfl⟩

/-- A step that fails is one that fails in place, too. It stops the machine, counts its instruction
and moves the program counter behind it, and changes nothing else; if the limit was reached, it only
stops the machine and asks nothing of the console. -/
theorem keeps_of_step_error (h : machine.step console = (.error alarm, stopped, rest)) :
    (InPlace.step : InPlace σ RunState).run (machine, console) = (.error alarm, stopped, rest) ∧
      machine.Keeps stopped ∧ stopped.runState = .faulted ∧
      ((∃ limit, alarm = .limitReached limit) →
        stopped.state.pc = machine.state.pc ∧ stopped.executed = machine.executed ∧
          rest = console) ∧
      ((¬∃ limit, alarm = .limitReached limit) →
        stopped.state.pc.toNat = (machine.state.pc.toNat + 1) % 65536 ∧
          stopped.executed = machine.executed + 1) := by
  refine ⟨(InPlace.run_step machine console).trans h, ?_⟩
  obtain ⟨limit, rfl, rfl, rfl⟩ | ⟨halarm, rfl⟩ := stopped_of_step_error h
  · exact ⟨machine.keeps_fault, rfl, fun _ => ⟨rfl, rfl, rfl⟩, fun hnot => (hnot ⟨limit, rfl⟩).elim⟩
  · refine ⟨machine.keeps_fault_fetched, rfl, ?_, fun _ => ⟨machine.toNat_pc_fetched, rfl⟩⟩
    rintro ⟨limit, rfl⟩
    exact halarm.elim

/-- A machine at the last address that asks for a number. -/
def asking : Machine :=
  (initial .empty 0xFFFF 1).storeWord 0xFFFF 0xF033 |>.setRegister 0 0x8000

/-- A console on which the prompt can be written but not the complaint about the operator's line. -/
def complaining : ScriptedConsole where
  buffer := .ofInput "q\n".toUTF8.toList
  readsLeft := none
  writesLeft := some 1
  merged := true
  fault := ⟨"closed"⟩

/-- The operator is asked, answers, and is to be told that this is no number. Register 0 and the
condition are as before. -/
theorem keeps_asking :
    ∃ stopped rest, asking.step complaining = (.error (.console ⟨"closed"⟩), stopped, rest) ∧
      asking.Keeps stopped ∧ stopped.runState = .faulted ∧ stopped.state.pc.toNat = 0 ∧
      stopped.executed = 1 ∧ stopped.register 0 = 0x8000 ∧ rest.buffer.input = [] ∧
      rest.buffer.output = "d? ".toUTF8 := by
  have halarm : (asking.step complaining).1 = .error (.console ⟨"closed"⟩) := by cbv
  have hstep : asking.step complaining = (.error (.console ⟨"closed"⟩), _, _) :=
    Prod.ext halarm rfl
  obtain ⟨-, hkeeps, hfaulted, -, hmoved⟩ := keeps_of_step_error hstep
  obtain ⟨hpc, hexecuted⟩ := hmoved (by rintro ⟨limit, ⟨⟩⟩)
  exact ⟨_, _, hstep, hkeeps, hfaulted, hpc, hexecuted,
    (hkeeps.register 0).trans (by decide +kernel), by decide +kernel, by decide +kernel⟩

end Machine

end PageMachine
