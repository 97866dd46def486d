import Mathlib.Logic.Relation
import PageMachine.Proofs.RunAlarm

/-!
# The life of a machine

An operator steps a machine, runs it and sets the limit on its instructions, in any order and on
whatever consoles are at hand. `Call` is one such call, and a life is a sequence of them from a new
machine on. That the program has halted itself is kept twice, by the program's own flag and by the
state of the run; every call keeps the two in step, since it is a sequence of steps at most and a
step settles them together.

A machine that has stopped stays as it is, but for its limit. Nothing is said of what a console is
asked, nor of whether a run comes to its end.
-/

namespace PageMachine

namespace Machine

/-- Two machines differ in nothing of what is kept about a run: its state, its limit and the count
of instructions. -/
structure SameRun (before after : Machine) : Prop where
  runState : after.runState = before.runState
  limit : after.limit = before.limit
  executed : after.executed = before.executed

/-- An action that leaves a machine as a property says, whenever it succeeds. -/
def Leaves {σ : Type} (action : Execution σ Machine) (good : Machine → Prop) : Prop :=
  ∀ {console done rest}, action.run console = (.ok done, rest) → good done

section Leaving

variable {σ α : Type} {good : Machine → Prop}

/-- An action that needs no console. -/
theorem leaves_pure {machine : Machine} (h : good machine) :
    Leaves (pure machine : Execution σ Machine) good := by
  rintro _ _ _ ⟨⟩
  exact h

/-- An action that fails. -/
theorem leaves_throw (alarm : Alarm) : Leaves (throw alarm : Execution σ Machine) good :=
  nofun

/-- An action that begins with a console call. -/
theorem leaves_call_bind {request : σ → Except ConsoleFault α × σ} {next : α → Execution σ Machine}
    (h : ∀ value, Leaves (next value) good) : Leaves (Execution.call request >>= next) good := by
  intro console done rest hrun
  rcases hcall : request console with ⟨fault | value, after⟩
  · rw [Execution.run_call_bind_of_error next hcall] at hrun
    cases hrun
  · rw [Execution.run_call_bind next hcall] at hrun
    exact h value hrun

variable [Console σ]

/-- A property of machines that no change takes away that an instruction makes. -/
structure Robust (P : Machine → Prop) : Prop where
  setRegister : ∀ {machine : Machine} (r : Register) (value : Word),
    P machine → P (machine.setRegister r value)
  goTo : ∀ {machine : Machine} (address : Word), P machine → P (machine.goTo address)
  keepReturn : ∀ {machine : Machine} (i : Instruction), P machine → P (machine.keepReturn i)
  storeWord : ∀ {machine : Machine} (address value : Word),
    P machine → P (machine.storeWord address value)
  halt : ∀ {machine : Machine},
    P machine → P { machine with state := { machine.state with executing := false } }
  draw : ∀ {machine : Machine},
    P machine → P { machine with generator := machine.generator.next }

/-- A service routine takes no such property away. -/
theorem Robust.serve (hrobust : Robust good) {machine : Machine} (h : good machine)
    (service : Trap) : Leaves (machine.serve service : Execution σ Machine) good := by
  cases service with
  | writeByte | writeText | writeNumber => exact leaves_call_bind fun _ => leaves_pure h
  | readByte =>
    exact leaves_call_bind fun _ => leaves_call_bind fun _ =>
      leaves_pure (hrobust.setRegister 0 _ h)
  | halt => exact leaves_pure (hrobust.halt h)
  | random => exact leaves_pure (hrobust.setRegister 0 _ (hrobust.draw h))
  | readNumber =>
    refine leaves_call_bind fun _ => leaves_call_bind fun line? => ?_
    cases line? with
    | none => exact leaves_pure (hrobust.setRegister 0 _ h)
    | some line =>
      cases hnumber : numberOnLine? line with
      | some value =>
        simp only [hnumber]
        exact leaves_pure (hrobust.setRegister 0 value h)
      | none =>
        simp only [hnumber]
        exact leaves_call_bind fun _ => leaves_pure (hrobust.setRegister 0 _ h)

/-- An instruction takes no such property away. -/
theorem Robust.execute (hrobust : Robust good) {machine : Machine} (h : good machine)
    (i : Instruction) (address : Word) :
    Leaves (machine.execute i address : Execution σ Machine) good := by
  unfold Machine.execute
  cases i.opcode with
  | add | and | not | load | loadIndirect | loadIndexed | loadAddress =>
    exact leaves_pure (hrobust.setRegister i.dst _ h)
  | store | storeIndirect => exact leaves_pure (hrobust.storeWord _ _ h)
  | ret => exact leaves_pure (hrobust.goTo _ h)
  | branch =>
    dsimp only
    split
    · exact leaves_pure (hrobust.goTo _ h)
    · exact leaves_pure h
  | jump | jumpIndexed => exact leaves_pure (hrobust.goTo _ (hrobust.keepReturn i h))
  | storeIndexed =>
    simp only [Machine.store]
    split
    · exact leaves_pure (hrobust.storeWord _ _ h)
    · exact leaves_throw _
  | trap =>
    simp only [Machine.trap]
    cases Trap.ofVector? i.trapVector with
    | some service => exact hrobust.serve h service
    | none => exact leaves_throw _
  | debug => exact leaves_call_bind fun _ => leaves_pure h

/-- No instruction changes what is kept about a run. -/
theorem robust_sameRun (machine : Machine) : Robust machine.SameRun where
  setRegister _ _ h := ⟨h.runState, h.limit, h.executed⟩
  goTo _ h := ⟨h.runState, h.limit, h.executed⟩
  keepReturn i h := by
    rw [keepReturn]
    split
    · exact ⟨h.runState, h.limit, h.executed⟩
    · exact h
  storeWord _ _ h := ⟨h.runState, h.limit, h.executed⟩
  halt h := ⟨h.runState, h.limit, h.executed⟩
  draw h := ⟨h.runState, h.limit, h.executed⟩

/-- An instruction is no business of the run: the step that has fetched it counts it. -/
theorem sameRun_execute (machine : Machine) (i : Instruction) (address : Word) :
    Leaves (machine.execute i address : Execution σ Machine) machine.SameRun :=
  machine.robust_sameRun.execute ⟨rfl, rfl, rfl⟩ i address

end Leaving

/-- One call of the operator, on any console. A run is given as far as it has come; where it is
over, further rounds change nothing. -/
inductive Call (machine : Machine) : Machine → Prop
  | step {σ : Type} [Console σ] (console : σ) : Call machine (machine.step console).2.1
  | run {σ : Type} [Console σ] (mode : RunMode) (rounds : Nat) (console : σ) :
      Call machine (machine.runFor mode rounds console).2.1
  | limit (limit : Option Nat) : Call machine (machine.withLimit limit)

open Relation (ReflTransGen)

/-- A run keeps what every step keeps, however far it comes: its rounds are steps at most. -/
theorem runFor_of_step {P : Machine → Prop} {σ : Type} [Console σ]
    (hstep : ∀ {machine : Machine} (console : σ), P machine → P (machine.step console).2.1)
    {machine : Machine} (h : P machine) (mode : RunMode) (rounds : Nat) (console : σ) :
    P (machine.runFor mode rounds console).2.1 := by
  induction rounds generalizing machine console with
  | zero => exact h
  | succ rounds ih =>
    have hround : P (machine.round mode console).2.1 := by
      rw [round]
      split
      · exact h
      · exact hstep _ h
    rw [runFor]
    split
    · split
      · next hstopped => rwa [hstopped] at hround
      · next hnext =>
        rw [hnext] at hround
        exact ih hround _
    · split <;> exact h

/-- A property of machines that neither a step nor a limit takes away. -/
structure Lasting (P : Machine → Prop) : Prop where
  step : ∀ {σ : Type} [Console σ] {machine : Machine} (console : σ),
    P machine → P (machine.step console).2.1
  withLimit : ∀ {machine : Machine} (limit : Option Nat), P machine → P (machine.withLimit limit)

/-- No calls take a property away that neither a step nor a limit does. -/
theorem Lasting.calls {P : Machine → Prop} (hlasting : Lasting P) {machine later : Machine}
    (hcalls : ReflTransGen Call machine later) (h : P machine) : P later := by
  induction hcalls with
  | refl => exact h
  | tail _ hcall ih =>
    cases hcall with
    | step console => exact hlasting.step console ih
    | run mode rounds console => exact runFor_of_step hlasting.step ih mode rounds console
    | limit limit => exact hlasting.withLimit limit ih

/-- The program's own flag says that it has halted itself exactly if the state of the run does. -/
def Coherent (machine : Machine) : Prop :=
  machine.state.executing = false ↔ machine.runState = .halted

/-- A new machine is coherent. -/
theorem coherent_initial (memory : Memory) (start : Word) (seed : BitVec 64) :
    (initial memory start seed).Coherent :=
  ⟨nofun, nofun⟩

/-- A running machine that is coherent is coherent when an alarm stops it. -/
theorem Coherent.fault {machine : Machine} (h : machine.Coherent)
    (hrunning : machine.runState = .running) : machine.fault.Coherent := by
  refine ⟨fun hhalted => ?_, nofun⟩
  rw [h.mp hhalted] at hrunning
  cases hrunning

/-- A machine that ran until its program halted itself is coherent once it is settled. -/
theorem coherent_settle {machine : Machine} (hrunning : machine.runState = .running) :
    machine.settle.Coherent := by
  rw [settle]
  split
  · next hexecuting =>
    refine iff_of_false (by simp [hexecuting]) ?_
    rw [hrunning]
    decide
  · next hexecuting => exact iff_of_true (by simpa using hexecuting) rfl

section Console

variable {σ : Type} [Console σ] {machine : Machine}

/-- A step keeps the machine coherent. -/
theorem Coherent.step (h : machine.Coherent) (console : σ) :
    (machine.step console).2.1.Coherent := by
  have hstepped := machine.stepped_step console
  generalize machine.step console = result at hstepped
  cases hstepped with
  | stays => exact h
  | limited _ hrunning => exact h.fault hrunning
  | done done _ hrunning _ hrun =>
    exact coherent_settle ((sameRun_execute _ _ _ hrun).runState.trans hrunning)
  | failed _ _ hrunning =>
    have hfetched : machine.fetched.Coherent := h
    exact hfetched.fault hrunning

/-- Settling a machine counts nothing. -/
theorem executed_settle (machine : Machine) : machine.settle.executed = machine.executed := by
  rw [settle]
  split <;> rfl

/-- A step of a running machine raises the alarm of the limit, or counts one instruction. -/
theorem executed_step (hrunning : machine.runState = .running) (console : σ) :
    (∃ limit, (machine.step console).1 = .error (.limitReached limit)) ∧
        (machine.step console).2.1.executed = machine.executed ∨
      (¬∃ limit, (machine.step console).1 = .error (.limitReached limit)) ∧
        (machine.step console).2.1.executed = machine.executed + 1 := by
  have hstepped := machine.stepped_step console
  generalize machine.step console = result at hstepped
  cases hstepped with
  | stays hstopped => exact absurd hrunning hstopped
  | limited limit => exact .inl ⟨⟨limit, rfl⟩, rfl⟩
  | done done _ _ _ hrun =>
    refine .inr ⟨?_, done.executed_settle.trans (sameRun_execute _ _ _ hrun).executed⟩
    rintro ⟨limit, ⟨⟩⟩
  | failed alarm _ _ _ hrun =>
    refine .inr ⟨?_, rfl⟩
    rintro ⟨limit, ⟨⟩⟩
    exact (InPlace.agrees_fetched machine).alarm hrun

end Console

/-- A call to a machine that has stopped sets its limit at most. -/
theorem Call.eq_withLimit {machine later : Machine} (hcall : machine.Call later)
    (h : machine.runState ≠ .running) : later = machine.withLimit later.limit := by
  cases hcall with
  | step console => rw [(unchanged_of_not_running h console).1, withLimit]
  | run mode rounds console => rw [(unchanged_of_not_running h console).2 mode rounds, withLimit]
  | limit limit => rfl

/-- The calls of an operator keep the machine coherent. -/
theorem Coherent.calls {machine later : Machine} (h : machine.Coherent)
    (hcalls : ReflTransGen Call machine later) : later.Coherent :=
  Lasting.calls ⟨fun console h => h.step console, fun _ h => h⟩ hcalls h

/-- The calls to a machine that has stopped set its limit at most. -/
theorem eq_withLimit_of_calls {machine later : Machine} (h : machine.runState ≠ .running)
    (hcalls : ReflTransGen Call machine later) : later = machine.withLimit later.limit := by
  induction hcalls with
  | refl => rfl
  | tail _ hcall ih =>
    rw [ih] at hcall
    exact hcall.eq_withLimit h

/-- Whatever calls there were to a new machine: its program has halted itself exactly if the run
has; a step of it, while it runs, raises the alarm of the limit or counts one instruction; and once
it has stopped, whatever calls follow leave it as it is, but for its limit. -/
theorem life_of_calls {memory : Memory} {start : Word} {seed : BitVec 64} {machine : Machine}
    (h : ReflTransGen Call (initial memory start seed) machine) :
    (machine.state.executing = false ↔ machine.runState = .halted) ∧
      (machine.runState = .running → ∀ {σ : Type} [Console σ] (console : σ),
        (∃ limit, (machine.step console).1 = .error (.limitReached limit)) ∧
            (machine.step console).2.1.executed = machine.executed ∨
          (¬∃ limit, (machine.step console).1 = .error (.limitReached limit)) ∧
            (machine.step console).2.1.executed = machine.executed + 1) ∧
      (machine.runState ≠ .running → ∀ {later}, ReflTransGen Call machine later →
        later = machine.withLimit later.limit) :=
  ⟨(coherent_initial memory start seed).calls h, fun hrunning _ _ => executed_step hrunning,
    fun hstopped _ => eq_withLimit_of_calls hstopped⟩

/-- A program that adds one to a register and halts. -/
def counting : Memory :=
  (Memory.empty.write 0 0x1021).write 1 0xF025

/-- The operator allows one instruction, steps, steps once more against the limit, lifts it and runs
the machine. Only the first instruction was counted, and nothing will be done any more. Without a
limit the program halts itself. -/
theorem life_of_calls_counting :
    (∃ machine, ReflTransGen Call (initial counting 0 1) machine ∧ machine.limit = none ∧
        machine.runState = .faulted ∧ machine.executed = 1 ∧ machine.state.executing = true ∧
        ∀ {later}, ReflTransGen Call machine later → later = machine.withLimit later.limit) ∧
      ∃ machine, ReflTransGen Call (initial counting 0 1) machine ∧
        machine.runState = .halted ∧ machine.executed = 2 ∧ machine.state.executing = false := by
  let console := BufferConsole.ofInput []
  have hlimited : ReflTransGen Call (initial counting 0 1) _ :=
    ((((ReflTransGen.refl.tail (.limit (some 1))).tail (.step console)).tail (.step console)).tail
      (.limit none)).tail (.run .trace 3 console)
  have hfree : ReflTransGen Call (initial counting 0 1) _ :=
    (ReflTransGen.refl.tail (.step console)).tail (.run .quiet 3 console)
  obtain ⟨hflag, -, hstays⟩ := life_of_calls hlimited
  refine ⟨⟨_, hlimited, by decide +kernel, by decide +kernel, by decide +kernel, ?_,
    hstays (by decide +kernel)⟩, _, hfree, by decide +kernel, by decide +kernel,
    (life_of_calls hfree).1.mpr (by decide +kernel)⟩
  rw [← Bool.not_eq_false, hflag]
  decide +kernel

end Machine

end PageMachine
