import Mathlib.Logic.Basic
import PageMachine.Machine.Run
import PageMachine.Proofs.FailedStep

/-!
# What an alarm leaves of a run

An instruction that raises an alarm stops the machine for good: no later step and no later run
executes anything. A run asks more of the console than its instructions do, since it shows the
machine and waits for the operator between them. An alarm of that kind is returned like any other,
but it leaves the machine as it was, and a machine that was running can be run on.

Every end of a run by an alarm is of one kind or the other, and the first kind is the only one in
quiet mode. Nothing is said of runs that go on for ever.
-/

namespace PageMachine

namespace Machine

/-- The machine is stopped, and no step and no run will ever change it again. -/
def StoppedForGood (machine : Machine) : Prop :=
  machine.runState = .faulted ∧
    ∀ {σ : Type} [Console σ] (console : σ), (machine.step console).2.1 = machine ∧
      ∀ mode rounds, (machine.runFor mode rounds console).2.1 = machine

/-- A machine that does not run is left alone by a step and by a run. -/
theorem unchanged_of_not_running {σ : Type} [Console σ] {machine : Machine}
    (h : machine.runState ≠ .running) (console : σ) :
    (machine.step console).2.1 = machine ∧
      ∀ mode rounds, (machine.runFor mode rounds console).2.1 = machine := by
  refine ⟨?_, fun mode rounds => ?_⟩
  · rw [step, if_pos h]
  · cases rounds with
    | zero => rfl
    | succ rounds =>
      rw [runFor, if_neg h]
      split <;> rfl

/-- Stopped by an alarm is stopped for good. -/
theorem stoppedForGood_iff (machine : Machine) :
    machine.StoppedForGood ↔ machine.runState = .faulted := by
  refine ⟨And.left, fun h => ⟨h, fun console => unchanged_of_not_running ?_ console⟩⟩
  rw [h]
  decide

variable {σ : Type} [Console σ] {machine stopped next : Machine} {console after rest : σ}
  {mode : RunMode} {alarm : Alarm} {state : RunState}

/-- A step that succeeds is no step into the faulted state. -/
theorem not_faulted_of_step_ok (hstart : machine.runState ≠ .faulted)
    (h : machine.step console = (.ok state, next, after)) : next.runState ≠ .faulted := by
  have hstepped := machine.stepped_step console
  rw [h] at hstepped
  cases hstepped with
  | stays => exact hstart
  | done done _ _ _ hrun =>
    have hdone : done.runState = machine.runState :=
      (InPlace.agrees_fetched machine).runState hrun
    rw [settle]
    split
    · rwa [hdone]
    · exact RunState.noConfusion

/-- A machine and its console some rounds of a run further on, with no alarm in between. -/
inductive Reaches (mode : RunMode) : Machine → σ → Machine → σ → Prop where
  | here (machine : Machine) (console : σ) : Reaches mode machine console machine console
  | round {machine next last : Machine} {console after rest : σ} {state : RunState} :
      machine.runState = .running →
      machine.round mode console = (.ok state, next, after) →
      Reaches mode next after last rest → Reaches mode machine console last rest

/-- The console fails when the machine is shown, or when the operator is to let it go on. -/
def DisplayFails (mode : RunMode) (machine : Machine) (console : σ) (alarm : Alarm) (rest : σ) :
    Prop :=
  if machine.runState = .running then (machine.announce mode).run console = (.error alarm, rest)
  else (machine.conclude mode).run console = (.error alarm, rest)

/-- A round is a step behind an announcement. -/
theorem round_eq_ok (h : machine.round mode console = (.ok state, next, after)) :
    ∃ shown, machine.step shown = (.ok state, next, after) := by
  rw [round] at h
  split at h
  · cases h
  · exact ⟨_, h⟩

/-- An alarm in a round is raised by the announcement, which leaves the machine as it is, or by the
step. -/
theorem round_eq_error (h : machine.round mode console = (.error alarm, stopped, rest)) :
    (stopped = machine ∧ (machine.announce mode).run console = (.error alarm, rest)) ∨
      ∃ shown, machine.step shown = (.error alarm, stopped, rest) := by
  rw [round] at h
  split at h
  · next hannounce =>
    cases h
    exact .inl ⟨rfl, hannounce⟩
  · exact .inr ⟨_, h⟩

/-- The rounds of a run do not lead into the faulted state. -/
theorem Reaches.not_faulted (h : Reaches mode machine console stopped after)
    (hstart : machine.runState ≠ .faulted) : stopped.runState ≠ .faulted := by
  induction h with
  | here => exact hstart
  | round _ hround _ ih =>
    obtain ⟨shown, hstep⟩ := round_eq_ok hround
    exact ih (not_faulted_of_step_ok hstart hstep)

/-- A run that ends with an alarm has come some rounds far. There the console failed in showing the
machine, or a step raised the alarm. -/
theorem exists_reaches_of_alarm {rounds : Nat}
    (h : machine.runFor mode rounds console = (some (.error alarm), stopped, rest)) :
    (∃ before, Reaches mode machine console stopped before ∧
        stopped.DisplayFails mode before alarm rest) ∨
      machine.runState = .running ∧ stopped.runState = .faulted := by
  induction rounds generalizing machine console with
  | zero => cases h
  | succ rounds ih =>
    rw [runFor] at h
    split at h
    · next hrunning =>
      split at h
      · next hround =>
        cases h
        -- An alarm of this round is its own; one of a later round is found by the induction.
        obtain ⟨rfl, hannounce⟩ | ⟨shown, hstep⟩ := round_eq_error hround
        · refine .inl ⟨console, .here _ _, ?_⟩
          rwa [DisplayFails, if_pos hrunning]
        · refine .inr ⟨hrunning, ?_⟩
          obtain ⟨_, -, rfl, -⟩ | ⟨-, rfl⟩ := stopped_of_step_error hstep <;> rfl
      · next hround =>
        obtain ⟨before, hreaches, hfails⟩ | ⟨-, hfaulted⟩ := ih h
        · exact .inl ⟨before, .round hrunning hround hreaches, hfails⟩
        · exact .inr ⟨hrunning, hfaulted⟩
    · next hrunning =>
      split at h
      · next hconclude =>
        cases h
        refine .inl ⟨console, .here _ _, ?_⟩
        rwa [DisplayFails, if_neg hrunning]
      · cases h

/-- Where the rounds of a run have come, the run goes on. -/
theorem Reaches.exists_runFor (h : Reaches mode machine console stopped after) (rounds : Nat) :
    ∃ more, machine.runFor mode more console = stopped.runFor mode rounds after := by
  induction h with
  | here => exact ⟨rounds, rfl⟩
  | round hrunning hround _ ih =>
    obtain ⟨more, hmore⟩ := ih
    refine ⟨more + 1, ?_⟩
    rw [runFor, if_pos hrunning, hround]
    exact hmore

/-- If the console fails in showing the machine, then the run ends there. -/
theorem DisplayFails.runFor_eq (h : machine.DisplayFails mode console alarm rest) :
    machine.runFor mode 1 console = (some (.error alarm), machine, rest) := by
  rw [DisplayFails] at h
  rw [runFor]
  split at h
  · next hrunning => rw [if_pos hrunning, round, h]
  · next hrunning => rw [if_neg hrunning, h]

/-- Showing the machine asks nothing of the console in quiet mode. -/
theorem not_displayFails_quiet : ¬machine.DisplayFails .quiet console alarm rest := by
  intro h
  rw [DisplayFails] at h
  split at h <;> cases h

/-- In quiet mode every alarm stops the machine for good. -/
theorem stoppedForGood_of_quiet {rounds : Nat}
    (h : machine.runFor .quiet rounds console = (some (.error alarm), stopped, rest)) :
    stopped.StoppedForGood := by
  obtain ⟨before, -, hfails⟩ | ⟨-, hfaulted⟩ := exists_reaches_of_alarm h
  · exact absurd hfails not_displayFails_quiet
  · exact stopped.stoppedForGood_iff.mpr hfaulted

/-- An alarm of a step stops the machine for good. An alarm of a run does so, too, unless the
machine had not been stopped before and the alarm is that of a console which failed in showing it,
some rounds further on: then it is left as it was shown. Wherever the console fails so, the run ends
with this alarm. -/
theorem stoppedForGood_of_alarm (machine : Machine) (mode : RunMode) (console : σ) :
    (∀ {alarm stopped rest}, machine.step console = (.error alarm, stopped, rest) →
        stopped.StoppedForGood) ∧
      (∀ {rounds alarm stopped rest},
        machine.runFor mode rounds console = (some (.error alarm), stopped, rest) →
          (¬stopped.StoppedForGood ↔ machine.runState ≠ .faulted ∧
            ∃ before, Reaches mode machine console stopped before ∧
              stopped.DisplayFails mode before alarm rest)) ∧
      ∀ {before alarm stopped rest}, Reaches mode machine console stopped before →
        stopped.DisplayFails mode before alarm rest →
          ∃ rounds, machine.runFor mode rounds console = (some (.error alarm), stopped, rest) := by
  refine ⟨fun {alarm stopped rest} hstep => ?_, fun {rounds alarm stopped rest} hrun => ?_,
    fun {before alarm stopped rest} hreaches hfails => ?_⟩
  · rw [stoppedForGood_iff]
    obtain ⟨_, -, rfl, -⟩ | ⟨-, rfl⟩ := stopped_of_step_error hstep <;> rfl
  · rw [stoppedForGood_iff]
    refine ⟨fun hstopped => ?_, fun ⟨hstart, before, hreaches, _⟩ => hreaches.not_faulted hstart⟩
    obtain hdisplay | ⟨-, hfaulted⟩ := exists_reaches_of_alarm hrun
    · refine ⟨fun hstart => hstopped ?_, hdisplay⟩
      have hsame : stopped = machine := by
        have hkept := ((machine.stoppedForGood_iff.mpr hstart).2 console).2 mode rounds
        rwa [hrun] at hkept
      rwa [hsame]
    · exact absurd hfaulted hstopped
  · obtain ⟨rounds, hrounds⟩ := hreaches.exists_runFor 1
    exact ⟨rounds, hrounds.trans hfails.runFor_eq⟩

/-- A machine with a trap that has no service routine behind an addition. -/
def unserved : Machine :=
  ((initial .empty 0 1).storeWord 0 0x1021).storeWord 1 0xF000

/-- A console on which a number of texts can be written. -/
def closing (writes : Nat) : ScriptedConsole :=
  { ScriptedConsole.terminal [] with writesLeft := some writes, fault := ⟨"closed"⟩ }

/-- The trap stops the machine for good. If the console fails behind the addition, when the machine
is shown once more, it is not stopped. -/
theorem stoppedForGood_unserved :
    (∃ stopped rest,
        (unserved.goTo 1).step (closing 0) = (.error (.unknownTrap 0 1), stopped, rest) ∧
          stopped.StoppedForGood) ∧
      ∃ stopped rest before,
        unserved.runFor .trace 5 (closing 2) =
            (some (.error (.console ⟨"closed"⟩)), stopped, rest) ∧
          stopped.executed = 1 ∧ ¬stopped.StoppedForGood ∧
            Reaches .trace unserved (closing 2) stopped before := by
  have htrap : ((unserved.goTo 1).step (closing 0)).1 = .error (.unknownTrap 0 1) := by cbv
  have hstep : (unserved.goTo 1).step (closing 0) = (.error (.unknownTrap 0 1), _, _) :=
    Prod.ext htrap rfl
  have hclosed : (unserved.runFor .trace 5 (closing 2)).1 =
      some (.error (.console ⟨"closed"⟩)) := rfl
  have hrun : unserved.runFor .trace 5 (closing 2) =
      (some (.error (.console ⟨"closed"⟩)), _, _) := Prod.ext hclosed rfl
  have hrunning : ¬(unserved.runFor .trace 5 (closing 2)).2.1.StoppedForGood := by
    rw [stoppedForGood_iff]
    decide +kernel
  obtain ⟨-, before, hreaches, -⟩ :=
    ((stoppedForGood_of_alarm unserved .trace (closing 2)).2.1 hrun).mp hrunning
  exact ⟨⟨_, _, hstep, (stoppedForGood_of_alarm (unserved.goTo 1) .trace (closing 0)).1 hstep⟩,
    _, _, before, hrun, by decide +kernel, hrunning, hreaches⟩

/-- A machine that is to halt at once. -/
def halting : Machine :=
  (initial .empty 0 1).storeWord 0 0xF025

/-- A traced run of it ends with an alarm, and the machine runs on. -/
theorem exists_alarm_running :
    ∃ stopped rest,
      halting.runFor .trace 1 (closing 0) = (some (.error (.console ⟨"closed"⟩)), stopped, rest) ∧
        stopped.runState = .running ∧ stopped.executed = 0 ∧
        (stopped.step rest).2.1.executed = 1 := by
  have halarm : (halting.runFor .trace 1 (closing 0)).1 =
      some (.error (.console ⟨"closed"⟩)) := rfl
  exact ⟨_, _, Prod.ext halarm rfl, by decide +kernel, by decide +kernel, by decide +kernel⟩

end Machine

end PageMachine
