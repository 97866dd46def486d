import PageMachine.Proofs.LifeCycle
import PageMachine.Proofs.ShownRun

/-!
# A limit cuts a run short

Nothing that an instruction does depends on the limit on instructions: it is looked at before each
fetch and nowhere else. So a machine with a limit goes through the same rounds as one without, as
long as there is room, and since each round counts one instruction there is room for exactly as many
rounds as the limit has instructions left. What comes behind them is decided by the machine reached
there: it has stopped by then, or the limit stops it before the next fetch.

The two runs are compared in quiet mode, on any console. That a run with a limit comes to an end
holds in every mode.
-/

namespace PageMachine

/-- What is done with the result of an execution changes nothing of what it asks. -/
theorem Execution.run_map {σ α β : Type} (f : α → β) (program : Execution σ α) (console : σ) :
    (f <$> program).run console = ((program.run console).1.map f, (program.run console).2) := by
  rw [map_eq_pure_bind, run_bind]
  rcases program.run console with ⟨alarm | value, after⟩ <;> rfl

namespace Machine

variable {σ : Type} [Console σ]

/-- A service routine does not look at the limit. -/
theorem serve_withLimit (machine : Machine) (limit : Option Nat) (service : Trap) :
    ((machine.withLimit limit).serve service : Execution σ Machine) =
      (·.withLimit limit) <$> machine.serve service := by
  cases service with
  | halt | random => rfl
  | writeByte | writeText | writeNumber | readByte =>
    simp only [serve, map_bind, map_pure]
    rfl
  | readNumber =>
    simp only [serve, map_bind]
    refine bind_congr fun _ => bind_congr fun line? => ?_
    cases line? with
    | none => rfl
    | some line =>
      dsimp only
      cases numberOnLine? line with
      | some value => rfl
      | none =>
        simp only [map_bind, map_pure]
        rfl

/-- An instruction does not look at the limit. -/
theorem execute_withLimit (machine : Machine) (limit : Option Nat) (i : Instruction)
    (address : Word) :
    ((machine.withLimit limit).execute i address : Execution σ Machine) =
      (·.withLimit limit) <$> machine.execute i address := by
  unfold execute
  cases i.opcode with
  | add | and | not | ret | load | loadIndirect | loadIndexed | loadAddress | store
  | storeIndirect => rfl
  | branch =>
    change (if machine.state.condition.matchesMask i.condition then _ else _) = _
    dsimp only
    split <;> rfl
  | jump | jumpIndexed =>
    have hkeep : (machine.withLimit limit).keepReturn i =
        (machine.keepReturn i).withLimit limit := by
      rw [keepReturn, keepReturn]
      split <;> rfl
    simp only [hkeep]
    rfl
  | storeIndexed =>
    have hstore (address : Nat) (value : Word) : (machine.withLimit limit).store address value =
        (machine.store address value).map (·.withLimit limit) := by
      rw [Machine.store, Machine.store]
      split <;> rfl
    change liftExcept ((machine.withLimit limit).store (machine.indexedAddress i)
      (machine.register i.dst)) = _
    rw [hstore]
    cases machine.store (machine.indexedAddress i) (machine.register i.dst) <;> rfl
  | trap =>
    simp only [Machine.trap]
    cases Trap.ofVector? i.trapVector with
    | some service => exact machine.serve_withLimit limit service
    | none => rfl
  | debug =>
    simp only [map_bind, map_pure]
    rfl

/-- Whether the program has halted itself has nothing to do with the limit. -/
theorem settle_withLimit (machine : Machine) (limit : Option Nat) :
    (machine.withLimit limit).settle = machine.settle.withLimit limit := by
  rw [settle, settle]
  change (if machine.state.executing then _ else _) = _
  split <;> rfl

/-- What a step or a run leaves, with a limit on its machine. -/
def limited {ρ : Type} (limit : Nat) (left : ρ × Machine × σ) : ρ × Machine × σ :=
  (left.1, left.2.1.withLimit (some limit), left.2.2)

variable {mode : RunMode} {machine next : Machine} {console after : σ} {state : RunState}
  {limit rounds : Nat} {outcome : Except Alarm MachineState × Machine × σ}

/-- A step that the limit allows is the step of the machine without the limit. -/
theorem step_withLimit (hfree : machine.limit = none) (hroom : machine.executed < limit)
    (console : σ) :
    (machine.withLimit (some limit)).step console = limited limit (machine.step console) := by
  have hnone : machine.limitReached? = none := by simp [limitReached?, hfree]
  have hunder : (machine.withLimit (some limit)).limitReached? = none := by
    rw [limitReached?, withLimit]
    exact Option.filter_some_neg (by simpa using hroom)
  have hexecute : ((machine.withLimit (some limit)).fetched.execute
      (machine.withLimit (some limit)).instruction (machine.withLimit (some limit)).state.pc).run
        console = _ :=
    (congrArg (fun program : Execution σ Machine => program.run console)
      (execute_withLimit machine.fetched (some limit) machine.instruction machine.state.pc)).trans
      (Execution.run_map _ _ console)
  rw [step, step, hnone, hunder, hexecute]
  change (if machine.runState ≠ .running then _ else _) = _
  split
  · rfl
  · rcases (machine.fetched.execute machine.instruction machine.state.pc).run console with
      ⟨alarm | done, after⟩
    · rfl
    · simp only [Except.map, settle_withLimit]
      rfl

/-- A step leaves the limit as it is. -/
theorem limit_step (machine : Machine) (console : σ) :
    (machine.step console).2.1.limit = machine.limit := by
  have hstepped := machine.stepped_step console
  generalize machine.step console = result at hstepped
  cases hstepped with
  | stays | limited | failed => rfl
  | done done _ _ _ hrun =>
    have hsettle : done.settle.limit = done.limit := by
      rw [settle]
      split <;> rfl
    exact hsettle.trans (sameRun_execute _ _ _ hrun).limit

/-- A step that succeeds counts one instruction. -/
theorem executed_of_step_ok (hrunning : machine.runState = .running)
    (h : machine.step console = (.ok state, next, after)) :
    next.executed = machine.executed + 1 := by
  obtain ⟨⟨limit, halarm⟩, -⟩ | ⟨-, hcount⟩ := executed_step hrunning console
  · rw [h] at halarm
    cases halarm
  · rwa [h] at hcount

/-- A step that succeeds has been allowed. -/
theorem executed_lt_of_step_ok (hlimit : machine.limit = some limit)
    (hrunning : machine.runState = .running)
    (h : machine.step console = (.ok state, next, after)) : machine.executed < limit := by
  by_contra hreached
  have hsome : machine.limitReached? = some limit := by
    rw [limitReached?, hlimit]
    exact Option.filter_some_pos (by simpa using hreached)
  rw [step, if_neg (not_not.mpr hrunning), hsome] at h
  cases h

/-- Without a limit every step of a running machine counts one instruction, whether it succeeds or
not. -/
theorem executed_step_of_free (hfree : machine.limit = none)
    (hrunning : machine.runState = .running) (console : σ) :
    (machine.step console).2.1.executed = machine.executed + 1 := by
  obtain ⟨⟨limit, halarm⟩, -⟩ | ⟨-, hcount⟩ := executed_step hrunning console
  · have hstepped := machine.stepped_step console
    generalize machine.step console = result at hstepped halarm
    cases hstepped with
    | stays hstopped => exact absurd hrunning hstopped
    | limited _ _ hreached => simp [limitReached?, hfree] at hreached
    | done => cases halarm
    | failed => rfl
  · exact hcount

/-- A round in quiet mode is a step. -/
theorem round_quiet (machine : Machine) (console : σ) :
    machine.round .quiet console = machine.step console :=
  rfl

/-- As many rounds as the limit has room for are the rounds of the machine without the limit. -/
theorem runFor_withLimit (hfree : machine.limit = none)
    (hroom : machine.executed + rounds ≤ limit) (console : σ) :
    (machine.withLimit (some limit)).runFor .quiet rounds console =
      limited limit (machine.runFor .quiet rounds console) := by
  induction rounds generalizing machine console with
  | zero => rfl
  | succ rounds ih =>
    rw [runFor, runFor, round_quiet, round_quiet, step_withLimit hfree (by omega)]
    change (if machine.runState = .running then _ else _) = _
    split
    · next hrunning =>
      rcases hstep : machine.step console with ⟨alarm | state, next, after⟩
      · rfl
      · have hcount := executed_of_step_ok hrunning hstep
        have hlimit := machine.limit_step console
        rw [hstep] at hlimit
        exact ih (hlimit.trans hfree) (show next.executed + rounds ≤ limit by omega) after
    · rfl

/-- A round counts one instruction at most. -/
theorem executed_round (machine : Machine) (mode : RunMode) (console : σ) :
    machine.executed ≤ (machine.round mode console).2.1.executed ∧
      (machine.round mode console).2.1.executed ≤ machine.executed + 1 := by
  rw [round]
  split
  · simp
  · next shown _ =>
    by_cases hrunning : machine.runState = .running
    · obtain ⟨-, hcount⟩ | ⟨-, hcount⟩ := executed_step hrunning shown <;> omega
    · rw [(unchanged_of_not_running hrunning shown).1]
      omega

/-- A run counts one instruction in each round at most. -/
theorem executed_runFor (machine : Machine) (mode : RunMode) (rounds : Nat) (console : σ) :
    machine.executed ≤ (machine.runFor mode rounds console).2.1.executed ∧
      (machine.runFor mode rounds console).2.1.executed ≤ machine.executed + rounds := by
  induction rounds generalizing machine console with
  | zero => exact ⟨Nat.le_refl _, Nat.le_refl _⟩
  | succ rounds ih =>
    have hround := machine.executed_round mode console
    rw [runFor]
    split
    · split
      · next hstopped =>
        rw [hstopped] at hround
        dsimp only at hround ⊢
        omega
      · next next after hnext =>
        rw [hnext] at hround
        have hrest := ih next after
        dsimp only at hround
        omega
    · split <;> simp

/-- A run leaves the limit as it is. -/
theorem limit_runFor (machine : Machine) (mode : RunMode) (rounds : Nat) (console : σ) :
    (machine.runFor mode rounds console).2.1.limit = machine.limit :=
  runFor_of_step (P := fun other => other.limit = machine.limit)
    (fun {other} console h => (other.limit_step console).trans h) rfl mode rounds console

/-- A run that has not come to its end has counted one instruction in each round, and goes on from
where it is. -/
theorem goesOn_of_runFor (h : machine.runFor mode rounds console = (none, next, after)) :
    next.executed = machine.executed + rounds ∧
      ∀ more, machine.runFor mode (rounds + more) console = next.runFor mode more after := by
  induction rounds generalizing machine console with
  | zero =>
    cases h
    exact ⟨rfl, fun more => by rw [Nat.zero_add]⟩
  | succ rounds ih =>
    rw [runFor] at h
    split at h
    · next hrunning =>
      split at h
      · cases h
      · next hround =>
        obtain ⟨shown, hstep⟩ := round_eq_ok hround
        have hfirst := executed_of_step_ok hrunning hstep
        obtain ⟨hcount, hmore⟩ := ih h
        refine ⟨by omega, fun more => ?_⟩
        rw [Nat.add_right_comm, runFor, if_pos hrunning, hround]
        exact hmore more
    · split at h <;> cases h

/-- A run ends as it does behind its first round. -/
theorem Ends.of_round (hrunning : machine.runState = .running)
    (hround : machine.round mode console = (.ok state, next, after))
    (h : Ends mode next after outcome) : Ends mode machine console outcome := by
  obtain ⟨rounds, hrounds⟩ := h
  refine ⟨rounds + 1, ?_⟩
  rw [runFor, if_pos hrunning, hround]
  exact hrounds

/-- A run ends as it does from where it has come. -/
theorem Ends.of_runFor (hrun : machine.runFor mode rounds console = (none, next, after))
    (h : Ends mode machine console outcome) : Ends mode next after outcome := by
  obtain ⟨enough, henough⟩ := h
  refine ⟨enough, ?_⟩
  rw [← (goesOn_of_runFor hrun).2, Nat.add_comm]
  exact runFor_add henough rounds

/-- A run does not take back what it has counted. -/
theorem Ends.executed_le (h : Ends mode machine console outcome) :
    machine.executed ≤ outcome.2.1.executed := by
  obtain ⟨rounds, hrounds⟩ := h
  have hcount := (machine.executed_runFor mode rounds console).1
  rwa [hrounds] at hcount

/-- A running machine without a limit does not come to an end before its next instruction. -/
theorem Ends.executed_lt (hfree : machine.limit = none) (hrunning : machine.runState = .running)
    (h : Ends .quiet machine console outcome) : machine.executed < outcome.2.1.executed := by
  obtain ⟨rounds, hrounds⟩ := h
  have hcount := executed_step_of_free hfree hrunning console
  cases rounds with
  | zero => cases hrounds
  | succ rounds =>
    rw [runFor, if_pos hrunning, round_quiet] at hrounds
    rcases hstep : machine.step console with ⟨alarm | state, next, after⟩
    · rw [hstep] at hrounds hcount
      rw [← (Prod.mk.inj hrounds).2]
      exact Nat.lt_of_succ_le (Nat.le_of_eq hcount.symm)
    · rw [hstep] at hrounds hcount
      have hrest : Ends .quiet next after outcome := ⟨rounds, hrounds⟩
      exact Nat.lt_of_succ_le (Nat.le_trans (Nat.le_of_eq hcount.symm) hrest.executed_le)

/-- A running machine whose limit is reached is stopped at once. -/
theorem ends_of_limitReached (hrunning : machine.runState = .running)
    (hreached : machine.limitReached? = some limit) (console : σ) :
    Ends .quiet machine console (.error (.limitReached limit), machine.fault, console) := by
  have hstep : machine.step console = (.error (.limitReached limit), machine.fault, console) := by
    rw [step, if_neg (not_not.mpr hrunning), hreached]
  exact ⟨1, by rw [runFor, if_pos hrunning, round_quiet, hstep]⟩

/-- A run with a limit comes to an end: the instructions left are fewer with each round. -/
theorem exists_ends_of_limit (hlimit : machine.limit = some limit) (mode : RunMode)
    (console : σ) : ∃ outcome, Ends mode machine console outcome := by
  induction hleft : limit - machine.executed using Nat.strong_induction_on
    generalizing machine console with
  | h left ih =>
    by_cases hrunning : machine.runState = .running
    · rcases hround : machine.round mode console with ⟨alarm | state, next, after⟩
      · exact ⟨(.error alarm, next, after), 1, by rw [runFor, if_pos hrunning, hround]⟩
      · obtain ⟨shown, hstep⟩ := round_eq_ok hround
        have hroom := executed_lt_of_step_ok hlimit hrunning hstep
        have hcount := executed_of_step_ok hrunning hstep
        have hsame := machine.limit_step shown
        rw [hstep] at hsame
        obtain ⟨outcome, houtcome⟩ :=
          ih (limit - next.executed) (by omega) (hsame.trans hlimit) after rfl
        exact ⟨outcome, houtcome.of_round hrunning hround⟩
    · rcases hconclude : (machine.conclude mode).run console with ⟨alarm | state, after⟩
      · exact ⟨(.error alarm, machine, after), 1, by rw [runFor, if_neg hrunning, hconclude]⟩
      · exact ⟨(.ok state, machine, after), 1, by rw [runFor, if_neg hrunning, hconclude]⟩

/-- Of a machine without a limit, the rounds for which a limit has room either end the run, and then
that with the limit in the same way; or they leave the machine running, which goes beyond the limit
by itself and is stopped by it otherwise. -/
theorem ends_or_goesOn_withLimit (hfree : machine.limit = none) (hroom : machine.executed ≤ limit)
    (console : σ) :
    (∃ outcome, Ends .quiet machine console outcome ∧ outcome.2.1.executed ≤ limit ∧
        Ends .quiet (machine.withLimit (some limit)) console (limited limit outcome)) ∨
      ∃ next after,
        machine.runFor .quiet (limit - machine.executed) console = (none, next, after) ∧
        next.executed = limit ∧ next.runState = .running ∧
        (∀ outcome, Ends .quiet machine console outcome → limit < outcome.2.1.executed) ∧
        Ends .quiet (machine.withLimit (some limit)) console
          (.error (.limitReached limit), (next.withLimit (some limit)).fault, after) := by
  have hlimited := runFor_withLimit hfree
    (show machine.executed + (limit - machine.executed) ≤ limit by omega) console
  have hbound := (machine.executed_runFor .quiet (limit - machine.executed) console).2
  have hkept := limit_runFor machine .quiet (limit - machine.executed) console
  rcases hrun : machine.runFor .quiet (limit - machine.executed) console with
    ⟨_ | result, next, after⟩
  · rw [hrun] at hlimited hkept
    obtain ⟨hcount, hmore⟩ := goesOn_of_runFor hrun
    obtain ⟨-, hlimitedMore⟩ := goesOn_of_runFor hlimited
    have hexecuted : next.executed = limit := by omega
    by_cases hrunning : next.runState = .running
    · have hstill : (next.withLimit (some limit)).runState = .running := hrunning
      refine .inr ⟨next, after, rfl, hexecuted, hrunning, fun outcome houtcome => ?_, ?_⟩
      · rw [← hexecuted]
        exact (houtcome.of_runFor hrun).executed_lt (hkept.trans hfree) hrunning
      · have hreached : (next.withLimit (some limit)).limitReached? = some limit := by
          rw [limitReached?, withLimit]
          exact Option.filter_some_pos (by simp [hexecuted])
        obtain ⟨more, hstopped⟩ := ends_of_limitReached hstill hreached after
        exact ⟨limit - machine.executed + more, (hlimitedMore more).trans hstopped⟩
    · -- The program has halted itself in the last of these rounds.
      refine .inl ⟨(.ok next.state, next, after), ⟨limit - machine.executed + 1, ?_⟩,
        Nat.le_of_eq hexecuted, limit - machine.executed + 1, ?_⟩
      · rw [hmore]
        exact if_neg hrunning
      · rw [hlimitedMore]
        exact if_neg hrunning
  · rw [hrun] at hbound hlimited
    refine .inl ⟨(result, next, after), ⟨_, hrun⟩, ?_, _, hlimited⟩
    dsimp only at hbound ⊢
    omega

/-- A limit only cuts the run of a new machine short. If the run without the limit comes to an end
with an instruction that the limit allows, the run with it ends in the same way. Otherwise, be it
that the run without the limit ends later or never, the run with it executes as many instructions as
the limit allows and is stopped where the other has come by then. In either case, and whatever is
shown of it, a run with a limit comes to an end. -/
theorem ends_withLimit (memory : Memory) (start : Word) (seed : BitVec 64) (limit : Nat)
    (console : σ) :
    (∀ {result last rest},
        Ends .quiet (initial memory start seed) console (result, last, rest) →
        last.executed ≤ limit →
          Ends .quiet ((initial memory start seed).withLimit (some limit)) console
            (result, last.withLimit (some limit), rest)) ∧
      ((¬∃ outcome, Ends .quiet (initial memory start seed) console outcome ∧
          outcome.2.1.executed ≤ limit) →
        ∃ last rest,
          (initial memory start seed).runFor .quiet limit console = (none, last, rest) ∧
          last.executed = limit ∧ last.runState = .running ∧
          Ends .quiet ((initial memory start seed).withLimit (some limit)) console
            (.error (.limitReached limit), (last.withLimit (some limit)).fault, rest)) ∧
      ∀ mode, ∃ outcome, Ends mode ((initial memory start seed).withLimit (some limit)) console
        outcome := by
  have hfree : (initial memory start seed).limit = none := rfl
  have hcases := ends_or_goesOn_withLimit hfree (Nat.zero_le limit) console
  refine ⟨fun {result last rest} hends hlast => ?_, fun hbeyond => ?_,
    fun mode => exists_ends_of_limit rfl mode console⟩
  · obtain ⟨outcome, houtcome, -, hlimited⟩ | ⟨_, _, -, -, -, hlater, -⟩ := hcases
    · rwa [houtcome.unique hends] at hlimited
    · exact absurd (hlater _ hends) (Nat.not_lt.mpr hlast)
  · obtain ⟨outcome, houtcome, hlast, -⟩ | ⟨next, after, hrun, hcount, hrunning, -, hstopped⟩ :=
      hcases
    · exact absurd ⟨outcome, houtcome, hlast⟩ hbeyond
    · exact ⟨next, after, hrun, hcount, hrunning, hstopped⟩

/-- A program that goes round in a circle of one instruction. -/
def circling : Memory :=
  Memory.empty.write 0 0x0E00

/-- A limit of two instructions lets the counting program halt with its second. It stops the program
that goes round behind two, which runs on by itself. -/
theorem ends_withLimit_two :
    (∃ state last rest, Ends .quiet ((initial counting 0 1).withLimit (some 2))
        (BufferConsole.ofInput []) (.ok state, last, rest) ∧
        last.executed = 2 ∧ last.runState = .halted) ∧
      ∃ last rest, Ends .quiet ((initial circling 0 1).withLimit (some 2))
        (BufferConsole.ofInput []) (.error (.limitReached 2), last, rest) ∧
        last.executed = 2 ∧ last.runState = .faulted := by
  let console := BufferConsole.ofInput []
  have hcounting : ((initial counting 0 1).runFor .quiet 3 console).1 =
      some (.ok ((initial counting 0 1).runFor .quiet 3 console).2.1.state) := rfl
  have hhalts := (ends_withLimit counting 0 1 2 console).1 (ends_of_runFor hcounting)
    (by decide +kernel)
  have hcircling : (initial circling 0 1).runFor .quiet 3 console = (none, _, _) := rfl
  have hbeyond : ¬∃ outcome, Ends .quiet (initial circling 0 1) console outcome ∧
      outcome.2.1.executed ≤ 2 := by
    rintro ⟨outcome, houtcome, hlast⟩
    have hcount := (goesOn_of_runFor hcircling).1
    exact absurd (hcount ▸ (houtcome.of_runFor hcircling).executed_le) (by omega)
  obtain ⟨last, rest, -, hcount, -, hstopped⟩ := (ends_withLimit circling 0 1 2 console).2.1 hbeyond
  exact ⟨⟨_, _, _, hhalts, by decide +kernel, by decide +kernel⟩, _, _, hstopped, hcount, rfl⟩

end Machine

end PageMachine
