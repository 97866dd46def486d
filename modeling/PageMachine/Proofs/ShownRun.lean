import PageMachine.Proofs.RunAlarm

/-!
# Showing a run does not change it

What a program does depends on the console only through its answers. So two runs whose consoles
answer alike go through the same machines, whatever else is written between the instructions: an
execution `Respects` a relation of consoles if it gives the same on related ones and leaves them
related, and a run respects what its instructions respect. A buffer keeps the trace apart from the
output, so that a traced run agrees with a quiet one in everything; a run in steps takes bytes from
the program's input, and agrees as long as the program does not ask for any.

The two runs are compared round by round, so that one of them ends if and only if the other does.
A console that fails when the machine is shown is not considered here.
-/

namespace PageMachine

namespace Execution

variable {σ α β : Type} {rel : σ → σ → Prop}

/-- Whether a call is answered alike by related consoles, which stay related. -/
def RespectsCall (rel : σ → σ → Prop) (request : σ → Except ConsoleFault α × σ) : Prop :=
  ∀ console twin, rel console twin → ∃ answer after rest,
    request console = (answer, after) ∧ request twin = (answer, rest) ∧ rel after rest

/-- Whether an execution gives the same on related consoles, which stay related. -/
def Respects (rel : σ → σ → Prop) (program : Execution σ α) : Prop :=
  ∀ console twin, rel console twin → ∃ outcome after rest,
    program.run console = (outcome, after) ∧ program.run twin = (outcome, rest) ∧ rel after rest

/-- One execution runs after another, unless an alarm comes in between. -/
theorem run_bind (program : Execution σ α) (next : α → Execution σ β) (console : σ) :
    (program >>= next).run console =
      match program.run console with
      | (.ok value, after) => (next value).run after
      | (.error alarm, after) => (.error alarm, after) := by
  unfold ExceptT.run
  simp only [bind, ExceptT.bind, ExceptT.mk, StateT.bind, ExceptT.bindCont]
  rcases program console with ⟨alarm | value, after⟩ <;> rfl

/-- A result asks nothing of the console. -/
theorem respects_pure (value : α) : Respects rel (pure value) :=
  fun console twin hrel => ⟨.ok value, console, twin, rfl, rfl, hrel⟩

/-- An alarm asks nothing of the console. -/
theorem respects_throw (alarm : Alarm) : Respects rel (throw alarm : Execution σ α) :=
  fun console twin hrel => ⟨.error alarm, console, twin, rfl, rfl, hrel⟩

/-- What can fail by itself asks nothing of the console. -/
theorem respects_liftExcept (outcome : Except Alarm α) :
    Respects rel (liftExcept outcome : Execution σ α) := by
  cases outcome with
  | ok value => exact respects_pure value
  | error alarm => exact respects_throw alarm

/-- A call that is answered alike. -/
theorem respects_call {request : σ → Except ConsoleFault α × σ} (h : RespectsCall rel request) :
    Respects rel (call request) := by
  intro console twin hrel
  obtain ⟨answer, after, rest, hcall, htwin, hafter⟩ := h console twin hrel
  simp only [call, ExceptT.run, ExceptT.mk, hcall, htwin]
  cases answer <;> exact ⟨_, after, rest, rfl, rfl, hafter⟩

/-- One execution after another respects a relation if both do. -/
theorem Respects.bind {program : Execution σ α} {next : α → Execution σ β}
    (hprogram : program.Respects rel) (hnext : ∀ value, (next value).Respects rel) :
    (program >>= next).Respects rel := by
  intro console twin hrel
  obtain ⟨outcome, after, rest, hrun, htwin, hafter⟩ := hprogram console twin hrel
  rw [run_bind, run_bind, hrun, htwin]
  cases outcome with
  | ok value => exact hnext value after rest hafter
  | error alarm => exact ⟨.error alarm, after, rest, rfl, rfl, hafter⟩

end Execution

open Execution

/-- Whether an instruction asks for input: a trap with the routine that reads a byte or with the one
that reads a number. -/
def Instruction.AsksInput (i : Instruction) : Prop :=
  i.opcode = .trap ∧ (i.trapVector = 0x23 ∨ i.trapVector = 0x33)

instance (i : Instruction) : Decidable i.AsksInput :=
  inferInstanceAs (Decidable (_ ∧ (_ ∨ _)))

/-- Related consoles have the same input, read by bytes and by lines. -/
structure Console.ReadsAlike {σ : Type} [Console σ] (rel : σ → σ → Prop) : Prop where
  readByte : RespectsCall rel Console.readByte
  readLine : RespectsCall rel Console.readLine

/-- Whether two outcomes are the same, machines included, with related consoles. -/
structure SameOutcome {σ ρ : Type} (rel : σ → σ → Prop) (one other : ρ × Machine × σ) : Prop where
  result : one.1 = other.1
  machine : one.2.1 = other.2.1
  console : rel one.2.2 other.2.2

/-- The same outcome comes with the same machine and related consoles. -/
theorem SameOutcome.exists_eq {σ ρ : Type} {rel : σ → σ → Prop} {one other : ρ × Machine × σ}
    (h : SameOutcome rel one other) : ∃ result machine after rest,
      one = (result, machine, after) ∧ other = (result, machine, rest) ∧ rel after rest := by
  obtain ⟨result, machine, after⟩ := one
  obtain ⟨_, _, rest⟩ := other
  obtain ⟨rfl, rfl, hrel⟩ := h
  exact ⟨result, machine, after, rest, rfl, rfl, hrel⟩

namespace Machine

section Lockstep

variable {σ : Type} [Console σ] {rel : σ → σ → Prop}

/-- A service routine respects a relation under which bytes are written alike, and read alike if it
asks for input. -/
theorem respects_serve (hwrites : ∀ bytes, RespectsCall rel (Console.writeBytes bytes))
    (machine : Machine) (service : Trap)
    (hreads : service = .readByte ∨ service = .readNumber → Console.ReadsAlike rel) :
    Respects rel (machine.serve service) := by
  cases service with
  | writeByte | writeText | writeNumber =>
    exact (respects_call (hwrites _)).bind fun _ => respects_pure _
  | readByte =>
    exact (respects_call (hwrites _)).bind fun _ =>
      (respects_call (hreads (.inl rfl)).readByte).bind fun _ => respects_pure _
  | halt | random => exact respects_pure _
  | readNumber =>
    refine (respects_call (hwrites _)).bind fun _ =>
      (respects_call (hreads (.inr rfl)).readLine).bind fun line? => ?_
    cases line? with
    | none => exact respects_pure _
    | some line =>
      dsimp only
      split
      · exact respects_pure _
      · exact (respects_call (hwrites _)).bind fun _ => respects_pure _

/-- The vectors of the routines that ask for input. -/
theorem asksInput_of_ofVector? {i : Instruction} {service : Trap} (hopcode : i.opcode = .trap)
    (hvector : Trap.ofVector? i.trapVector = some service)
    (hservice : service = .readByte ∨ service = .readNumber) : i.AsksInput := by
  refine ⟨hopcode, ?_⟩
  simp only [Trap.ofVector?] at hvector
  grind

/-- An instruction respects a relation under which bytes are written alike, and read alike if it
asks for input. -/
theorem respects_execute (hwrites : ∀ bytes, RespectsCall rel (Console.writeBytes bytes))
    (machine : Machine) (i : Instruction) (address : Word)
    (hreads : i.AsksInput → Console.ReadsAlike rel) :
    Respects rel (machine.execute i address) := by
  unfold execute
  cases hopcode : i.opcode with
  | add | and | not | jump | jumpIndexed | ret | load | loadIndirect | loadIndexed | loadAddress
  | store | storeIndirect =>
    exact respects_pure _
  | branch =>
    dsimp only
    split <;> exact respects_pure _
  | storeIndexed => exact respects_liftExcept _
  | trap =>
    simp only [trap]
    cases hvector : Trap.ofVector? i.trapVector with
    | some service =>
      exact machine.respects_serve hwrites service fun hservice =>
        hreads (asksInput_of_ofVector? hopcode hvector hservice)
    | none => exact respects_throw _
  | debug => exact (respects_call (hwrites _)).bind fun _ => respects_pure _

/-- Whether the next step executes an instruction that asks for input. -/
def AsksNext (machine : Machine) : Prop :=
  machine.runState = .running ∧ machine.limitReached? = none ∧ machine.instruction.AsksInput

instance (machine : Machine) : Decidable machine.AsksNext :=
  inferInstanceAs (Decidable (_ ∧ _ ∧ _))

/-- A step is the same on related consoles. -/
theorem sameOutcome_step (hwrites : ∀ bytes, RespectsCall rel (Console.writeBytes bytes))
    {machine : Machine} (hreads : machine.AsksNext → Console.ReadsAlike rel) {console twin : σ}
    (hrel : rel console twin) : SameOutcome rel (machine.step console) (machine.step twin) := by
  rw [step, step]
  split
  · exact ⟨rfl, rfl, hrel⟩
  · next hrunning =>
    split
    · exact ⟨rfl, rfl, hrel⟩
    · next hlimit =>
      have hexecute := machine.fetched.respects_execute hwrites machine.instruction
        machine.state.pc (fun hasks => hreads ⟨not_not.mp hrunning, hlimit, hasks⟩)
      obtain ⟨outcome, after, rest, hrun, htwin, hafter⟩ := hexecute console twin hrel
      rw [hrun, htwin]
      cases outcome <;> exact ⟨rfl, rfl, hafter⟩

/-- Showing the machine in a mode succeeds and cannot be told by a relation of consoles. -/
structure ShowsUnseen (mode : RunMode) (rel : σ → σ → Prop) : Prop where
  /-- Before an instruction. -/
  announce : ∀ (machine : Machine) {console twin}, rel console twin →
    ∃ shown, (machine.announce mode).run console = (.ok (), shown) ∧ rel shown twin
  /-- At the end. -/
  conclude : ∀ (machine : Machine) {console twin}, rel console twin →
    ∃ shown, (machine.conclude mode).run console = (.ok machine.state, shown) ∧ rel shown twin

variable {mode : RunMode}

/-- A round is the same as a quiet round. -/
theorem sameOutcome_round (hwrites : ∀ bytes, RespectsCall rel (Console.writeBytes bytes))
    (hshows : ShowsUnseen mode rel) {machine : Machine}
    (hreads : machine.AsksNext → Console.ReadsAlike rel) {console twin : σ}
    (hrel : rel console twin) :
    SameOutcome rel (machine.round mode console) (machine.round .quiet twin) := by
  obtain ⟨shown, hannounce, hshown⟩ := hshows.announce machine hrel
  have hquiet : machine.round .quiet twin = machine.step twin := rfl
  rw [hquiet, round, hannounce]
  exact sameOutcome_step hwrites hreads hshown

/-- Whether a quiet run comes to an instruction that asks for input. -/
def AsksInput (machine : Machine) (console : σ) : Prop :=
  ∃ next after, Reaches .quiet machine console next after ∧ next.AsksNext

/-- A run comes to an instruction that asks for input at once, or after its first round. -/
theorem asksInput_iff (machine : Machine) (console : σ) :
    machine.AsksInput console ↔ machine.AsksNext ∨
      machine.runState = .running ∧
        (∃ state, (machine.round .quiet console).1 = .ok state) ∧
        (machine.round .quiet console).2.1.AsksInput (machine.round .quiet console).2.2 := by
  constructor
  · rintro ⟨last, rest, hreaches, hasks⟩
    cases hreaches with
    | here => exact .inl hasks
    | round hrunning hround hreaches =>
      rw [hround]
      exact .inr ⟨hrunning, ⟨_, rfl⟩, last, rest, hreaches, hasks⟩
  · rintro (hasks | ⟨hrunning, ⟨state, hstate⟩, last, rest, hreaches, hasks⟩)
    · exact ⟨machine, console, .here _ _, hasks⟩
    · exact ⟨last, rest, .round hrunning (Prod.ext hstate rfl) hreaches, hasks⟩

/-- As many rounds of a run lead to the same as in quiet mode. -/
theorem sameOutcome_runFor (hwrites : ∀ bytes, RespectsCall rel (Console.writeBytes bytes))
    (hshows : ShowsUnseen mode rel) {machine : Machine} {console twin : σ}
    (hreads : machine.AsksInput twin → Console.ReadsAlike rel) (hrel : rel console twin)
    (rounds : Nat) :
    SameOutcome rel (machine.runFor mode rounds console) (machine.runFor .quiet rounds twin) := by
  induction rounds generalizing machine console twin with
  | zero => exact ⟨rfl, rfl, hrel⟩
  | succ rounds ih =>
    rw [runFor, runFor]
    split
    · next hrunning =>
      have hsame := sameOutcome_round hwrites hshows
        (fun hasks => hreads ((machine.asksInput_iff twin).mpr (.inl hasks))) hrel
      obtain ⟨outcome, next, after, rest, hround, htwin, hafter⟩ := hsame.exists_eq
      rw [hround, htwin]
      cases outcome with
      | error alarm => exact ⟨rfl, rfl, hafter⟩
      | ok state =>
        -- What the quiet run asks for further on, it asks for from here on.
        refine ih (fun hasks => hreads ((machine.asksInput_iff twin).mpr (.inr ?_))) hafter
        rw [htwin]
        exact ⟨hrunning, ⟨state, rfl⟩, hasks⟩
    · obtain ⟨shown, hconclude, hshown⟩ := hshows.conclude machine hrel
      rw [hconclude]
      exact ⟨rfl, rfl, hshown⟩

/-- A run ends with a result, a machine and a console. -/
def Ends (mode : RunMode) (machine : Machine) (console : σ)
    (outcome : Except Alarm MachineState × Machine × σ) : Prop :=
  ∃ rounds, machine.runFor mode rounds console = (some outcome.1, outcome.2)

/-- A run that gives a result has ended. -/
theorem ends_of_runFor {rounds : Nat} {machine : Machine} {console : σ}
    {result : Except Alarm MachineState}
    (h : (machine.runFor mode rounds console).1 = some result) :
    Ends mode machine console (result, (machine.runFor mode rounds console).2) :=
  ⟨rounds, Prod.ext h rfl⟩

/-- Further rounds of a run that has ended change nothing. -/
theorem runFor_add {rounds : Nat} {machine : Machine} {console : σ}
    {outcome : Except Alarm MachineState × Machine × σ}
    (h : machine.runFor mode rounds console = (some outcome.1, outcome.2)) (more : Nat) :
    machine.runFor mode (rounds + more) console = (some outcome.1, outcome.2) := by
  induction rounds generalizing machine console with
  | zero => cases h
  | succ rounds ih =>
    rw [Nat.add_right_comm, runFor]
    rw [runFor] at h
    split at h
    · next hrunning =>
      rw [if_pos hrunning]
      split at h
      · exact h
      · exact ih h
    · next hstopped =>
      rw [if_neg hstopped]
      exact h

/-- A run ends in one way only. -/
theorem Ends.unique {machine : Machine} {console : σ}
    {one other : Except Alarm MachineState × Machine × σ}
    (hone : Ends mode machine console one) (hother : Ends mode machine console other) :
    one = other := by
  obtain ⟨rounds, hrounds⟩ := hone
  obtain ⟨more, hmore⟩ := hother
  have hboth := runFor_add hmore rounds
  rw [Nat.add_comm, runFor_add hrounds more] at hboth
  cases one
  cases other
  simpa using hboth

/-- A run in some mode ends exactly if a quiet run on another console does, and then with the same
result and the same machine. -/
structure EndsAsQuiet (mode : RunMode) (rel : σ → σ → Prop) (machine : Machine)
    (console twin : σ) : Prop where
  ends : (∃ outcome, Ends mode machine console outcome) ↔
    ∃ outcome, Ends .quiet machine twin outcome
  agree : ∀ {outcome other}, Ends mode machine console outcome →
    Ends .quiet machine twin other → SameOutcome rel outcome other

/-- Runs that are the same round by round end alike. -/
theorem endsAsQuiet_of_runFor {machine : Machine} {console twin : σ}
    (h : ∀ rounds, SameOutcome rel (machine.runFor mode rounds console)
      (machine.runFor .quiet rounds twin)) :
    EndsAsQuiet mode rel machine console twin := by
  refine ⟨⟨?_, ?_⟩, ?_⟩
  · rintro ⟨outcome, rounds, hrounds⟩
    have hresult := (h rounds).result
    rw [hrounds] at hresult
    exact ⟨_, ends_of_runFor hresult.symm⟩
  · rintro ⟨outcome, rounds, hrounds⟩
    have hresult := (h rounds).result
    rw [hrounds] at hresult
    exact ⟨_, ends_of_runFor hresult⟩
  · rintro outcome other ⟨rounds, hrounds⟩ hother
    obtain ⟨hresult, hmachine, hrel⟩ := h rounds
    rw [hrounds] at hresult hmachine hrel
    obtain rfl := (ends_of_runFor hresult.symm).unique hother
    exact ⟨rfl, hmachine, hrel⟩

end Lockstep

end Machine

namespace BufferConsole

/-- Whether the program has written the same to two consoles. -/
def SameOutput (one other : BufferConsole) : Prop :=
  one.output = other.output

/-- Whether the program has written the same to two consoles, and the same is left to read. -/
structure Alike (one other : BufferConsole) : Prop where
  output : one.output = other.output
  input : one.input = other.input

/-- Reading a byte writes nothing. -/
@[simp]
theorem output_readByte (console : BufferConsole) :
    console.readByte.2.output = console.output := by
  rw [readByte]
  split <;> rfl

/-- Writing the same bytes keeps outputs the same. -/
theorem respectsCall_writeBytes (bytes : ByteArray) :
    RespectsCall SameOutput (Console.writeBytes bytes) :=
  fun _ _ hsame => ⟨_, _, _, rfl, rfl, congrArg (· ++ bytes) hsame⟩

/-- Writing the same bytes keeps outputs and inputs the same. -/
theorem alike_writeBytes (bytes : ByteArray) : RespectsCall Alike (Console.writeBytes bytes) :=
  fun _ _ hsame => ⟨_, _, _, rfl, rfl, congrArg (· ++ bytes) hsame.output, hsame.input⟩

/-- Consoles with the same input read the same, and stay so. -/
theorem readsAlike_alike : Console.ReadsAlike Alike where
  readByte := by
    rintro ⟨input, output, trace⟩ ⟨_, _, other⟩ ⟨rfl, rfl⟩
    cases input <;> exact ⟨_, _, _, rfl, rfl, rfl, rfl⟩
  readLine := by
    rintro ⟨input, output, trace⟩ ⟨_, _, other⟩ ⟨rfl, rfl⟩
    cases input <;> exact ⟨_, _, _, rfl, rfl, rfl, rfl⟩

/-- A trace is neither output nor input. -/
theorem showsUnseen_trace : Machine.ShowsUnseen .trace Alike where
  announce _ _ _ hsame := ⟨_, rfl, hsame.output, hsame.input⟩
  conclude _ _ _ hsame := ⟨_, rfl, hsame.output, hsame.input⟩

/-- What step mode shows is no output, but a byte of the input is read there. -/
theorem showsUnseen_step : Machine.ShowsUnseen .step SameOutput where
  announce machine console _ hsame :=
    ⟨((console.writeTrace machine.display).readByte.2).writeTrace machine.announcement, rfl,
      (output_readByte _).trans hsame⟩
  conclude _ _ _ hsame := ⟨_, rfl, hsame⟩

end BufferConsole

namespace Machine

/-- Showing a run on a buffer does not change it. A traced run of any machine ends exactly if the
quiet run with the same input does, with the same result, machine and output, and with the same
input left. So does a run in steps, but for the input, if the quiet run never asks for any; then
the input of the two may differ from the beginning. -/
theorem endsAsQuiet_of_sameOutput (machine : Machine) {console twin : BufferConsole}
    (houtput : console.output = twin.output) :
    (console.input = twin.input →
        EndsAsQuiet .trace BufferConsole.Alike machine console twin) ∧
      (¬machine.AsksInput twin →
        EndsAsQuiet .step BufferConsole.SameOutput machine console twin) := by
  constructor
  · intro hinput
    exact endsAsQuiet_of_runFor <| sameOutcome_runFor BufferConsole.alike_writeBytes
      BufferConsole.showsUnseen_trace (fun _ => BufferConsole.readsAlike_alike) ⟨houtput, hinput⟩
  · intro hquiet
    exact endsAsQuiet_of_runFor <| sameOutcome_runFor BufferConsole.respectsCall_writeBytes
      BufferConsole.showsUnseen_step (fun hasks => absurd hasks hquiet) houtput

/-- A machine that writes a byte and halts. -/
def writing : Machine :=
  ((initial .empty 0 1).storeWord 0 0xF021).storeWord 1 0xF025

/-- Neither a trace nor a pause before each instruction changes what the machine does that writes a
byte, whatever there is to read. A run in steps writes the byte once, and takes two bytes of the
input. -/
theorem endsAsQuiet_writing :
    EndsAsQuiet .trace BufferConsole.Alike writing (.ofInput [65]) (.ofInput [65]) ∧
      EndsAsQuiet .step BufferConsole.SameOutput writing (.ofInput [65, 66, 67]) (.ofInput []) ∧
        ∃ outcome, Ends .step writing (BufferConsole.ofInput [65, 66, 67]) outcome ∧
          outcome.2.2.output = ⟨#[0]⟩ ∧ outcome.2.2.input = [67] := by
  have hquiet : ¬writing.AsksInput (BufferConsole.ofInput []) := by
    rw [asksInput_iff, asksInput_iff, asksInput_iff]
    rintro (hasks | ⟨-, -, hasks | ⟨-, -, hasks | ⟨hrunning, -⟩⟩⟩)
    · exact absurd hasks (by decide +kernel)
    · exact absurd hasks (by decide +kernel)
    · exact absurd hasks (by decide +kernel)
    · exact absurd hrunning (by decide +kernel)
  have hsame : (BufferConsole.ofInput [65, 66, 67]).output = (BufferConsole.ofInput []).output := rfl
  have hresult : (writing.runFor .step 3 (BufferConsole.ofInput [65, 66, 67])).1 =
      some (.ok (writing.runFor .step 3 (BufferConsole.ofInput [65, 66, 67])).2.1.state) := rfl
  exact ⟨(writing.endsAsQuiet_of_sameOutput rfl).1 rfl,
    (writing.endsAsQuiet_of_sameOutput hsame).2 hquiet,
    _, ends_of_runFor hresult, rfl, by decide +kernel⟩

end Machine

end PageMachine
