import Mathlib.Data.List.Basic
import PageMachine.Proofs.LimitedRun
import PageMachine.Proofs.Text

/-!
# What a trace announces

A traced run shows the machine before each instruction and announces the instruction by its name.
The name is read from memory before the step fetches the word, and nothing in between touches the
machine, so that a step that fetches an instruction fetches the one announced. The steps write
nothing into the trace, and nothing else that is shown there can be taken for an announcement: the
trace consists of whole lines, and those of a page or of the registers begin differently.

But the announcement is written before the step looks at the limit on instructions. A run that the
limit stops has therefore announced one instruction more than it executes, and no other run has.
-/

namespace PageMachine

open Text

/-- The name on a line that announces an instruction. -/
def announcedName? (line : String) : Option String :=
  (line.toList.dropPrefix? "Executing instruction: ".toList).map String.ofList

/-- The names of the instructions that the lines of a trace announce, in order. -/
def announced (trace : String) : List String :=
  (lines trace).filterMap announcedName?

/-- Whether a text holds no ends of lines. -/
def Unbroken (line : String) : Prop :=
  ∀ c ∈ line.toList, c ≠ '\n' ∧ c ≠ '\r'

namespace Unbroken

/-- Texts hold no ends of lines, one after the other, if neither holds any. -/
theorem append_iff {front back : String} :
    Unbroken (front ++ back) ↔ Unbroken front ∧ Unbroken back := by
  simp only [Unbroken, String.toList_append, List.forall_mem_append]

/-- A number in decimal. -/
theorem decimal (n : Nat) : Unbroken (toString n) := by
  intro c hc
  rw [Nat.toString_eq_ofList_toDigits, String.toList_ofList] at hc
  have hdigit := Nat.isDigit_of_mem_toDigits (by decide) (by decide) hc
  constructor <;> rintro rfl <;> simp [Char.isDigit] at hdigit

/-- A number in hexadecimal. -/
theorem hex (width n : Nat) : Unbroken (String.ofList (Text.hex width n)) := by
  intro c hc
  rw [String.toList_ofList, Text.hex] at hc
  have hplain := isPlain_of_mem_hexDigits hc
  constructor <;> rintro rfl <;> simp [isPlain, isBlank] at hplain

/-- A flag. -/
theorem flagDigit (flag : Bool) : Unbroken (MachineState.flagDigit flag) := by
  cases flag <;> simp [Unbroken, MachineState.flagDigit]

end Unbroken

/-- Whether a text consists of whole lines, which announce instructions with some names. -/
def Announces (text : String) (names : List String) : Prop :=
  ∃ texts, (∀ line ∈ texts, Unbroken line) ∧ text = unlines texts ∧
    texts.filterMap announcedName? = names

namespace Announces

variable {front back text : String} {names others : List String}

/-- Whole lines are read back as they are. -/
theorem announced_eq (h : Announces text names) : announced text = names := by
  obtain ⟨texts, hunbroken, rfl, rfl⟩ := h
  rw [announced, lines_unlines]
  intro line hline
  refine ⟨fun hc => (hunbroken line hline _ hc).1 rfl, dropReturn_eq_self fun hlast => ?_⟩
  exact (hunbroken line hline _ (List.mem_of_getLast? hlast)).2 rfl

/-- An empty text has no lines. -/
theorem empty : Announces "" [] :=
  ⟨[], by simp, rfl, rfl⟩

/-- What comes later is announced later. -/
theorem append (hfront : Announces front names) (hback : Announces back others) :
    Announces (front ++ back) (names ++ others) := by
  obtain ⟨texts, hunbroken, rfl, rfl⟩ := hfront
  obtain ⟨more, hmore, rfl, rfl⟩ := hback
  refine ⟨texts ++ more, fun line hline => ?_, ?_, List.filterMap_append⟩
  · exact (List.mem_append.mp hline).elim (hunbroken line) (hmore line)
  · simp [unlines, String.join_append]

/-- One line. -/
theorem line {line : String} (hunbroken : Unbroken line)
    (hname : (announcedName? line).toList = names) : Announces (line ++ "\n") names := by
  refine ⟨[line], by simpa using hunbroken, by simp [unlines, String.join], ?_⟩
  rw [← hname]
  cases h : announcedName? line <;> simp [h]

/-- A line that begins otherwise than an announcement. -/
theorem silent {line : String} (hunbroken : Unbroken line) (hfirst : line.toList.head? ≠ some 'E') :
    Announces (line ++ "\n") [] := by
  refine .line hunbroken ?_
  rw [announcedName?]
  cases hline : line.toList with
  | nil => rfl
  | cons c rest =>
    have hc : c ≠ 'E' := by simpa [hline] using hfirst
    simp [List.dropPrefix?, hc]

/-- Texts that announce nothing announce nothing, one after the other. -/
theorem join {texts : List String} (h : ∀ text ∈ texts, Announces text []) :
    Announces (String.join texts) [] := by
  induction texts with
  | nil => exact empty
  | cons text rest ih =>
    rw [String.join_cons]
    exact (h text List.mem_cons_self).append (ih fun other hother =>
      h other (List.mem_cons_of_mem _ hother))

end Announces

/-- A line of a page begins with its address. -/
theorem announces_rowText (memory : Memory) (start : Nat) :
    Announces (String.ofList (memory.rowText start)) [] := by
  have hhex (n : Nat) : ∀ c ∈ hex 4 n, c ≠ '\n' ∧ c ≠ '\r' := by
    simpa [Unbroken] using Unbroken.hex 4 n
  unfold Memory.rowText
  rw [String.ofList_append]
  refine .silent ?_ (by simp)
  intro c hc
  rw [String.toList_ofList] at hc
  simp only [List.cons_append, List.mem_cons, List.mem_append, List.mem_flatMap] at hc
  obtain rfl | rfl | hc | rfl | ⟨i, -, hc⟩ := hc
  · decide
  · decide
  · exact hhex _ c hc
  · decide
  · split at hc
    · obtain rfl | hc := List.mem_cons.mp hc
      · decide
      · exact hhex _ c hc
    · cases hc

/-- The lines of a page announce nothing. -/
theorem announces_pageText (memory : Memory) (page : Nat) :
    Announces (memory.pageText page) [] := by
  have htext : memory.pageText page = String.join ((List.range 64).map fun row =>
      String.ofList (memory.rowText (page * pageSize + 8 * row))) := by
    simp [Memory.pageText, ← String.toList_inj, String.toList_join, List.flatMap_map]
  rw [htext]
  refine .join fun text htext => ?_
  obtain ⟨row, -, rfl⟩ := List.mem_map.mp htext
  exact announces_rowText memory _

/-- The line of a register begins with its name. -/
theorem announces_registerLine (state : MachineState) (r : Register) :
    Announces (state.registerLine r) [] := by
  unfold MachineState.registerLine
  refine .silent ?_ (by simp)
  simp only [Unbroken.append_iff, Unbroken.decimal, Unbroken.hex, and_true]
  simp [Unbroken]

/-- The lines of the registers announce nothing. -/
theorem announces_render (state : MachineState) : Announces state.render [] := by
  have htext : state.render =
      ("Program Counter = 0x" ++ String.ofList (hex 4 state.pc.toNat) ++ "\n") ++
        String.join ((List.finRange 8).map state.registerLine) ++
        ("CCR: N = " ++ MachineState.flagDigit (state.condition == .negative) ++
          " Z = " ++ MachineState.flagDigit (state.condition == .zero) ++
          " P = " ++ MachineState.flagDigit (state.condition == .positive) ++ "\n") := by
    unfold MachineState.render
    simp only [String.append_assoc]
  have hpc : Announces ("Program Counter = 0x" ++ String.ofList (hex 4 state.pc.toNat) ++ "\n")
      [] := by
    refine .silent ?_ (by simp)
    simp only [Unbroken.append_iff, Unbroken.hex, and_true]
    simp [Unbroken]
  have hregisters : Announces (String.join ((List.finRange 8).map state.registerLine)) [] :=
    .join (by simpa using announces_registerLine state)
  rw [htext]
  refine (hpc.append hregisters).append (.silent ?_ (by simp))
  simp only [Unbroken.append_iff, Unbroken.flagDigit, and_true]
  simp [Unbroken]

namespace Machine

/-- What is shown of the machine announces nothing. -/
theorem announces_display (machine : Machine) : Announces machine.display [] :=
  (announces_pageText _ _).append (announces_render _)

/-- The announcement of an instruction names it. -/
theorem announces_announcement (machine : Machine) :
    Announces machine.announcement [machine.instruction.opcode.name] := by
  unfold announcement
  refine .line (Unbroken.append_iff.mpr ⟨by simp [Unbroken], ?_⟩) ?_
  · cases machine.instruction.opcode <;> simp [Unbroken, Opcode.name]
  · rw [announcedName?, String.toList_append, List.dropPrefix?_append_of_beq _ BEq.rfl]
    simp

section Executions

variable {σ : Type} [Console σ]

/-- The instruction that the next step fetches. A machine that has stopped fetches none, and neither
does one whose limit is reached. -/
def fetch? (machine : Machine) : Option Instruction :=
  if machine.runState = .running ∧ machine.limitReached? = none then some machine.instruction
  else none

/-- The instructions that a run executes within so many rounds, in order: those that its steps
fetch. -/
def executions (mode : RunMode) : (rounds : Nat) → Machine → σ → List Instruction
  | 0, _, _ => []
  | rounds + 1, machine, console =>
      if machine.runState = .running then
        match (machine.announce mode).run console with
        | (.error _, _) => []
        | (.ok (), shown) =>
            machine.fetch?.toList ++
              executions mode rounds (machine.step shown).2.1 (machine.step shown).2.2
      else []

/-- A step that fetches an instruction executes it with the program counter behind it. -/
theorem step_of_fetch? {machine : Machine} {i : Instruction} (h : machine.fetch? = some i)
    (console : σ) :
    machine.step console =
      match (machine.fetched.execute i machine.state.pc).run console with
      | (.ok done, after) => (.ok done.settle.runState, done.settle, after)
      | (.error alarm, after) => (.error alarm, machine.fetched.fault, after) := by
  simp only [fetch?, Option.ite_none_right_eq_some, Option.some.injEq] at h
  obtain ⟨⟨hrunning, hlimit⟩, rfl⟩ := h
  rw [step, if_neg (not_not.mpr hrunning)]
  split
  · next hreached => cases hlimit.symm.trans hreached
  · rfl

/-- A step counts the instruction that it fetches, and no other. -/
theorem executed_step_eq (machine : Machine) (console : σ) :
    (machine.step console).2.1.executed = machine.executed + machine.fetch?.toList.length := by
  have hstepped := machine.stepped_step console
  generalize machine.step console = result at hstepped
  cases hstepped with
  | stays hstate => simp [fetch?, hstate]
  | limited limit hstate hlimit => simp [fetch?, hlimit, fault]
  | done done _ hstate hlimit hrun =>
    rw [executed_settle, (sameRun_execute _ _ _ hrun).executed]
    simp [fetch?, hstate, hlimit, fetched]
  | failed _ _ hstate hlimit => simp [fetch?, hstate, hlimit, fetched, fault]

/-- A machine that has stopped executes nothing. -/
theorem executions_of_not_running {machine : Machine} (h : machine.runState ≠ .running)
    (mode : RunMode) (rounds : Nat) (console : σ) :
    machine.executions mode rounds console = [] := by
  cases rounds with
  | zero => rfl
  | succ rounds => rw [executions, if_neg h]

/-- A machine that an alarm has stopped executes nothing. -/
theorem executions_fault (machine : Machine) (mode : RunMode) (rounds : Nat) (console : σ) :
    machine.fault.executions mode rounds console = [] :=
  executions_of_not_running (show machine.fault.runState ≠ .running from nofun) mode rounds console

/-- A step that raises an alarm stops the machine. -/
theorem not_running_of_step_error {machine stopped : Machine} {console rest : σ} {alarm : Alarm}
    (h : machine.step console = (.error alarm, stopped, rest)) : stopped.runState ≠ .running := by
  obtain ⟨limit, -, rfl, -⟩ | ⟨-, rfl⟩ := stopped_of_step_error h <;> exact nofun

/-- A run counts the instructions that it executes, however far it comes. -/
theorem executed_runFor_eq (machine : Machine) (mode : RunMode) (rounds : Nat) (console : σ) :
    (machine.runFor mode rounds console).2.1.executed =
      machine.executed + (machine.executions mode rounds console).length := by
  induction rounds generalizing machine console with
  | zero => rfl
  | succ rounds ih =>
    rw [runFor, executions]
    split
    · rw [round]
      rcases (machine.announce mode).run console with ⟨alarm | ⟨⟩, shown⟩
      · rfl
      · dsimp only
        rw [List.length_append, ← Nat.add_assoc, ← machine.executed_step_eq shown]
        rcases hstep : machine.step shown with ⟨alarm | state, next, after⟩
        · simp [executions_of_not_running (not_running_of_step_error hstep)]
        · exact ih next after
    · split <;> rfl

end Executions

/-- Whether two consoles are the same, with a text as their trace. -/
def Traced (text : String) (one other : BufferConsole) : Prop :=
  one = other ∧ one.trace = text

/-- A step writes nothing into the trace. -/
theorem trace_step (machine : Machine) (console : BufferConsole) :
    (machine.step console).2.2.trace = console.trace := by
  have hwrites (bytes : ByteArray) :
      Execution.RespectsCall (Traced console.trace) (Console.writeBytes bytes) := by
    rintro one _ ⟨rfl, htrace⟩
    exact ⟨_, _, _, rfl, rfl, rfl, htrace⟩
  have hreads : Console.ReadsAlike (Traced console.trace) := by
    constructor <;>
    · rintro ⟨input, output, trace⟩ _ ⟨rfl, htrace⟩
      cases input <;> exact ⟨_, _, _, rfl, rfl, rfl, htrace⟩
  exact (sameOutcome_step hwrites (fun _ => hreads) ⟨rfl, rfl⟩).console.2

/-- A console on which the machine and its next instruction were shown. -/
def shownOn (machine : Machine) (console : BufferConsole) : BufferConsole :=
  (console.writeTrace machine.display).writeTrace machine.announcement

/-- Before a step of a traced run the machine is shown. -/
theorem announce_trace (machine : Machine) (console : BufferConsole) :
    (machine.announce .trace).run console = (.ok (), machine.shownOn console) :=
  rfl

/-- A traced round announces the next instruction, whether it is executed then or not. -/
theorem announces_step {console : BufferConsole} {names : List String}
    (h : Announces console.trace names) (machine : Machine) :
    Announces (machine.step (machine.shownOn console)).2.2.trace
      (names ++ [machine.instruction.opcode.name]) := by
  have htrace : (machine.shownOn console).trace =
    console.trace ++ machine.display ++ machine.announcement := rfl
  rw [trace_step, htrace]
  simpa using (h.append machine.announces_display).append machine.announces_announcement

/-- The instruction that a run has announced without executing it: the next one, if it was the limit
that stopped the machine. -/
def refused : Option (Except Alarm MachineState) → Machine → List Instruction
  | some (.error (.limitReached _)), last => [last.instruction]
  | _, _ => []

/-- Nothing is announced on a new console. -/
theorem announces_ofInput (input : List UInt8) : Announces (BufferConsole.ofInput input).trace [] :=
  .empty

/-- A traced run announces, behind what was announced before, the instructions that it executes and
the one that its limit refuses it. -/
theorem announces_runFor {console : BufferConsole} {names : List String}
    (h : Announces console.trace names) (machine : Machine) (rounds : Nat) :
    Announces (machine.runFor .trace rounds console).2.2.trace
      (names ++ (machine.executions .trace rounds console ++
        refused (machine.runFor .trace rounds console).1
          (machine.runFor .trace rounds console).2.1).map (·.opcode.name)) := by
  induction rounds generalizing machine console names with
  | zero => simpa [runFor, executions, refused] using h
  | succ rounds ih =>
    rw [runFor, executions, round, announce_trace]
    split
    · next hrunning =>
      have hnext := announces_step h machine
      have hstepped := machine.stepped_step (machine.shownOn console)
      dsimp only
      generalize machine.step (machine.shownOn console) = result at hstepped hnext ⊢
      cases hstepped with
      | stays hstate => exact absurd hrunning hstate
      | limited limit _ hlimit =>
        have hsame : machine.fault.instruction = machine.instruction := rfl
        simpa [fetch?, hlimit, executions_fault, refused, hsame] using hnext
      | done done after _ hlimit =>
        simpa [fetch?, hrunning, hlimit] using ih hnext _
      | failed alarm after _ hlimit hrun =>
        have hrefused : refused (some (.error alarm)) machine.fetched.fault = [] := by
          have halarm := (InPlace.agrees_fetched machine).alarm hrun
          cases alarm with
          | limitReached => exact halarm.elim
          | unknownTrap | writeOutOfRange | console => rfl
        simpa [fetch?, hrunning, hlimit, executions_fault, hrefused] using hnext
    · have hconclude : (machine.conclude .trace).run console =
        (.ok machine.state, console.writeTrace machine.display) := rfl
      have htrace : (console.writeTrace machine.display).trace =
        console.trace ++ machine.display := rfl
      rw [hconclude, htrace]
      simpa [refused] using h.append machine.announces_display

/-- A traced run of a new machine that has ended counts the instructions that it has executed. Its
trace announces exactly these, in order, unless the limit has stopped it. In that case it announces
one more: the instruction that would have come next. -/
theorem announced_of_runFor {memory : Memory} {start : Word} {seed : BitVec 64}
    {limit : Option Nat} {input : List UInt8} {rounds : Nat}
    {result : Except Alarm MachineState} {last : Machine} {rest : BufferConsole}
    (h : ((initial memory start seed).withLimit limit).runFor .trace rounds (.ofInput input) =
      (some result, last, rest)) :
    let executed := ((initial memory start seed).withLimit limit).executions .trace rounds
      (BufferConsole.ofInput input)
    last.executed = executed.length ∧
      ((¬∃ allowed, result = .error (.limitReached allowed)) →
        announced rest.trace = executed.map (·.opcode.name)) ∧
      ((∃ allowed, result = .error (.limitReached allowed)) →
        announced rest.trace =
          executed.map (·.opcode.name) ++ [last.instruction.opcode.name]) := by
  intro executed
  have hcount := ((initial memory start seed).withLimit limit).executed_runFor_eq .trace rounds
    (BufferConsole.ofInput input)
  have hnames := (announces_runFor (announces_ofInput input)
    ((initial memory start seed).withLimit limit) rounds).announced_eq
  rw [h] at hcount hnames
  refine ⟨hcount.trans (Nat.zero_add _), fun hfree => ?_, ?_⟩
  · have hrefused : refused (some result) last = [] := by
      rw [refused]
      rintro allowed ⟨⟩
      exact hfree ⟨allowed, rfl⟩
    rw [hnames, hrefused, List.nil_append, List.append_nil]
  · rintro ⟨allowed, rfl⟩
    rw [hnames, refused, List.nil_append, List.map_append]
    rfl

/-- A machine that adds and halts is announced so if it is allowed two instructions. If it is
allowed only one, the trace is the same, and the halt was not executed. -/
theorem announced_of_runFor_counting :
    (∃ result last rest,
        ((initial counting 0 1).withLimit (some 2)).runFor .trace 3 (BufferConsole.ofInput []) =
            (some result, last, rest) ∧
          announced rest.trace = ["Add", "Trap"] ∧ last.executed = 2) ∧
      ∃ result last rest,
        ((initial counting 0 1).withLimit (some 1)).runFor .trace 3 (BufferConsole.ofInput []) =
            (some result, last, rest) ∧
          announced rest.trace = ["Add", "Trap"] ∧ last.executed = 1 := by
  have hhalted : (((initial counting 0 1).withLimit (some 2)).runFor .trace 3
      (BufferConsole.ofInput [])).1 = some (.ok _) := rfl
  have hstopped : (((initial counting 0 1).withLimit (some 1)).runFor .trace 3
      (BufferConsole.ofInput [])).1 = some (.error (.limitReached 1)) := rfl
  obtain ⟨hcount, hnames, -⟩ := announced_of_runFor (Prod.ext hhalted rfl)
  obtain ⟨hless, -, hmore⟩ := announced_of_runFor (Prod.ext hstopped rfl)
  refine ⟨⟨_, _, _, Prod.ext hhalted rfl, ?_, ?_⟩, _, _, _, Prod.ext hstopped rfl, ?_, ?_⟩
  · rw [hnames (by rintro ⟨allowed, ⟨⟩⟩)]
    decide +kernel
  · rw [hcount]
    decide +kernel
  · rw [hmore ⟨1, rfl⟩]
    decide +kernel
  · rw [hless]
    decide +kernel

/-- A machine that may execute nothing announces its first instruction all the same. -/
theorem exists_unexecuted_announcement :
    ¬∀ (memory : Memory) (start : Word) (seed : BitVec 64) (limit : Option Nat)
        (input : List UInt8) (rounds : Nat) (result : Except Alarm MachineState) (last : Machine)
        (rest : BufferConsole),
      ((initial memory start seed).withLimit limit).runFor .trace rounds (.ofInput input) =
          (some result, last, rest) →
        announced rest.trace =
            (((initial memory start seed).withLimit limit).executions .trace rounds
              (BufferConsole.ofInput input)).map (·.opcode.name) ∧
          (announced rest.trace).length = last.executed := by
  intro halways
  let run := (halting.withLimit (some 0)).runFor .trace 1 (BufferConsole.ofInput [])
  have hstopped : run.1 = some (.error (.limitReached 0)) := rfl
  obtain ⟨-, hlength⟩ :=
    halways halting.memory 0 1 (some 0) [] 1 _ run.2.1 run.2.2 (Prod.ext hstopped rfl)
  have hnames : announced run.2.2.trace = _ :=
    (announces_runFor (announces_ofInput []) (halting.withLimit (some 0)) 1).announced_eq
  rw [hnames] at hlength
  exact absurd hlength (by decide +kernel)

end Machine

end PageMachine
