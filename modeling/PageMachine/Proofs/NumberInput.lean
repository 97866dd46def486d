import PageMachine.Proofs.AnnouncedRun
import PageMachine.Proofs.LineInput
import PageMachine.Proofs.NumeralGrammar

/-!
# Numbers from the console

A program that asks for numbers takes its input line by line. A line ends with its line feed, which
it contains, or where the input ends; that a loop over single bytes finds the same line is
`BufferConsole.readsLine_iff`. Each trap that asks for a number takes the first line that is left,
whatever stands in it, and nothing else takes any input as long as no bytes are asked for, so that
the trap that was executed as the k-th takes line k. What it leaves in register 0 depends on this
line alone: the low bits of the number that the line is a numeral for, or zero, with a complaint if
there was a line.

Runs in steps take bytes of the input between the instructions and are left out.
-/

namespace PageMachine

open Text

/-- How input is divided into lines: behind each line feed, and at the end if something is left. -/
inductive IsLines : List (List UInt8) → List UInt8 → Prop
  | nil : IsLines [] []
  | last {line : List UInt8} (hne : line ≠ []) (hfeed : 10 ∉ line) : IsLines [line] line
  | cons {line input : List UInt8} {lines : List (List UInt8)} (hfeed : 10 ∉ line)
      (h : IsLines lines input) : IsLines ((line ++ [10]) :: lines) (line ++ 10 :: input)

/-- A line without a certain byte at its end. -/
def withoutEnd (byte : UInt8) (line : List UInt8) : List UInt8 :=
  if line.getLast? = some byte then line.dropLast else line

/-- The characters of a line, without its line feed and a carriage return in front of that. -/
def enteredText (line : List UInt8) : List Char :=
  decode (withoutEnd 13 (withoutEnd 10 line))

/-- What becomes of a line that was asked for, or of the end of the input: a word, and what is
written about it. -/
inductive Answers : Option (List UInt8) → Word → String → Prop
  | number {line : List UInt8} {value : Int} (h : IsSignedNumeral (trim (enteredText line)) value)
      (hlow : -2147483648 ≤ value) (hhigh : value ≤ 2147483647) :
      Answers (some line) (BitVec.ofInt 16 value) ""
  | refused {line : List UInt8} (h : ∀ value, IsSignedNumeral (trim (enteredText line)) value →
      ¬(-2147483648 ≤ value ∧ value ≤ 2147483647)) :
      Answers (some line) 0 "Input by user was not a number.\n"
  | ended : Answers none 0 ""

namespace IsLines

variable {lines : List (List UInt8)} {input : List UInt8}

/-- Nothing is lost between the lines. -/
theorem flatten_eq (h : IsLines lines input) : lines.flatten = input := by
  induction h with
  | nil => rfl
  | last => simp
  | cons _ _ ih => simp [ih]

/-- The lines behind the first are those of the input behind it. -/
theorem tail (h : IsLines lines input) : IsLines lines.tail lines.tail.flatten := by
  cases h with
  | nil => exact .nil
  | last => exact .nil
  | cons _ hrest =>
    rw [List.tail_cons, hrest.flatten_eq]
    exact hrest

end IsLines

/-- What stands in front of the first line feed is cut off. -/
theorem cutLine_append {line : List UInt8} (hfeed : 10 ∉ line) (rest : List UInt8) :
    cutLine (line ++ 10 :: rest) = (line, rest) := by
  induction line with
  | nil => rfl
  | cons byte line ih =>
    rw [List.mem_cons, not_or] at hfeed
    rw [List.cons_append, cutLine, if_neg (Ne.symm hfeed.1), ih hfeed.2]

/-- Without a line feed everything is cut off. -/
theorem cutLine_eq_self {line : List UInt8} (hfeed : 10 ∉ line) : cutLine line = (line, []) := by
  induction line with
  | nil => rfl
  | cons byte line ih =>
    rw [List.mem_cons, not_or] at hfeed
    rw [cutLine, if_neg (Ne.symm hfeed.1), ih hfeed.2]

/-- The lines of an input are those that are cut off it. -/
theorem IsLines.unique {lines others : List (List UInt8)} {input : List UInt8}
    (h : IsLines lines input) (hother : IsLines others input) : others = lines := by
  induction h generalizing others with
  | nil =>
    generalize hinput : ([] : List UInt8) = input at hother
    cases hother with
    | nil => rfl
    | last hne => exact absurd hinput.symm hne
    | cons => simp at hinput
  | @last line hne hfeed =>
    generalize hinput : line = input at hother
    cases hother with
    | nil => exact absurd hinput hne
    | last => rfl
    | cons => simp [hinput] at hfeed
  | @cons line rest lines hfeed _ ih =>
    generalize hinput : line ++ 10 :: rest = input at hother
    cases hother with
    | nil => simp at hinput
    | last _ hnone => simp [← hinput] at hnone
    | cons hfirst hothers =>
      have hcut := congrArg cutLine hinput
      rw [cutLine_append hfeed, cutLine_append hfirst] at hcut
      obtain ⟨rfl, rfl⟩ := Prod.mk.inj hcut
      rw [ih hothers]

/-- Every input has lines. -/
theorem exists_isLines (input : List UInt8) : ∃ lines, IsLines lines input := by
  induction input with
  | nil => exact ⟨[], .nil⟩
  | cons byte input ih =>
    obtain ⟨lines, hlines⟩ := ih
    by_cases hbyte : byte = 10
    · have hempty : IsLines ([10] :: lines) (10 :: input) := .cons List.not_mem_nil hlines
      exact ⟨_, hbyte ▸ hempty⟩
    · cases hlines with
      | nil => exact ⟨_, .last (by simp) (by simpa using Ne.symm hbyte)⟩
      | last hne hfeed => exact ⟨_, .last (by simp) (by simp [Ne.symm hbyte, hfeed])⟩
      | @cons line input lines hfeed hrest =>
        have hlonger : 10 ∉ byte :: line := by simp [Ne.symm hbyte, hfeed]
        exact ⟨_, .cons hlonger hrest⟩

/-- A number is on a line exactly if the line is a numeral for one of 32 bits, but for blanks. -/
theorem numberOnLine?_eq_some_iff {line : String} {word : Word} :
    numberOnLine? line = some word ↔ ∃ value, (IsSignedNumeral (trim line.toList) value ∧
      -2147483648 ≤ value ∧ value ≤ 2147483647) ∧ word = BitVec.ofInt 16 value := by
  simp only [← readInt32_eq_ok_iff]
  unfold numberOnLine?
  cases readInt32 (trim line.toList) <;> simp [eq_comm]

/-- A line with a number is answered by it. -/
theorem answers_of_some {line : List UInt8} {word : Word}
    (h : numberOnLine? (String.ofList (enteredText line)) = some word) :
    Answers (some line) word "" := by
  obtain ⟨value, ⟨hnumeral, hlow, hhigh⟩, rfl⟩ := numberOnLine?_eq_some_iff.mp h
  rw [String.toList_ofList] at hnumeral
  exact .number hnumeral hlow hhigh

/-- A line on which no number can be read is refused. -/
theorem answers_of_none {line : List UInt8}
    (h : numberOnLine? (String.ofList (enteredText line)) = none) :
    Answers (some line) 0 "Input by user was not a number.\n" := by
  refine .refused fun value hnumeral hrange => ?_
  have hsome : numberOnLine? (String.ofList (enteredText line)) = some (BitVec.ofInt 16 value) := by
    rw [numberOnLine?_eq_some_iff, String.toList_ofList]
    exact ⟨value, ⟨hnumeral, hrange⟩, rfl⟩
  cases h.symm.trans hsome

/-- A line has one answer. -/
theorem Answers.unique {line? : Option (List UInt8)} {value other : Word} {complaint remark : String}
    (h : Answers line? value complaint) (hother : Answers line? other remark) :
    other = value ∧ remark = complaint := by
  cases h with
  | number hnumeral hlow hhigh =>
    cases hother with
    | number hagain hlow' hhigh' =>
      have hread := readInt32_eq_ok_iff.mpr ⟨hnumeral, hlow, hhigh⟩
      have hsame := hread.symm.trans (readInt32_eq_ok_iff.mpr ⟨hagain, hlow', hhigh'⟩)
      rw [Except.ok.inj hsame]
      exact ⟨rfl, rfl⟩
    | refused hnone => exact absurd ⟨hlow, hhigh⟩ (hnone _ hnumeral)
  | refused hnone =>
    cases hother with
    | number hnumeral hlow hhigh => exact absurd ⟨hlow, hhigh⟩ (hnone _ hnumeral)
    | refused => exact ⟨rfl, rfl⟩
  | ended =>
    cases hother
    exact ⟨rfl, rfl⟩

namespace BufferConsole

/-- Where input is left, a line is cut off it. -/
theorem readLine_of_ne_nil {console : BufferConsole} (h : console.input ≠ []) :
    console.readLine = (some (lineText (cutLine console.input).1),
      { console with input := (cutLine console.input).2 }) := by
  obtain ⟨input, output, trace⟩ := console
  obtain ⟨byte, rest, rfl⟩ := List.exists_cons_of_ne_nil h
  rfl

/-- The line that is read is the first, and the others are left. -/
theorem readLine_eq {console : BufferConsole} {lines : List (List UInt8)}
    (h : IsLines lines console.input) :
    console.readLine = (lines.head?.map fun line => String.ofList (enteredText line),
      { console with input := lines.tail.flatten }) := by
  obtain ⟨input, output, trace⟩ := console
  cases h with
  | nil => rfl
  | last hne hfeed =>
    have hwhole : withoutEnd 10 input = input :=
      if_neg fun hlast => hfeed (List.mem_of_getLast? hlast)
    rw [readLine_of_ne_nil hne]
    simp only [cutLine_eq_self hfeed, List.head?_cons, Option.map_some, enteredText, hwhole]
    rfl
  | @cons line rest lines hfeed hrest =>
    have hwhole : withoutEnd 10 (line ++ [10]) = line := by
      simp [withoutEnd]
    change readLine ⟨line ++ 10 :: rest, output, trace⟩ = _
    rw [readLine_of_ne_nil (by simp)]
    simp only [cutLine_append hfeed, List.head?_cons, Option.map_some, enteredText, hwhole,
      List.tail_cons, hrest.flatten_eq]
    rfl

end BufferConsole

namespace Instruction

/-- Whether an instruction is the trap that asks for a number. -/
def AsksNumber (i : Instruction) : Prop :=
  i.word.toNat / 4096 = 15 ∧ i.word.toNat % 256 = 0x33

/-- Whether an instruction is the trap that asks for a byte. -/
def AsksByte (i : Instruction) : Prop :=
  i.word.toNat / 4096 = 15 ∧ i.word.toNat % 256 = 0x23

instance (i : Instruction) : Decidable i.AsksNumber :=
  inferInstanceAs (Decidable (_ ∧ _))

instance (i : Instruction) : Decidable i.AsksByte :=
  inferInstanceAs (Decidable (_ ∧ _))

/-- An instruction that asks for input asks for a byte or for a number. -/
theorem asksByte_or_asksNumber {i : Instruction} (h : i.AsksInput) : i.AsksByte ∨ i.AsksNumber := by
  obtain ⟨hopcode, hvector⟩ := h
  have hnumber : i.word.toNat / 4096 = 15 := by
    rw [← i.number_opcode, hopcode]
    rfl
  refine hvector.imp (fun hvector => ⟨hnumber, ?_⟩) fun hvector => ⟨hnumber, ?_⟩ <;>
  · rw [← i.toNat_trapVector, hvector]
    rfl

end Instruction

/-- Whether a step asks for a number and is answered by a line, or by the end of the input. It takes
the line off the input, writes the prompt and any complaint, and does nothing but set register 0. -/
inductive Machine.ReadsNumber (machine : Machine) (console : BufferConsole)
    (line? : Option (List UInt8)) (unread : List UInt8) : Prop
  | intro (after : Machine) (value : Word) (complaint : String)
      (hanswers : Answers line? value complaint)
      (hinput : line?.getD [] ++ unread = console.input)
      (hstep : machine.step console = (.ok after.runState, after,
        ⟨unread, console.output ++ "d? ".toUTF8 ++ complaint.toUTF8, console.trace⟩))
      (hturns : Effect.Turns { change := .result 0 value, next := machine.following } machine after)

namespace Machine

variable {machine : Machine} {console : BufferConsole} {lines : List (List UInt8)}

/-- The trap that asks for a number is answered by the first line. -/
theorem exists_run_readNumber (machine : Machine) (hlines : IsLines lines console.input) :
    ∃ value complaint, Answers lines.head? value complaint ∧
      (machine.serve .readNumber).run console = (.ok (machine.setRegister 0 value),
        ⟨lines.tail.flatten, console.output ++ "d? ".toUTF8 ++ complaint.toUTF8,
          console.trace⟩) := by
  let asked := console.writeBytes "d? ".toUTF8
  have hleft : IsLines lines asked.input := hlines
  have hprompt : Console.writeBytes "d? ".toUTF8 console = (.ok (), asked) := rfl
  have hcall : Console.readLine asked = (.ok (lines.head?.map fun line =>
      String.ofList (enteredText line)), { asked with input := lines.tail.flatten }) := by
    change (Except.ok asked.readLine.1, asked.readLine.2) = _
    rw [BufferConsole.readLine_eq hleft]
  have hquiet : ∀ bytes : ByteArray, bytes ++ "".toUTF8 = bytes := fun bytes => by simp
  rw [serve]
  simp only [Execution.write]
  rw [Execution.run_call_bind _ hprompt, Execution.run_call_bind _ hcall]
  cases lines.head? with
  | none =>
    refine ⟨0, "", .ended, ?_⟩
    rw [hquiet]
    rfl
  | some line =>
    rw [Option.map_some]
    cases hnumber : numberOnLine? (String.ofList (enteredText line)) with
    | some value =>
      refine ⟨value, "", answers_of_some hnumber, ?_⟩
      rw [hquiet]
      simp only [hnumber]
      rfl
    | none =>
      refine ⟨0, _, answers_of_none hnumber, ?_⟩
      simp only [hnumber]
      rfl

/-- A step that asks for a number is answered by the first line. -/
theorem readsNumber_step (hlines : IsLines lines console.input) {i : Instruction}
    (hfetch : machine.fetch? = some i) (hasks : i.AsksNumber) :
    machine.ReadsNumber console lines.head? lines.tail.flatten := by
  obtain ⟨value, complaint, hanswers, hrun⟩ := machine.fetched.exists_run_readNumber hlines
  refine ⟨(machine.fetched.setRegister 0 value).settle, value, complaint, hanswers, ?_, ?_,
    turns_settle (machine.turns_setRegister 0 value)⟩
  · rw [← hlines.flatten_eq]
    cases lines <;> rfl
  · rw [step_of_fetch? hfetch, machine.fetched.execute_eq_serve .readNumber hasks.1 hasks.2, hrun]

/-- A step that asks for nothing takes no input. -/
theorem input_step (h : ∀ i ∈ machine.fetch?, ¬i.AsksInput) :
    (machine.step console).2.2.input = console.input := by
  let rel (one other : BufferConsole) : Prop := one = other ∧ one.input = console.input
  have hwrites (bytes : ByteArray) : Execution.RespectsCall rel (Console.writeBytes bytes) := by
    rintro one _ ⟨rfl, hinput⟩
    exact ⟨_, _, _, rfl, rfl, rfl, hinput⟩
  have hasks : ¬machine.AsksNext := fun ⟨hrunning, hlimit, hasks⟩ =>
    h machine.instruction (if_pos ⟨hrunning, hlimit⟩) hasks
  have hsame := sameOutcome_step hwrites (fun hnext => absurd hnext hasks)
    (show rel console console from ⟨rfl, rfl⟩)
  exact hsame.console.2

/-- A step leaves the lines that it does not take. -/
theorem isLines_step (hlines : IsLines lines console.input)
    (hbytes : ∀ i ∈ machine.fetch?.toList, ¬i.AsksByte) :
    IsLines (lines.drop (machine.fetch?.toList.countP (·.AsksNumber)))
      (machine.step console).2.2.input := by
  by_cases hnumber : ∃ i, machine.fetch? = some i ∧ i.AsksNumber
  · obtain ⟨i, hfetch, hasks⟩ := hnumber
    obtain ⟨after, _, _, -, -, hstep, -⟩ := readsNumber_step hlines hfetch hasks
    rw [hstep, hfetch, Option.toList_some, List.countP_singleton, if_pos (decide_eq_true hasks),
      List.drop_one]
    exact hlines.tail
  · have hnone : ∀ i ∈ machine.fetch?, ¬i.AsksNumber := fun i hi hasks => hnumber ⟨i, hi, hasks⟩
    have hcount : machine.fetch?.toList.countP (·.AsksNumber) = 0 := by
      rw [List.countP_eq_zero]
      intro i hi
      simpa using hnone i (Option.mem_toList.mp hi)
    rw [hcount, List.drop_zero, input_step]
    · exact hlines
    · intro i hi hasks
      rcases Instruction.asksByte_or_asksNumber hasks with hasks | hasks
      · exact hbytes i (Option.mem_toList.mpr hi) hasks
      · exact hnone i hi hasks

/-- Showing the machine takes no input. -/
theorem exists_run_announce (machine : Machine) {mode : RunMode} (hmode : mode ≠ .step)
    (console : BufferConsole) :
    ∃ shown, (machine.announce mode).run console = (.ok (), shown) ∧
      shown.input = console.input := by
  cases mode with
  | quiet => exact ⟨_, rfl, rfl⟩
  | trace => exact ⟨_, machine.announce_trace console, rfl⟩
  | step => exact absurd rfl hmode

/-- Showing a machine at the end of a run reads no line. -/
theorem exists_run_conclude (machine : Machine) (mode : RunMode) (console : BufferConsole) :
    ∃ shown, (machine.conclude mode).run console = (.ok machine.state, shown) ∧
      shown.input = console.input := by
  cases mode <;> exact ⟨_, rfl, rfl⟩

/-- A run that asks for no bytes leaves the lines behind as many as it asked for numbers. -/
theorem isLines_runFor (hlines : IsLines lines console.input) {mode : RunMode}
    (hmode : mode ≠ .step) {rounds : Nat}
    (hbytes : ∀ i ∈ machine.executions mode rounds console, ¬i.AsksByte) :
    IsLines (lines.drop ((machine.executions mode rounds console).countP (·.AsksNumber)))
      (machine.runFor mode rounds console).2.2.input := by
  induction rounds generalizing machine console lines with
  | zero => exact hlines
  | succ rounds ih =>
    rw [executions] at hbytes ⊢
    rw [runFor]
    split
    · next hrunning =>
      obtain ⟨shown, hannounce, hinput⟩ := machine.exists_run_announce hmode console
      rw [if_pos hrunning, hannounce] at hbytes
      rw [round, hannounce]
      dsimp only at hbytes ⊢
      rw [List.forall_mem_append] at hbytes
      have hnext := isLines_step (hinput ▸ hlines) hbytes.1
      rw [List.countP_append, ← List.drop_drop]
      rcases hstep : machine.step shown with ⟨alarm | state, next, after⟩
      · rw [hstep] at hnext
        rw [executions_of_not_running (not_running_of_step_error hstep)]
        exact hnext
      · rw [hstep] at hnext hbytes
        exact ih hnext hbytes.2
    · obtain ⟨shown, hconclude, hinput⟩ := machine.exists_run_conclude mode console
      rw [hconclude]
      exact hinput ▸ hlines

/-- The input of a console is divided into lines in one way. When a run that asks for no bytes comes
to a trap that asks for a number, and has asked for some numbers before, then these have taken as
many lines, and the trap takes the next. Register 0 becomes what this line is answered with. A run of
no rounds says so of every machine and console, for the first line that is left. -/
theorem readsNumber_of_runFor (console : BufferConsole) :
    (∃! lines, IsLines lines console.input) ∧
    ∀ lines, IsLines lines console.input → ∀ (machine : Machine) (mode : RunMode) (rounds : Nat),
      mode ≠ .step → (∀ i ∈ machine.executions mode rounds console, ¬i.AsksByte) →
        let asked := (machine.executions mode rounds console).countP (·.AsksNumber)
        let reached := machine.runFor mode rounds console
        (lines.take asked).flatten ++ reached.2.2.input = console.input ∧
          ∀ i, reached.2.1.fetch? = some i → i.AsksNumber →
            reached.2.1.ReadsNumber reached.2.2 lines[asked]?
              (lines.drop (asked + 1)).flatten := by
  refine ⟨?_, fun lines hlines machine mode rounds hmode hbytes => ?_⟩
  · obtain ⟨lines, hlines⟩ := exists_isLines console.input
    exact ⟨lines, hlines, fun others hothers => hlines.unique hothers⟩
  · intro asked reached
    have hleft : IsLines (lines.drop asked) reached.2.2.input :=
      isLines_runFor hlines hmode hbytes
    constructor
    · rw [← hleft.flatten_eq, ← List.flatten_append, List.take_append_drop, hlines.flatten_eq]
    · intro i hfetch hasks
      have hreads := readsNumber_step hleft hfetch hasks
      rwa [List.head?_drop, List.tail_drop] at hreads

/-- A machine that asks for three numbers. -/
def interviewing : Machine :=
  (((initial .empty 0 1).storeWord 0 0xF033).storeWord 1 0xF033).storeWord 2 0xF033

/-- Two lines, the number -70000 with a carriage return and something else. -/
def enteredLines : List (List UInt8) :=
  [[45, 55, 48, 48, 48, 48, 13, 10], [110, 111]]

/-- The entered lines are the lines of their bytes. -/
theorem isLines_enteredLines : IsLines enteredLines enteredLines.flatten := by
  have hlines : IsLines (([45, 55, 48, 48, 48, 48, 13] ++ [10]) :: [[110, 111]])
      ([45, 55, 48, 48, 48, 48, 13] ++ 10 :: [110, 111]) :=
    .cons (by decide) (.last (by decide) (by decide))
  exact hlines

/-- The first number is cut to a word, the second line is refused, and then the input has ended. -/
theorem readsNumber_interviewing :
    let console := BufferConsole.ofInput enteredLines.flatten
    let reached (rounds : Nat) := interviewing.runFor .quiet rounds console
    (∃ after rest, interviewing.step console = (.ok after.runState, after, rest) ∧
        after.register 0 = 0xEE90 ∧ after.state.condition = .negative ∧ rest.input = [110, 111]) ∧
      (reached 1).2.1.ReadsNumber (reached 1).2.2 (some [110, 111]) [] ∧
      Answers (some [110, 111]) 0 "Input by user was not a number.\n" ∧
      (reached 2).2.1.ReadsNumber (reached 2).2.2 none [] := by
  intro console reached
  have hspec := (readsNumber_of_runFor console).2 enteredLines isLines_enteredLines interviewing
    .quiet
  refine ⟨?_, ?_, ?_, ?_⟩
  · obtain ⟨-, hreads⟩ := hspec 0 (by decide) (by decide +kernel)
    obtain ⟨after, value, complaint, hanswers, -, hstep, hturns⟩ :=
      hreads ⟨0xF033⟩ (by decide +kernel) (by decide +kernel)
    have hnumber : Answers (some [45, 55, 48, 48, 48, 48, 13, 10]) 0xEE90 "" :=
      answers_of_some (by decide +kernel)
    obtain ⟨rfl, rfl⟩ := hnumber.unique hanswers
    exact ⟨after, _, hstep, hturns.register 0, hturns.condition, rfl⟩
  · obtain ⟨-, hreads⟩ := hspec 1 (by decide) (by decide +kernel)
    have hasked : (interviewing.executions .quiet 1 console).countP (·.AsksNumber) = 1 := by
      decide +kernel
    rw [hasked] at hreads
    exact hreads ⟨0xF033⟩ (by decide +kernel) (by decide +kernel)
  · exact answers_of_none (by decide +kernel)
  · obtain ⟨-, hreads⟩ := hspec 2 (by decide) (by decide +kernel)
    have hasked : (interviewing.executions .quiet 2 console).countP (·.AsksNumber) = 2 := by
      decide +kernel
    rw [hasked] at hreads
    exact hreads ⟨0xF033⟩ (by decide +kernel) (by decide +kernel)

end Machine

end PageMachine
