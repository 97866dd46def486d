import PageMachine.Console.Scripted

/-!
# Lines read byte by byte

A line of input is what a loop over single bytes finds: it stops at a line feed, at the end of the
input, or at a fault, and after a fault the bytes that it has read are gone. `ReadsLine` is this
loop, for any console. The consoles here cut a line off their input at once. That is the same, in
the result and in the console that is left, so nothing that reads lines depends on how they are
read.
-/

namespace PageMachine

/-- The loop that reads a line: with some bytes of the line read already, it ends on a console with
a result and another console. -/
inductive ReadsLine {σ : Type} [Console σ] :
    List UInt8 → σ → Except ConsoleFault (Option String) × σ → Prop
  /-- A fault is passed on. -/
  | fault {line : List UInt8} {console next : σ} {fault : ConsoleFault}
      (h : Console.readByte console = (.error fault, next)) :
      ReadsLine line console (.error fault, next)
  /-- At the end of the input there is no line, if nothing of it was read. -/
  | nothing {console next : σ} (h : Console.readByte console = (.ok none, next)) :
      ReadsLine [] console (.ok none, next)
  /-- Otherwise the line ends with the input. -/
  | ended {line : List UInt8} {console next : σ} (hline : line ≠ [])
      (h : Console.readByte console = (.ok none, next)) :
      ReadsLine line console (.ok (some (lineText line)), next)
  /-- A line feed ends the line. -/
  | feed {line : List UInt8} {console next : σ}
      (h : Console.readByte console = (.ok (some 10), next)) :
      ReadsLine line console (.ok (some (lineText line)), next)
  /-- Any other byte is one of the line. -/
  | byte {line : List UInt8} {console next : σ} {byte : UInt8}
      {result : Except ConsoleFault (Option String) × σ} (hbyte : byte ≠ 10)
      (h : Console.readByte console = (.ok (some byte), next))
      (hrest : ReadsLine (line ++ [byte]) next result) : ReadsLine line console result

/-- The loop ends in one way. -/
theorem ReadsLine.unique {σ : Type} [Console σ] {line : List UInt8} {console : σ}
    {result other : Except ConsoleFault (Option String) × σ} (h : ReadsLine line console result)
    (hother : ReadsLine line console other) : other = result := by
  induction h with
  | fault h =>
    cases hother with
    | fault hread =>
      cases h.symm.trans hread
      rfl
    | nothing hread | ended _ hread | feed hread | byte _ hread => cases h.symm.trans hread
  | nothing h =>
    cases hother with
    | nothing hread =>
      cases h.symm.trans hread
      rfl
    | ended hline => exact absurd rfl hline
    | fault hread | feed hread | byte _ hread => cases h.symm.trans hread
  | ended hline h =>
    cases hother with
    | ended _ hread =>
      cases h.symm.trans hread
      rfl
    | nothing => exact absurd rfl hline
    | fault hread | feed hread | byte _ hread => cases h.symm.trans hread
  | feed h =>
    cases hother with
    | feed hread =>
      cases h.symm.trans hread
      rfl
    | byte hbyte hread =>
      cases h.symm.trans hread
      exact absurd rfl hbyte
    | fault hread | nothing hread | ended _ hread => cases h.symm.trans hread
  | byte hbyte h _ ih =>
    cases hother with
    | byte _ hread hrest =>
      cases h.symm.trans hread
      exact ih hrest
    | feed hread =>
      cases h.symm.trans hread
      exact absurd rfl hbyte
    | fault hread | nothing hread | ended _ hread => cases h.symm.trans hread

/-- The line that the loop finds in some input, with some bytes of it read already. -/
def foundLine (line input : List UInt8) : Option String :=
  if line = [] ∧ input = [] then none else some (lineText (line ++ (cutLine input).1))

section Found

variable {σ : Type} [Console σ] {line input : List UInt8} {console next : σ}

/-- At the end of the input the loop finds what was read. -/
theorem ReadsLine.found_nil (h : Console.readByte console = (.ok none, next)) :
    ReadsLine line console (.ok (foundLine line []), next) := by
  by_cases hline : line = []
  · subst hline
    exact .nothing h
  · have hfound : foundLine line [] = some (lineText line) := by simp [foundLine, hline, cutLine]
    exact hfound ▸ .ended hline h

/-- At a line feed the loop finds what was read. -/
theorem ReadsLine.found_feed (h : Console.readByte console = (.ok (some 10), next)) :
    ReadsLine line console (.ok (foundLine line (10 :: input)), next) := by
  have hfound : foundLine line (10 :: input) = some (lineText line) := by
    simp [foundLine, cutLine]
  exact hfound ▸ .feed h

/-- A byte that is no line feed makes the line longer. -/
theorem ReadsLine.found_cons {byte : UInt8} {last : σ} (hbyte : byte ≠ 10)
    (h : Console.readByte console = (.ok (some byte), next))
    (hrest : ReadsLine (line ++ [byte]) next (.ok (foundLine (line ++ [byte]) input), last)) :
    ReadsLine line console (.ok (foundLine line (byte :: input)), last) := by
  have hfound : foundLine line (byte :: input) = foundLine (line ++ [byte]) input := by
    simp [foundLine, cutLine, hbyte]
  exact hfound ▸ .byte hbyte h hrest

end Found

namespace BufferConsole

/-- The loop finds the line that is cut off the input, and leaves what is behind it. -/
theorem readsLine (console : BufferConsole) (line : List UInt8) :
    ReadsLine line console
      (.ok (foundLine line console.input),
        { console with input := (cutLine console.input).2 }) := by
  obtain ⟨input, output, trace⟩ := console
  induction input generalizing line with
  | nil => exact .found_nil rfl
  | cons byte input ih =>
    by_cases hbyte : byte = 10
    · subst hbyte
      exact .found_feed rfl
    · rw [cutLine, if_neg hbyte]
      exact .found_cons hbyte rfl (ih _)

/-- The line that is read is the one that the loop finds. -/
theorem readLine_eq_foundLine (console : BufferConsole) :
    console.readLine = (foundLine [] console.input,
      { console with input := (cutLine console.input).2 }) := by
  obtain ⟨input, output, trace⟩ := console
  cases input <;> rfl

/-- Reading a line is the loop over the bytes. -/
theorem readsLine_iff {console : BufferConsole}
    {result : Except ConsoleFault (Option String) × BufferConsole} :
    ReadsLine [] console result ↔ result = Console.readLine console := by
  have hreads : ReadsLine [] console (Console.readLine console) := by
    change ReadsLine [] console (.ok console.readLine.1, console.readLine.2)
    rw [readLine_eq_foundLine]
    exact console.readsLine []
  exact ⟨hreads.unique, fun h => h ▸ hreads⟩

end BufferConsole

namespace ScriptedConsole

/-- Reads for several bytes are a read for the first and then the others. -/
theorem spend_succ (left : Option Nat) (calls : Nat) :
    spend left (calls + 1) = (spend left 1).bind fun rest => spend rest calls := by
  cases left with
  | none => rfl
  | some n =>
    by_cases hfirst : 1 ≤ n
    · rw [spend, spend, if_pos hfirst, Option.bind_some, spend]
      by_cases hall : calls + 1 ≤ n
      · rw [if_pos hall, if_pos (by omega), Nat.add_comm, Nat.sub_add_eq]
      · rw [if_neg hall, if_neg (by omega)]
    · rw [spend, spend, if_neg hfirst, if_neg (by omega), Option.bind_none]

/-- No read succeeds if there is none left. -/
theorem spend_one_eq_none_iff {left : Option Nat} : spend left 1 = none ↔ left = some 0 := by
  cases left <;> simp [spend]

variable {console : ScriptedConsole} {left : Option Nat}

/-- A read that succeeds takes a byte from the buffer. -/
theorem readByte_of_spend (console : ScriptedConsole) {left : Option Nat}
    (h : spend console.readsLeft 1 = some left) :
    Console.readByte console = (.ok console.buffer.readByte.1,
      { console with buffer := console.buffer.readByte.2, readsLeft := left }) := by
  change readByte console = _
  rw [readByte, h]

/-- If there are reads for the bytes of a line and its end, the loop finds the line that is cut off
the input, and leaves what is behind it. -/
theorem readsLine_of_spend (line : List UInt8)
    (h : spend console.readsLeft ((cutLine console.buffer.input).1.length + 1) = some left) :
    ReadsLine line console
      (.ok (foundLine line console.buffer.input),
        { console with
          buffer := { console.buffer with input := (cutLine console.buffer.input).2 }
          readsLeft := left }) := by
  obtain ⟨⟨input, output, trace⟩, reads, writes, merged, fault⟩ := console
  induction input generalizing line reads with
  | nil => exact .found_nil (readByte_of_spend _ h)
  | cons byte input ih =>
    by_cases hbyte : byte = 10
    · subst hbyte
      exact .found_feed (readByte_of_spend _ h)
    · simp only [cutLine, if_neg hbyte, List.length_cons] at h ⊢
      rw [spend_succ] at h
      obtain ⟨rest, hfirst, hrest⟩ := Option.bind_eq_some_iff.mp h
      exact .found_cons hbyte (readByte_of_spend _ hfirst) (ih _ rest hrest)

/-- If fewer calls succeed than the line has bytes, the loop ends with a fault when they are spent.
-/
theorem readsLine_of_spend_eq_none (line : List UInt8)
    (h : spend console.readsLeft ((cutLine console.buffer.input).1.length + 1) = none) :
    ReadsLine line console
      (.error console.fault,
        { console with
          buffer :=
            { console.buffer with
              input := console.buffer.input.drop (console.readsLeft.getD 0) }
          readsLeft := some 0 }) := by
  obtain ⟨⟨input, output, trace⟩, reads, writes, merged, fault⟩ := console
  induction input generalizing line reads with
  | nil =>
    obtain rfl := spend_one_eq_none_iff.mp h
    exact .fault rfl
  | cons byte input ih =>
    match reads, h with
    | none, h => cases h
    | some 0, _ => exact .fault rfl
    | some (n + 1), h =>
      have hfirst : spend (some (n + 1)) 1 = some (some n) := rfl
      by_cases hbyte : byte = 10
      · subst hbyte
        cases hfirst.symm.trans h
      · simp only [cutLine, if_neg hbyte, List.length_cons] at h
        rw [spend_succ, hfirst, Option.bind_some] at h
        exact .byte hbyte (readByte_of_spend _ hfirst) (ih _ _ h)

/-- Reading a line is the loop over the bytes. -/
theorem readsLine_iff {result : Except ConsoleFault (Option String) × ScriptedConsole} :
    ReadsLine [] console result ↔ result = Console.readLine console := by
  have hreads : ReadsLine [] console (Console.readLine console) := by
    change ReadsLine [] console (readLine console)
    unfold readLine
    dsimp only
    split
    · rename_i left hspend
      rw [BufferConsole.readLine_eq_foundLine]
      exact readsLine_of_spend [] hspend
    · rename_i hspend
      exact readsLine_of_spend_eq_none [] hspend
  exact ⟨hreads.unique, fun h => h ▸ hreads⟩

end ScriptedConsole

end PageMachine
