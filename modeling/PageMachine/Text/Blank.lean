/-!
# Blanks

A blank is a character with the property White_Space of the character database. The table
below is complete; every character that core calls white space is in it. Trimming removes
blanks at the ends of a text and leaves those inside alone.
-/

namespace PageMachine.Text

/-- The property White_Space: five controls and the space of ASCII, next line, the no-break
space, and the separators further up. -/
def isBlank (c : Char) : Bool :=
  let n := c.toNat
  (0x09 ≤ n && n ≤ 0x0D) || n == 0x20 || n == 0x85 || n == 0xA0 || n == 0x1680 ||
    (0x2000 ≤ n && n ≤ 0x200A) || n == 0x2028 || n == 0x2029 || n == 0x202F || n == 0x205F ||
    n == 0x3000

/-- A text without the blanks at its start. -/
def trimStart (text : List Char) : List Char :=
  text.dropWhile isBlank

/-- A text without the blanks at its end. -/
def trimEnd : List Char → List Char
  | [] => []
  | c :: rest =>
      match trimEnd rest with
      | [] => if isBlank c then [] else [c]
      | d :: kept => c :: d :: kept

/-- A text without the blanks at either end. -/
def trim (text : List Char) : List Char :=
  trimEnd (trimStart text)

/-- Nothing but blanks is left of nothing but blanks. -/
theorem trimEnd_eq_nil_iff (text : List Char) : trimEnd text = [] ↔ ∀ c ∈ text, isBlank c := by
  induction text with
  | nil => simp [trimEnd]
  | cons c rest ih =>
    cases h : trimEnd rest with
    | nil =>
      have := ih.1 h
      by_cases hc : isBlank c <;> simp_all [trimEnd]
    | cons d kept =>
      have : ¬∀ x ∈ rest, isBlank x := fun hall => by simp [ih.2 hall] at h
      simp only [trimEnd, h, List.mem_cons, forall_eq_or_imp]
      exact ⟨fun e => (nomatch e), fun e => absurd e.2 this⟩

/-- Trimming the end once is enough. -/
theorem trimEnd_trimEnd (text : List Char) : trimEnd (trimEnd text) = trimEnd text := by
  induction text with
  | nil => rfl
  | cons c rest ih =>
    cases h : trimEnd rest with
    | nil => by_cases hc : isBlank c <;> simp [trimEnd, h, hc]
    | cons d kept =>
      have hc : trimEnd (c :: rest) = c :: d :: kept := by simp [trimEnd, h]
      rw [h] at ih
      rw [hc, trimEnd, ih]

/-- A text with blanks added at its end has the same trimmed form. -/
theorem trimEnd_append_blank (text blanks : List Char) (h : ∀ c ∈ blanks, isBlank c) :
    trimEnd (text ++ blanks) = trimEnd text := by
  induction text with
  | nil => simpa [trimEnd] using (trimEnd_eq_nil_iff blanks).2 h
  | cons c rest ih => simp [trimEnd, ih]

end PageMachine.Text
