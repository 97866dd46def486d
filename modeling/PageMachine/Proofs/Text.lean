import Mathlib.Data.List.DropRight
import Mathlib.Tactic.Ring
import PageMachine.Text.Blank
import PageMachine.Text.Lines
import PageMachine.Text.Numeral
import PageMachine.Text.Utf8

/-!
# Reading back written text

Object files are written line by line and read back by splitting, trimming and cutting at byte
positions. The lemmas say when each of these steps gives back what was written: a line must not
contain a line feed, must not end in a blank, and its fixed columns must be ASCII. Nothing is
assumed about what follows the columns, so that a name may hold any characters.
-/

namespace PageMachine.Text

/-- A text is its trimmed form with blanks behind it. -/
theorem exists_trimEnd_append (text : List Char) :
    ∃ blanks, (∀ c ∈ blanks, isBlank c = true) ∧ trimEnd text ++ blanks = text := by
  induction text with
  | nil => exact ⟨[], by simp, rfl⟩
  | cons c rest ih =>
    obtain ⟨blanks, hblanks, heq⟩ := ih
    cases hrest : trimEnd rest with
    | nil =>
      rw [hrest, List.nil_append] at heq
      by_cases hc : isBlank c
      · exact ⟨c :: blanks, by simpa [hc] using hblanks, by simp [trimEnd, hrest, hc, heq]⟩
      · exact ⟨blanks, hblanks, by simp [trimEnd, hrest, hc, heq]⟩
    | cons d kept =>
      have htrim : trimEnd (c :: rest) = c :: trimEnd rest := by simp [trimEnd, hrest]
      exact ⟨blanks, hblanks, by rw [htrim, List.cons_append, heq]⟩

/-- Trimming the end keeps a beginning of the text. -/
theorem trimEnd_prefix_self (text : List Char) : trimEnd text <+: text := by
  obtain ⟨blanks, -, heq⟩ := exists_trimEnd_append text
  exact ⟨blanks, heq⟩

/-- Trimming adds no characters. -/
theorem mem_of_mem_trim {c : Char} {text : List Char} (h : c ∈ trim text) : c ∈ text :=
  (List.dropWhile_sublist _).subset ((trimEnd_prefix_self _).subset h)

/-- A trimmed text has no blanks left at its end. -/
theorem trimEnd_trim (text : List Char) : trimEnd (trim text) = trim text :=
  trimEnd_trimEnd _

/-- Trimming the end of a text leaves what is in front of its last part, if something of that is
left. -/
theorem trimEnd_append_of_ne_nil (front : List Char) {back : List Char} (h : trimEnd back ≠ []) :
    trimEnd (front ++ back) = front ++ trimEnd back := by
  induction front with
  | nil => rfl
  | cons c front ih =>
    have hne : front ++ trimEnd back ≠ [] := fun hnil => h (List.append_eq_nil_iff.mp hnil).2
    obtain ⟨d, kept, hrest⟩ := List.exists_cons_of_ne_nil hne
    rw [List.cons_append, trimEnd, ih, hrest, List.cons_append, hrest]

/-- A text whose last part keeps its end when trimmed keeps its own. -/
theorem trimEnd_append_eq_self {front back : List Char} (hback : trimEnd back = back)
    (hne : back ≠ []) : trimEnd (front ++ back) = front ++ back := by
  rw [trimEnd_append_of_ne_nil front (by rwa [hback]), hback]

/-- A text that begins with no blank is only trimmed at its end. -/
theorem trim_cons {c : Char} {rest : List Char} (hc : isBlank c = false) :
    trim (c :: rest) = trimEnd (c :: rest) := by
  simp [trim, trimStart, hc]

/-- Blanks at the end of a text are trimmed off. -/
theorem trim_append_blank (text blanks : List Char) (h : ∀ c ∈ blanks, isBlank c = true) :
    trim (text ++ blanks) = trim text := by
  unfold trim trimStart
  rw [List.dropWhile_append]
  split
  · rename_i hempty
    rw [List.isEmpty_iff.mp hempty]
    refine (trimEnd_eq_nil_iff _).mpr fun c hc => ?_
    exact h c ((List.dropWhile_sublist _).subset hc)
  · exact trimEnd_append_blank _ _ h

/-- Trimming a text whose end is trimmed gives the trimmed text. -/
theorem trim_trimEnd (text : List Char) : trim (trimEnd text) = trim text := by
  obtain ⟨blanks, hblanks, heq⟩ := exists_trimEnd_append text
  rw [← trim_append_blank _ blanks hblanks, heq]

/-- Trimming once is enough. -/
theorem trim_trim (text : List Char) : trim (trim text) = trim text := by
  have hstart : trimStart (trimStart text) = trimStart text := List.dropWhile_idempotent isBlank text
  rw [show trim text = trimEnd (trimStart text) from rfl, trim_trimEnd, trim, hstart]

/-- Nothing is left of a text exactly if all of it is blank. -/
theorem trim_eq_nil_iff (text : List Char) : trim text = [] ↔ ∀ c ∈ text, isBlank c = true := by
  induction text with
  | nil => simp [trim, trimStart, trimEnd]
  | cons c rest ih =>
    cases hc : isBlank c with
    | true =>
      have htrim : trim (c :: rest) = trim rest := by simp [trim, trimStart, hc]
      rw [htrim, ih, List.forall_mem_cons, and_iff_right hc]
    | false => rw [trim_cons hc, trimEnd_eq_nil_iff]

/-- A line without the carriage return at its end. -/
def dropReturn : List Char → List Char
  | [] => []
  | ['\r'] => []
  | c :: rest => c :: dropReturn rest

/-- Dropping the carriage return does not lengthen a line. -/
theorem length_dropReturn_le (line : List Char) : (dropReturn line).length ≤ line.length := by
  fun_induction dropReturn line with
  | case1 => exact Nat.le_refl _
  | case2 => exact Nat.zero_le _
  | case3 c rest _ ih => exact Nat.succ_le_succ ih

/-- A line that ends with something else than a carriage return keeps all of it. -/
theorem dropReturn_eq_self {line : List Char} (h : line.getLast? ≠ some '\r') :
    dropReturn line = line := by
  fun_induction dropReturn line with
  | case1 => rfl
  | case2 => simp at h
  | case3 c rest hrest ih =>
    congr 1
    apply ih
    cases rest with
    | nil => simp
    | cons d rest => simpa using h

/-- Nothing is left of a line feed, and the line in front of it is read by itself. -/
theorem splitLines_append_newline {line : List Char} (rest : List Char) (hline : '\n' ∉ line) :
    splitLines (line ++ '\n' :: rest) = dropReturn line :: splitLines rest := by
  fun_induction dropReturn line with
  | case1 => simp [splitLines]
  | case2 => simp [splitLines]
  | case3 c line hreturn ih =>
    simp only [List.mem_cons, not_or] at hline
    have htail := ih hline.2
    have hnext : ∀ tail, ¬(c = '\r' ∧ line ++ '\n' :: rest = '\n' :: tail) := by
      rintro tail ⟨rfl, htail⟩
      cases line with
      | nil => exact hreturn rfl rfl
      | cons d line =>
        simp only [List.cons_append, List.cons.injEq] at htail
        simp [htail.1] at hline
    rw [List.cons_append, splitLines, htail]
    · exact fun h => hline.1 h.symm
    · exact fun tail hc h => hnext tail ⟨hc, h⟩

/-- A text of lines, each ended by a line feed. -/
def unlines (lines : List String) : String :=
  String.join (lines.map fun line => line ++ "\n")

/-- A text of lines, as characters. -/
theorem toList_unlines (lines : List String) :
    (unlines lines).toList = lines.flatMap fun line => line.toList ++ ['\n'] := by
  simp [unlines, String.toList_join, List.flatMap_map]

/-- Lines without line feeds in them and carriage returns at their ends make up their text. -/
theorem lines_unlines {texts : List String}
    (h : ∀ text ∈ texts, '\n' ∉ text.toList ∧ dropReturn text.toList = text.toList) :
    lines (unlines texts) = texts := by
  rw [lines, toList_unlines]
  induction texts with
  | nil => simp [splitLines]
  | cons text rest ih =>
    obtain ⟨hline, hreturn⟩ := h text List.mem_cons_self
    have hrest := ih fun other hother => h other (List.mem_cons_of_mem _ hother)
    rw [List.flatMap_cons, List.append_assoc, List.singleton_append,
      splitLines_append_newline _ hline, hreturn, List.map_cons, hrest, String.ofList_toList]

/-- A text without line feeds is one line. -/
theorem splitLines_eq_singleton {line : List Char} (hne : line ≠ []) (hline : '\n' ∉ line) :
    splitLines line = [line] := by
  fun_induction splitLines line with
  | case1 => exact absurd rfl hne
  | case2 | case3 => simp at hline
  | case4 c rest _ _ hrest ih =>
    by_cases hnil : rest = []
    · rw [hnil]
    · rw [ih hnil fun hmem => hline (List.mem_cons_of_mem c hmem)] at hrest
      cases hrest
  | case5 c rest _ _ first others hrest ih =>
    have hnil : rest ≠ [] := by
      rintro rfl
      cases hrest
    rw [ih hnil fun hmem => hline (List.mem_cons_of_mem c hmem)] at hrest
    obtain ⟨rfl, rfl⟩ := List.cons.inj hrest
    rfl

/-- Lines hold no line feeds. -/
theorem newline_not_mem_splitLines {text line : List Char} (h : line ∈ splitLines text) :
    '\n' ∉ line := by
  fun_induction splitLines text generalizing line with
  | case1 => simp at h
  | case2 rest ih =>
    rcases List.mem_cons.mp h with rfl | h
    · simp
    · exact ih h
  | case3 rest ih =>
    rcases List.mem_cons.mp h with rfl | h
    · simp
    · exact ih h
  | case4 c rest hc _ hrest ih =>
    simp only [List.mem_singleton] at h
    subst h
    simpa using fun h => hc h.symm
  | case5 c rest hc _ first others hrest ih =>
    rw [hrest] at ih
    rcases List.mem_cons.mp h with rfl | h
    · have := ih List.mem_cons_self
      simp only [List.mem_cons, not_or]
      exact ⟨fun h => hc h.symm, this⟩
    · exact ih (List.mem_cons_of_mem _ h)

/-- Digits are read one after the other. -/
theorem readDigits_append (base largest value : Nat) (front back : List Char) :
    readDigits base largest value (front ++ back) =
      (readDigits base largest value front).bind fun n => readDigits base largest n back := by
  induction front generalizing value with
  | nil => rfl
  | cons c front ih =>
    rw [List.cons_append, readDigits, readDigits]
    split
    · rfl
    · dsimp only
      split
      · rfl
      · exact ih _

/-- Written hexadecimal digits read back as the number, as far as it fits the width. -/
theorem readDigits_hexDigits {largest value width n : Nat}
    (h : value * 16 ^ width + n % 16 ^ width ≤ largest) :
    readDigits 16 largest value (hexDigits width n) =
      .ok (value * 16 ^ width + n % 16 ^ width) := by
  induction width generalizing n with
  | zero => simp [hexDigits, readDigits, Nat.mod_one]
  | succ width ih =>
    have hsplit : value * 16 ^ (width + 1) + n % 16 ^ (width + 1) =
        (value * 16 ^ width + n / 16 % 16 ^ width) * 16 + n % 16 := by
      rw [Nat.pow_succ', Nat.mod_mul]
      ring
    have hhigh : value * 16 ^ width + n / 16 % 16 ^ width ≤ largest := by omega
    rw [hexDigits, readDigits_append, ih hhigh]
    change readDigits 16 largest _ [hexDigit (n % 16)] = _
    have hfit : ¬largest < (value * 16 ^ width + n / 16 % 16 ^ width) * 16 + n % 16 := by omega
    rw [readDigits, digitValue?_hexDigit (Nat.mod_lt n (by decide)), hsplit]
    simp [hfit, readDigits]

/-- Every hexadecimal digit is one of sixteen. -/
theorem exists_of_mem_hexDigits {c : Char} {width n : Nat} (h : c ∈ hexDigits width n) :
    ∃ m : Fin 16, c = hexDigit m := by
  induction width generalizing n with
  | zero => simp [hexDigits] at h
  | succ width ih =>
    rcases List.mem_append.mp h with h | h
    · exact ih h
    · exact ⟨⟨n % 16, Nat.mod_lt n (by decide)⟩, List.mem_singleton.mp h⟩

/-- Whether a character takes one byte and is no blank, as the fixed columns of records need. -/
def isPlain (c : Char) : Bool :=
  c.toNat < 128 && !isBlank c

/-- Hexadecimal digits are plain. -/
theorem isPlain_of_mem_hexDigits {c : Char} {width n : Nat} (h : c ∈ hexDigits width n) :
    isPlain c := by
  have hdigit : ∀ m : Fin 16, isPlain (hexDigit m) := by decide
  obtain ⟨m, rfl⟩ := exists_of_mem_hexDigits h
  exact hdigit m

/-- An ASCII character takes one byte. -/
theorem utf8Size_of_lt {c : Char} (h : c.toNat < 128) : c.utf8Size = 1 := by
  have : c.val ≤ 0x7f := by
    rw [UInt32.le_iff_toNat_le]
    exact Nat.le_of_lt_succ h
  simp [Char.utf8Size, this]

/-- The bytes of two texts one after the other. -/
theorem byteLength_append (front back : List Char) :
    byteLength (front ++ back) = byteLength front + byteLength back := by
  induction front with
  | nil => simp [byteLength]
  | cons c front ih => simp [byteLength, ih, Nat.add_assoc]

/-- An ASCII text has as many bytes as characters. -/
theorem byteLength_of_ascii {text : List Char} (h : ∀ c ∈ text, c.toNat < 128) :
    byteLength text = text.length := by
  induction text with
  | nil => rfl
  | cons c rest ih =>
    rw [byteLength, utf8Size_of_lt (h c List.mem_cons_self),
      ih fun d hd => h d (List.mem_cons_of_mem _ hd), List.length_cons, Nat.add_comm]

/-- Cutting behind an ASCII text leaves what follows it. -/
theorem dropBytes?_append {front : List Char} (back : List Char)
    (h : ∀ c ∈ front, c.toNat < 128) :
    dropBytes? front.length (front ++ back) = some back := by
  induction front with
  | nil => simp [dropBytes?]
  | cons c front ih =>
    rw [List.length_cons, List.cons_append, dropBytes?, utf8Size_of_lt (h c List.mem_cons_self)]
    simpa using ih fun d hd => h d (List.mem_cons_of_mem _ hd)

/-- Cutting in front of what follows an ASCII text leaves that text. -/
theorem takeBytes?_append {front : List Char} (back : List Char)
    (h : ∀ c ∈ front, c.toNat < 128) :
    takeBytes? front.length (front ++ back) = some front := by
  induction front with
  | nil => simp [takeBytes?]
  | cons c front ih =>
    rw [List.length_cons, List.cons_append, takeBytes?, utf8Size_of_lt (h c List.mem_cons_self)]
    simpa using ih fun d hd => h d (List.mem_cons_of_mem _ hd)

/-- A column between two others is found at its place. -/
theorem byteSlice?_append (front column back : List Char) {first last : Nat}
    (hfirst : front.length = first) (hlast : first + column.length = last)
    (hfront : ∀ c ∈ front, c.toNat < 128) (hcolumn : ∀ c ∈ column, c.toNat < 128) :
    byteSlice? first last (front ++ (column ++ back)) = some column := by
  subst hfirst
  rw [byteSlice?, dropBytes?_append _ hfront, Option.bind_some,
    show last - front.length = column.length by omega, takeBytes?_append _ hcolumn]

end PageMachine.Text
