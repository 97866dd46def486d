import Mathlib.Data.List.Induction
import Mathlib.Logic.Relation
import PageMachine.Proofs.Numbering
import PageMachine.Proofs.RoundTrip

/-!
# Comments, blank lines and line ends

Lines are read without the blanks at their ends, a carriage return being one, and lines without a
statement are not read at all. A comment behind a statement is more of an edit: it puts blanks into
the columns that the line did not reach, and moves the end of the line. It is cut off again because
it begins in the operand field and outside of quotes, which only a line that can be read makes sure
of; the comment itself may then hold anything, quotes and semicolons included.

`CosmeticEdit` has one case for each such change of a text. Whatever follows from what is read in
the lines of a text stays the same under any number of them.
-/

namespace PageMachine

namespace SourceLine

/-- Whether a line holds a statement does not depend on blanks at its end. -/
theorem isEmptyLine_append_blank (line blanks : List Char)
    (h : ∀ c ∈ blanks, Text.isBlank c = true) :
    isEmptyLine (line ++ blanks) = isEmptyLine line := by
  cases line with
  | nil =>
    have htrim : Text.trim blanks = [] := (Text.trim_eq_nil_iff blanks).mpr h
    have hempty : isEmptyLine blanks = true := by simp [isEmptyLine, htrim]
    rw [List.nil_append, hempty]
    rfl
  | cons c rest =>
    rw [isEmptyLine, isEmptyLine, Text.trim_append_blank _ _ h]
    rfl

/-- A line that holds a statement still does so with more behind it. -/
theorem isEmptyLine_append {line : List Char} (more : List Char) (h : isEmptyLine line = false) :
    isEmptyLine (line ++ more) = false := by
  simp only [isEmptyLine, Bool.or_eq_false_iff, beq_eq_false_iff_ne, List.isEmpty_eq_false_iff,
    ne_eq, Text.trim_eq_nil_iff, not_forall] at h ⊢
  obtain ⟨hhead, c, hc, hblank⟩ := h
  refine ⟨?_, c, List.mem_append_left _ hc, hblank⟩
  cases line with
  | nil => cases hc
  | cons first rest => exact hhead

/-- A line is read without the blanks at its end. -/
theorem scan?_append_blank (line blanks : List Char) (h : ∀ c ∈ blanks, Text.isBlank c = true) :
    scan? (line ++ blanks) = scan? line := by
  rw [scan?, scan?, isEmptyLine_append_blank line blanks h, scan, scan,
    Text.trimEnd_append_blank line blanks h]

/-- A line is read without the carriage return at its end. -/
theorem scan?_dropReturn (line : List Char) : scan? (Text.dropReturn line) = scan? line := by
  obtain ⟨blanks, hblanks, heq⟩ : ∃ blanks, (∀ c ∈ blanks, Text.isBlank c = true) ∧
      Text.dropReturn line ++ blanks = line := by
    fun_induction Text.dropReturn line with
    | case1 => exact ⟨[], by simp, rfl⟩
    | case2 => exact ⟨['\r'], List.forall_mem_singleton.mpr (by decide), rfl⟩
    | case3 c rest _ ih =>
      obtain ⟨blanks, hblanks, heq⟩ := ih
      exact ⟨blanks, hblanks, congrArg (c :: ·) heq⟩
  rw [← scan?_append_blank _ blanks hblanks, heq]

/-- The columns of a line with blanks behind it are the same. -/
theorem column_append_blank (first last : Nat) (line : List Char) {blanks : List Char}
    (h : ∀ c ∈ blanks, Text.isBlank c = true) :
    column first last (line ++ blanks) = column first last line := by
  rw [column, List.drop_append, List.take_append, Text.trim_append_blank]
  · rfl
  · intro c hc
    exact h c (List.mem_of_mem_drop (List.mem_of_mem_take hc))

/-- The columns that a line reaches are the same with more behind it. -/
theorem column_append {first last : Nat} {line : List Char} (more : List Char)
    (hfirst : first ≤ last) (hlast : last ≤ line.length) :
    column first last (line ++ more) = column first last line := by
  rw [column, List.drop_append_of_le_length (Nat.le_trans hfirst hlast),
    List.take_append_of_le_length]
  · rfl
  · rw [List.length_drop]
    omega

/-- Pieces whose ends differ in blanks still do when a character is put in front of the first. -/
theorem map_trimEnd_extendFirst (c : Char) {cut other : List (List Char)}
    (h : cut.map Text.trimEnd = other.map Text.trimEnd) :
    (extendFirst c cut).map Text.trimEnd = (extendFirst c other).map Text.trimEnd := by
  cases cut with
  | nil =>
    obtain rfl := List.map_eq_nil_iff.mp h.symm
    rfl
  | cons piece rest =>
    cases other with
    | nil => cases h
    | cons twin others =>
      obtain ⟨hpiece, hrest⟩ := List.cons.inj h
      simp only [extendFirst, List.map_cons, Text.trimEnd, hpiece, hrest]

/-- Blanks up to a comment make up one piece. -/
theorem pieces_blank_comment {blanks : List Char} (remark : List Char)
    (h : ∀ c ∈ blanks, Text.isBlank c = true) :
    pieces false (blanks ++ ';' :: remark) = some [blanks] := by
  induction blanks with
  | nil => simp [pieces]
  | cons c rest ih =>
    rw [List.forall_mem_cons] at h
    have hc : c ≠ '"' ∧ c ≠ ';' ∧ c ≠ ',' := by
      refine ⟨?_, ?_, ?_⟩ <;> rintro rfl <;> exact absurd h.1 (by decide)
    simp [pieces, hc, ih h.2, extendFirst]

/-- A field in which no quotation is left open is cut into the same pieces with blanks and a comment
behind it, up to blanks at their ends. -/
theorem exists_pieces_append_comment {quoted : Bool} {field blanks : List Char}
    (remark : List Char) (h : ∀ c ∈ blanks, Text.isBlank c = true) {cut : List (List Char)}
    (hcut : pieces quoted field = some cut) :
    ∃ other, pieces quoted (field ++ (blanks ++ ';' :: remark)) = some other ∧
      other.map Text.trimEnd = cut.map Text.trimEnd := by
  fun_induction pieces quoted field generalizing cut with
  | case1 =>
    obtain rfl := Option.some.inj hcut
    refine ⟨[blanks], pieces_blank_comment remark h, ?_⟩
    simpa [Text.trimEnd] using (Text.trimEnd_eq_nil_iff blanks).mpr h
  | case2 => cases hcut
  | case3 c rest ih =>
    obtain ⟨others, hothers, rfl⟩ := Option.map_eq_some_iff.mp hcut
    obtain ⟨other, hother, hsame⟩ := ih hothers
    exact ⟨extendFirst c other, by simp [pieces, hother], map_trimEnd_extendFirst c hsame⟩
  | case4 rest ih =>
    obtain ⟨others, hothers, rfl⟩ := Option.map_eq_some_iff.mp hcut
    obtain ⟨other, hother, hsame⟩ := ih hothers
    exact ⟨extendFirst '"' other, by simp [pieces, hother], map_trimEnd_extendFirst '"' hsame⟩
  | case5 rest =>
    obtain rfl := Option.some.inj hcut
    exact ⟨[[]], by simp [pieces], rfl⟩
  | case6 rest _ _ ih =>
    obtain ⟨others, hothers, rfl⟩ := Option.map_eq_some_iff.mp hcut
    obtain ⟨other, hother, hsame⟩ := ih hothers
    exact ⟨[] :: other, by simp [pieces, hother], by simp [hsame]⟩
  | case7 c rest hquote hcomment hcomma ih =>
    obtain ⟨others, hothers, rfl⟩ := Option.map_eq_some_iff.mp hcut
    obtain ⟨other, hother, hsame⟩ := ih hothers
    exact ⟨extendFirst c other, by simp [pieces, hquote, hcomment, hcomma, hother],
      map_trimEnd_extendFirst c hsame⟩

/-- A field that can be split into operands has the same with blanks and a comment behind it. -/
theorem splitOperands_append_comment {field blanks operands} (remark : List Char)
    (h : ∀ c ∈ blanks, Text.isBlank c = true) (hsplit : splitOperands field = .ok operands) :
    splitOperands (field ++ (blanks ++ ';' :: remark)) = .ok operands := by
  rw [← hsplit]
  unfold splitOperands at hsplit ⊢
  cases hcut : pieces false field with
  | none =>
    rw [hcut] at hsplit
    cases hsplit
  | some cut =>
    obtain ⟨other, hother, hsame⟩ := exists_pieces_append_comment remark h hcut
    have htrim : other.map Text.trim = cut.map Text.trim := by
      have hmap := congrArg (List.map Text.trim) hsame
      rw [List.map_map, List.map_map] at hmap
      simpa only [Function.comp_def, Text.trim_trimEnd] using hmap
    rw [hother]
    dsimp only
    rw [htrim]

/-- A line that can be read is read in the same way with a comment behind it that begins in the
operand field. -/
theorem scan_append_comment {line padding : List Char} (remark : List Char)
    (hpadding : ∀ c ∈ padding, c = ' ') (hcolumns : 17 ≤ (line ++ padding).length)
    (hscan : (scan line).2.isSome = true) :
    scan (line ++ padding ++ ';' :: remark) = scan line := by
  obtain ⟨blanks, hblanks, hline⟩ := Text.exists_trimEnd_append line
  let kept := Text.trimEnd line
  have hwhole : line ++ padding = kept ++ (blanks ++ padding) := by
    rw [← List.append_assoc, hline]
  have hgap : ∀ c ∈ blanks ++ padding, Text.isBlank c = true := by
    intro c hc
    rcases List.mem_append.mp hc with hc | hc
    · exact hblanks c hc
    · rw [hpadding c hc]
      decide
  have hend : Text.trimEnd (';' :: remark) = ';' :: Text.trimEnd remark := by
    rw [Text.trimEnd]
    cases Text.trimEnd remark <;> rfl
  have htrim : Text.trimEnd (line ++ padding ++ ';' :: remark) =
      line ++ padding ++ ';' :: Text.trimEnd remark := by
    rw [Text.trimEnd_append_of_ne_nil _ (by rw [hend]; exact List.cons_ne_nil _ _), hend]
  have hcolumn : ∀ first last, first ≤ last → last ≤ 17 →
      column first last (line ++ padding ++ ';' :: Text.trimEnd remark) =
        column first last kept := by
    intro first last hfirst hlast
    rw [column_append _ hfirst (Nat.le_trans hlast hcolumns), hwhole,
      column_append_blank _ _ _ hgap]
  have hfaults : gapFaults (line ++ padding ++ ';' :: Text.trimEnd remark) = gapFaults kept := by
    rw [gapFaults, gapFaults, hcolumn 7 9 (by decide) (by decide),
      hcolumn 14 17 (by decide) (by decide)]
  have hsplit : splitOperands ((line ++ padding ++ ';' :: Text.trimEnd remark).drop 17) =
      splitOperands (kept.drop 17) := by
    cases hoperands : splitOperands (kept.drop 17) with
    | error fault =>
      have hrejected : splitOperands ((Text.trimEnd line).drop 17) = .error fault := hoperands
      rw [scan, hrejected] at hscan
      cases hscan
    | ok operands =>
      rw [List.drop_append_of_le_length hcolumns, hwhole, List.drop_append, List.append_assoc]
      refine splitOperands_append_comment _ (fun c hc => ?_) hoperands
      exact hgap c (List.mem_of_mem_drop hc)
  rw [scan, scan, htrim, hsplit, hfaults, hcolumn 0 7 (by decide) (by decide),
    hcolumn 9 14 (by decide) (by decide)]

/-- A statement that can be read is read in the same way with a comment behind it. -/
theorem scan?_append_comment {line padding : List Char} (remark : List Char)
    (hstatement : isEmptyLine line = false) (hpadding : ∀ c ∈ padding, c = ' ')
    (hcolumns : 17 ≤ (line ++ padding).length) (hscan : (scan line).2.isSome = true) :
    scan? (line ++ padding ++ ';' :: remark) = scan? line := by
  have hkept : isEmptyLine (line ++ padding ++ ';' :: remark) = false := by
    rw [List.append_assoc]
    exact isEmptyLine_append _ hstatement
  rw [scan?, scan?, hkept, hstatement, scan_append_comment remark hpadding hcolumns hscan]

/-- Nothing is read in a line without a statement. -/
theorem scan?_eq_none {line : List Char} (h : isEmptyLine line = true) : scan? line = none :=
  if_pos h

end SourceLine

/-- Whether a text ends where a line begins. -/
def StartsLine (front : List Char) : Prop :=
  front = [] ∨ ∃ lines, front = lines ++ ['\n']

/-- Whether a text begins where a line ends. -/
def EndsLine (back : List Char) : Prop :=
  back = [] ∨ ∃ lines, back = '\n' :: lines ∨ back = '\r' :: '\n' :: lines

/-- One change to a text that concerns only its comments, blank lines or line ends. -/
inductive CosmeticEdit : List Char → List Char → Prop
  /-- A blank line or a comment is put in front of a line. -/
  | before (front line back : List Char) (hfront : StartsLine front) (hline : '\n' ∉ line)
      (hempty : SourceLine.isEmptyLine line = true) :
      CosmeticEdit (front ++ back) (front ++ (line ++ '\n' :: back))
  /-- A blank line or a comment is put behind a line. -/
  | behind (front line back : List Char) (hback : EndsLine back) (hline : '\n' ∉ line)
      (hempty : SourceLine.isEmptyLine line = true) :
      CosmeticEdit (front ++ back) (front ++ '\n' :: (line ++ back))
  /-- Blanks are put at the end of a line, such as a carriage return. -/
  | blanks (front blanks back : List Char) (hback : EndsLine back)
      (hblanks : ∀ c ∈ blanks, Text.isBlank c = true ∧ c ≠ '\n') :
      CosmeticEdit (front ++ back) (front ++ (blanks ++ back))
  /-- A statement that can be read gets a comment behind it. -/
  | comment (front line padding remark back : List Char) (hfront : StartsLine front)
      (hback : EndsLine back) (hline : '\n' ∉ line)
      (hstatement : SourceLine.isEmptyLine line = false)
      (hscan : (SourceLine.scan line).2.isSome = true) (hpadding : ∀ c ∈ padding, c = ' ')
      (hcolumns : 17 ≤ (line ++ padding).length) (hremark : '\n' ∉ remark) :
      CosmeticEdit (front ++ (line ++ back))
        (front ++ (line ++ padding ++ ';' :: remark ++ back))

namespace SourceLine

/-- A line is read before the rest of its text. -/
theorem scanAll_append_newline {line : List Char} (back : List Char) (hline : '\n' ∉ line) :
    scanAll (line ++ '\n' :: back) = (scan? line).toList ++ scanAll back := by
  rw [scanAll, scanAll, Text.splitLines_append_newline back hline, List.filterMap_cons,
    scan?_dropReturn]
  cases scan? line <;> rfl

/-- Each text consists of lines and of the characters behind them, which may be none. -/
theorem exists_startsLine_append (text : List Char) :
    ∃ front line, StartsLine front ∧ '\n' ∉ line ∧ text = front ++ line := by
  induction text using List.reverseRecOn with
  | nil => exact ⟨[], [], .inl rfl, by simp, rfl⟩
  | append_singleton start c ih =>
    obtain ⟨front, line, hfront, hline, rfl⟩ := ih
    by_cases hc : c = '\n'
    · exact ⟨front ++ line ++ [c], [], .inr ⟨_, by rw [hc]⟩, by simp, by simp⟩
    · exact ⟨front, line ++ [c], hfront, by simp [hline, Ne.symm hc], by simp⟩

/-- The lines at the beginning of a text are read before the rest of it. -/
theorem scanAll_append {front : List Char} (back : List Char) (hfront : StartsLine front) :
    scanAll (front ++ back) = scanAll front ++ scanAll back := by
  induction hlength : front.length using Nat.strong_induction_on generalizing front back with
  | h length ih =>
    rcases hfront with rfl | ⟨lines, rfl⟩
    · rfl
    · -- The last of the lines is taken off; in front of it there are fewer characters.
      obtain ⟨start, line, hstart, hline, rfl⟩ := exists_startsLine_append lines
      have hshort : start.length < length := by
        rw [← hlength]
        simp
      have hread : ∀ more, scanAll (start ++ (line ++ '\n' :: more)) =
          scanAll start ++ (scan? line).toList ++ scanAll more := by
        intro more
        rw [ih _ hshort _ hstart rfl, scanAll_append_newline more hline, List.append_assoc]
      have hfront := hread []
      rw [show scanAll [] = [] from rfl, List.append_nil] at hfront
      rw [List.append_assoc start, hfront, ← hread back]
      simp only [List.append_assoc, List.cons_append, List.nil_append]

/-- What is read behind the end of a line does not depend on the line. -/
theorem exists_scanAll_of_endsLine {back : List Char} (hback : EndsLine back) :
    ∃ rest, ∀ line, '\n' ∉ line → scanAll (line ++ back) = (scan? line).toList ++ rest := by
  obtain rfl | ⟨lines, rfl | rfl⟩ := hback
  · refine ⟨[], fun line hline => ?_⟩
    rw [List.append_nil, List.append_nil]
    by_cases hne : line = []
    · rw [hne]
      rfl
    · rw [scanAll, Text.splitLines_eq_singleton hne hline, List.filterMap_cons]
      cases scan? line <;> rfl
  · exact ⟨scanAll lines, fun line hline => scanAll_append_newline lines hline⟩
  · refine ⟨scanAll lines, fun line hline => ?_⟩
    have hreturn : '\n' ∉ line ++ ['\r'] := by simp [hline]
    have hblank := scan?_append_blank line ['\r'] (List.forall_mem_singleton.mpr (by decide))
    have hread := scanAll_append_newline lines hreturn
    rw [hblank, List.append_assoc] at hread
    exact hread

/-- The same is read after a cosmetic edit. -/
theorem scanAll_of_cosmeticEdit {text edited : List Char} (h : CosmeticEdit text edited) :
    scanAll text = scanAll edited := by
  cases h with
  | before front line back hfront hline hempty =>
    rw [scanAll_append _ hfront, scanAll_append _ hfront, scanAll_append_newline back hline,
      scan?_eq_none hempty]
    rfl
  | behind front line back hback hline hempty =>
    obtain ⟨start, last, hstart, hlast, rfl⟩ := exists_startsLine_append front
    obtain ⟨rest, hrest⟩ := exists_scanAll_of_endsLine hback
    rw [List.append_assoc, List.append_assoc, scanAll_append _ hstart, scanAll_append _ hstart,
      scanAll_append_newline _ hlast, hrest last hlast, hrest line hline, scan?_eq_none hempty]
    rfl
  | blanks front blanks back hback hblanks =>
    obtain ⟨start, last, hstart, hlast, rfl⟩ := exists_startsLine_append front
    obtain ⟨rest, hrest⟩ := exists_scanAll_of_endsLine hback
    have hlonger : '\n' ∉ last ++ blanks := by
      rw [List.mem_append, not_or]
      exact ⟨hlast, fun hmem => (hblanks _ hmem).2 rfl⟩
    rw [List.append_assoc, List.append_assoc, scanAll_append _ hstart, scanAll_append _ hstart,
      hrest last hlast, ← List.append_assoc last, hrest _ hlonger,
      scan?_append_blank last blanks fun c hc => (hblanks c hc).1]
  | comment front line padding remark back hfront hback hline hstatement hscan hpadding hcolumns
      hremark =>
    obtain ⟨rest, hrest⟩ := exists_scanAll_of_endsLine hback
    have hlonger : '\n' ∉ line ++ padding ++ ';' :: remark := by
      simp only [List.mem_append, List.mem_cons, not_or]
      exact ⟨⟨hline, fun hmem => absurd (hpadding _ hmem) (by decide)⟩, by decide, hremark⟩
    rw [scanAll_append _ hfront, scanAll_append _ hfront, hrest line hline, hrest _ hlonger,
      scan?_append_comment remark hstatement hpadding hcolumns hscan]

/-- The same is read after any number of cosmetic edits, made or undone. -/
theorem scanAll_of_cosmeticEdits {text edited : List Char}
    (h : Relation.EqvGen CosmeticEdit text edited) : scanAll text = scanAll edited := by
  induction h with
  | rel _ _ hedit => exact scanAll_of_cosmeticEdit hedit
  | refl => rfl
  | symm _ _ _ ih => exact ih.symm
  | trans _ _ _ _ _ ihfirst ihsecond => exact ihfirst.trans ihsecond

end SourceLine

/-- After any number of cosmetic edits, made or undone, a text is still accepted or still rejected,
and an accepted one has the same object text. -/
theorem assemble_of_cosmeticEdits {source other : String} (hint : String)
    (h : Relation.EqvGen CosmeticEdit source.toList other.toList) :
    ((∃ program, assemble hint source = .ok program) ↔
        ∃ program, assemble hint other = .ok program) ∧
      ∀ program twin, assemble hint source = .ok program → assemble hint other = .ok twin →
        twin.objectText = program.objectText := by
  have hscan := SourceLine.scanAll_of_cosmeticEdits h
  refine ⟨⟨fun ⟨program, hprogram⟩ => ?_, fun ⟨program, hprogram⟩ => ?_⟩,
    fun program twin hprogram htwin => ?_⟩
  · obtain ⟨twin, htwin, -⟩ := exists_assemble_of_scanAll_eq hscan hprogram
    exact ⟨twin, htwin⟩
  · obtain ⟨twin, htwin, -⟩ := exists_assemble_of_scanAll_eq hscan.symm hprogram
    exact ⟨twin, htwin⟩
  · obtain ⟨same, hsame, heq⟩ := exists_assemble_of_scanAll_eq hscan hprogram
    obtain rfl := Except.ok.inj (hsame.symm.trans htwin)
    exact heq

/-- The lines of a program that halts. -/
def plainLines : List String :=
  ["         .ORIG", "         TRAP    x25", "         .END"]

/-- The program that halts, and its module. -/
def plain : Build "main" plainLines :=
  .ofLines (by decide +kernel)

/-- The program's text with remarks: a comment in front, an end of line with a carriage return, a
comment with a quote in it behind the instruction, and a blank line at the end. -/
def remarkedText : String :=
  "; Halts.\n         .ORIG\r\n         TRAP    x25 ;\"stop\n         .END\n \n"

/-- The remarks are cosmetic. -/
theorem cosmeticEdits_remarkedText :
    Relation.EqvGen CosmeticEdit (Text.unlines plainLines).toList remarkedText.toList := by
  let one := "; Halts.\n         .ORIG\n         TRAP    x25\n         .END\n".toList
  let two := "; Halts.\n         .ORIG\r\n         TRAP    x25\n         .END\n".toList
  let three := "; Halts.\n         .ORIG\r\n         TRAP    x25 ;\"stop\n         .END\n".toList
  have hbefore : CosmeticEdit (Text.unlines plainLines).toList one := by
    have hedit := CosmeticEdit.before [] "; Halts.".toList (Text.unlines plainLines).toList
      (.inl rfl) (by decide +kernel) (by decide +kernel)
    have hone : [] ++ ("; Halts.".toList ++ '\n' :: (Text.unlines plainLines).toList) = one := by
      decide +kernel
    rwa [hone] at hedit
  have hreturn : CosmeticEdit one two := by
    let front := "; Halts.\n         .ORIG".toList
    let back := "\n         TRAP    x25\n         .END\n".toList
    have hedit := CosmeticEdit.blanks front ['\r'] back (.inr ⟨back.tail, .inl (by decide +kernel)⟩)
      (List.forall_mem_singleton.mpr (by decide))
    have hone : front ++ back = one := by decide +kernel
    have htwo : front ++ (['\r'] ++ back) = two := by decide +kernel
    rwa [hone, htwo] at hedit
  have hcomment : CosmeticEdit two three := by
    let front := "; Halts.\n         .ORIG\r\n".toList
    let line := "         TRAP    x25".toList
    let back := "\n         .END\n".toList
    have hedit := CosmeticEdit.comment front line [' '] "\"stop".toList back
      (.inr ⟨front.dropLast, by decide +kernel⟩) (.inr ⟨back.tail, .inl (by decide +kernel)⟩)
      (by decide +kernel) (by decide +kernel) (by decide +kernel)
      (List.forall_mem_singleton.mpr rfl) (by decide +kernel) (by decide +kernel)
    have htwo : front ++ (line ++ back) = two := by decide +kernel
    have hthree : front ++ (line ++ [' '] ++ ';' :: "\"stop".toList ++ back) = three := by
      decide +kernel
    rwa [htwo, hthree] at hedit
  have hbehind : CosmeticEdit three remarkedText.toList := by
    let front := three.dropLast
    have hedit := CosmeticEdit.behind front [' '] ['\n'] (.inr ⟨[], .inl rfl⟩) (by decide +kernel)
      (by decide +kernel)
    have hthree : front ++ ['\n'] = three := by decide +kernel
    have hfour : front ++ '\n' :: ([' '] ++ ['\n']) = remarkedText.toList := by decide +kernel
    rwa [hthree, hfour] at hedit
  exact (Relation.EqvGen.rel _ _ hbefore).trans _ _ _ ((Relation.EqvGen.rel _ _ hreturn).trans _ _ _
    ((Relation.EqvGen.rel _ _ hcomment).trans _ _ _ (.rel _ _ hbehind)))

/-- The remarked text is assembled to the same object text. -/
theorem assemble_remarkedText :
    ∃ program twin, assemble "main" (Text.unlines plainLines) = .ok program ∧
      assemble "main" remarkedText = .ok twin ∧ twin.objectText = program.objectText := by
  obtain ⟨hexists, hsame⟩ := assemble_of_cosmeticEdits "main" cosmeticEdits_remarkedText
  obtain ⟨twin, htwin⟩ := hexists.mp ⟨_, plain.assembled⟩
  exact ⟨_, twin, plain.assembled, htwin, hsame _ _ plain.assembled htwin⟩

end PageMachine
