import Mathlib.Algebra.Group.Nat.Even
import Mathlib.Data.List.Forall2
import PageMachine.Proofs.LabelReference

/-!
# The grammar of operand fields

An operand field is cut character by character, with a mark that tells whether a quotation is open.
What the cut amounts to can be said of whole texts: between its commas stand texts in which every
further comma and every semicolon has an odd number of quotation marks in front of it, and the
number of all marks is even; a comment may follow. Without the blanks around them these texts are
the operands, and none of them is empty. Each list of such texts is the list of operands of their
concatenation with commas, with any blanks around them, and of no other kind of field.

Which of the two faults a field is refused with is left out.
-/

namespace PageMachine

namespace SourceLine

/-- Whether a text is an operand: it has neither blanks at its ends nor a quotation left open, and
commas and semicolons stand only in quotations. -/
structure IsOperandText (text : List Char) : Prop where
  /-- The text is not empty. -/
  ne_nil : text ≠ []
  /-- There are no blanks around it. -/
  trimmed : Text.trim text = text
  /-- Every quotation mark has its other one. -/
  even_count : Even (text.count '"')
  /-- In front of a comma or a semicolon a quotation is open. -/
  odd_count : ∀ front c back, text = front ++ c :: back → c = ',' ∨ c = ';' →
    Odd (front.count '"')

/-- Whether a text is another one with blanks around it. -/
def IsPadded (text padded : List Char) : Prop :=
  ∃ before behind, (∀ c ∈ before, Text.isBlank c = true) ∧ (∀ c ∈ behind, Text.isBlank c = true) ∧
    padded = before ++ (text ++ behind)

/-- Whether a text is a comment or empty. -/
def IsComment (text : List Char) : Prop :=
  ∀ c ∈ text.head?, c = ';'

/-- Whether a text runs up to a comma or a comment that is not quoted, if a quotation is open in
front of it or not. -/
structure IsPiece (quoted : Bool) (text : List Char) : Prop where
  /-- No quotation is left open. -/
  closed : quotedBehind quoted text = false
  /-- Separators are quoted. -/
  separators : ∀ c ∈ [',', ';'], ∀ front back, text = front ++ c :: back →
    quotedBehind quoted front = true

/-- How a field is cut into pieces: at a comma behind a piece, and at the comment or the end. -/
inductive Cuts : Bool → List Char → List (List Char) → Prop
  | last {quoted : Bool} {piece comment : List Char} (h : IsPiece quoted piece)
      (hcomment : IsComment comment) : Cuts quoted (piece ++ comment) [piece]
  | comma {quoted : Bool} {piece rest : List Char} {others : List (List Char)}
      (h : IsPiece quoted piece) (hrest : Cuts false rest others) :
      Cuts quoted (piece ++ ',' :: rest) (piece :: others)

/-- A quotation is open behind an odd number of marks, those in front counted. -/
theorem quotedBehind_eq_true_iff {quoted : Bool} {text : List Char} :
    quotedBehind quoted text = true ↔ Odd (text.count '"' + quoted.toNat) := by
  induction text generalizing quoted with
  | nil => cases quoted <;> simp [quotedBehind]
  | cons c rest ih =>
    change quotedBehind (quoted != (c == '"')) rest = true ↔ _
    rw [ih, List.count_cons]
    cases c == '"' <;> cases quoted <;> simp [Nat.odd_add_one, add_assoc]

/-- A text is a piece if its first character is no separator, or a quotation is open there, and what
follows is a piece. -/
theorem isPiece_cons_iff {quoted : Bool} {c : Char} {rest : List Char} :
    IsPiece quoted (c :: rest) ↔
      (c ∈ [',', ';'] → quoted = true) ∧ IsPiece (quoted != (c == '"')) rest := by
  constructor
  · rintro ⟨hclosed, hseparators⟩
    refine ⟨fun hc => hseparators c hc [] rest rfl, hclosed, fun d hd front back heq => ?_⟩
    exact hseparators d hd (c :: front) back (congrArg (c :: ·) heq)
  · rintro ⟨hfirst, hclosed, hseparators⟩
    refine ⟨hclosed, fun d hd => ?_⟩
    rw [forall_split_cons]
    exact ⟨fun heq => hfirst (heq ▸ hd), hseparators d hd⟩

/-- A field is cut into one more piece behind a piece and a comma, and a piece in front of a comment
or an end is the last. In front of a field, a piece is put in front of the first of its pieces. -/
theorem pieces_append {quoted : Bool} {piece : List Char} (field : List Char)
    (h : IsPiece quoted piece) :
    pieces quoted (piece ++ field) =
      (pieces false field).map fun cut => piece.foldr extendFirst cut := by
  induction piece generalizing quoted with
  | nil =>
    obtain rfl : quoted = false := h.closed
    simp
  | cons c rest ih =>
    obtain ⟨hseparator, hrest⟩ := isPiece_cons_iff.mp h
    have hstep : pieces quoted (c :: (rest ++ field)) =
        (pieces (quoted != (c == '"')) (rest ++ field)).map (extendFirst c) := by
      cases quoted with
      | true => rw [pieces, Bool.true_bne]; rfl
      | false =>
        have hcomma : c ≠ ',' := by
          rintro rfl
          exact Bool.false_ne_true (hseparator (by simp))
        have hcomment : c ≠ ';' := by
          rintro rfl
          exact Bool.false_ne_true (hseparator (by simp))
        by_cases hquote : c = '"'
        · simp [pieces, hquote]
        · simp [pieces, hquote, hcomma, hcomment, beq_false_of_ne hquote]
    rw [List.cons_append, hstep, ih hrest, Option.map_map]
    rfl

/-- A piece put in front of the first of several pieces. -/
theorem foldr_extendFirst (front piece : List Char) (others : List (List Char)) :
    front.foldr extendFirst (piece :: others) = (front ++ piece) :: others := by
  induction front with
  | nil => rfl
  | cons c front ih => rw [List.foldr_cons, ih, extendFirst, List.cons_append]

/-- A character in front of a field belongs to the first piece, unless it separates. -/
theorem Cuts.cons {quoted : Bool} {c : Char} {rest : List Char} {cut : List (List Char)}
    (hseparator : c ∈ [',', ';'] → quoted = true) (h : Cuts (quoted != (c == '"')) rest cut) :
    Cuts quoted (c :: rest) (extendFirst c cut) := by
  cases h with
  | last hpiece hcomment => exact .last (isPiece_cons_iff.mpr ⟨hseparator, hpiece⟩) hcomment
  | comma hpiece hothers => exact .comma (isPiece_cons_iff.mpr ⟨hseparator, hpiece⟩) hothers

/-- Nothing is a piece if no quotation is open. -/
theorem isPiece_nil : IsPiece false [] := by
  refine ⟨rfl, fun c _ front back heq => ?_⟩
  simp at heq

/-- A field is cut in the one way that the grammar allows. -/
theorem pieces_eq_some_iff {quoted : Bool} {field : List Char} {cut : List (List Char)} :
    pieces quoted field = some cut ↔ Cuts quoted field cut := by
  constructor
  · intro h
    fun_induction pieces quoted field generalizing cut with
    | case1 =>
      obtain rfl := Option.some.inj h
      exact .last isPiece_nil (by simp [IsComment])
    | case2 => cases h
    | case3 c rest ih =>
      obtain ⟨others, hothers, rfl⟩ := Option.map_eq_some_iff.mp h
      refine .cons (fun _ => rfl) ?_
      rw [Bool.true_bne]
      exact ih hothers
    | case4 rest ih =>
      obtain ⟨others, hothers, rfl⟩ := Option.map_eq_some_iff.mp h
      exact .cons (by decide) (ih hothers)
    | case5 rest =>
      obtain rfl := Option.some.inj h
      exact .last isPiece_nil (by simp [IsComment])
    | case6 rest _ _ ih =>
      obtain ⟨others, hothers, rfl⟩ := Option.map_eq_some_iff.mp h
      exact .comma isPiece_nil (ih hothers)
    | case7 c rest hquote hcomment hcomma ih =>
      obtain ⟨others, hothers, rfl⟩ := Option.map_eq_some_iff.mp h
      refine .cons (fun hc => ?_) ?_
      · simp [hcomma, hcomment] at hc
      · rw [beq_false_of_ne hquote]
        exact ih hothers
  · intro h
    induction h with
    | @last quoted piece comment hpiece hcomment =>
      have hend : pieces false comment = some [[]] := by
        cases comment with
        | nil => rfl
        | cons c rest =>
          obtain rfl : c = ';' := hcomment c (by simp)
          simp [pieces]
      rw [pieces_append _ hpiece, hend, Option.map_some, foldr_extendFirst, List.append_nil]
    | @comma quoted piece rest others hpiece _ ih =>
      have hnext : pieces false (',' :: rest) = some ([] :: others) := by
        simp [pieces, ih]
      rw [pieces_append _ hpiece, hnext, Option.map_some, foldr_extendFirst, List.append_nil]

/-- Blanks in front of a text neither separate nor quote. -/
theorem isPiece_blank_append_iff {quoted : Bool} {blanks text : List Char}
    (h : ∀ c ∈ blanks, Text.isBlank c = true) :
    IsPiece quoted (blanks ++ text) ↔ IsPiece quoted text := by
  induction blanks with
  | nil => rfl
  | cons c blanks ih =>
    rw [List.forall_mem_cons] at h
    have hne : ∀ d, Text.isBlank d = false → c ≠ d := by
      rintro d hd rfl
      simp [hd] at h
    have hquote : (c == '"') = false := beq_false_of_ne (hne _ (by decide))
    have hseparator : c ∉ [',', ';'] := by
      simp [hne ',' (by decide), hne ';' (by decide)]
    rw [List.cons_append, isPiece_cons_iff, hquote, Bool.bne_false, ih h.2]
    exact and_iff_right fun hc => absurd hc hseparator

/-- Blanks behind a piece do not matter. -/
theorem isPiece_append_blank_iff {quoted : Bool} {blanks text : List Char}
    (h : ∀ c ∈ blanks, Text.isBlank c = true) :
    IsPiece quoted (text ++ blanks) ↔ IsPiece quoted text := by
  induction text generalizing quoted with
  | nil =>
    have hblank : IsPiece quoted (blanks ++ []) ↔ IsPiece quoted [] := isPiece_blank_append_iff h
    rwa [List.append_nil] at hblank
  | cons c text ih => rw [List.cons_append, isPiece_cons_iff, isPiece_cons_iff, ih]

/-- A text is its trimmed form with blanks around it. -/
theorem isPadded_trim (text : List Char) : IsPadded (Text.trim text) text := by
  obtain ⟨behind, hbehind, heq⟩ := Text.exists_trimEnd_append (Text.trimStart text)
  refine ⟨text.takeWhile Text.isBlank, behind, fun c hc => ?_, hbehind, ?_⟩
  · exact List.mem_takeWhile_imp hc
  · rw [Text.trim, heq, Text.trimStart, List.takeWhile_append_dropWhile]

/-- Nothing but the blanks around it is trimmed off. -/
theorem IsPadded.trim_eq {text padded : List Char} (h : IsPadded text padded) :
    Text.trim padded = Text.trim text := by
  obtain ⟨before, behind, hbefore, hbehind, rfl⟩ := h
  rw [← List.append_assoc, Text.trim_append_blank _ _ hbehind, Text.trim, Text.trimStart,
    List.dropWhile_append_of_pos hbefore]
  rfl

/-- A text with blanks around it is a piece if it is one without them. -/
theorem IsPadded.isPiece_iff {text padded : List Char} (h : IsPadded text padded) :
    IsPiece false padded ↔ IsPiece false text := by
  obtain ⟨before, behind, hbefore, hbehind, rfl⟩ := h
  rw [isPiece_blank_append_iff hbefore, isPiece_append_blank_iff hbehind]

/-- An operand is a piece that is trimmed and not empty. -/
theorem isOperandText_iff {text : List Char} :
    IsOperandText text ↔ text ≠ [] ∧ Text.trim text = text ∧ IsPiece false text := by
  have hclosed : quotedBehind false text = false ↔ Even (text.count '"') := by
    rw [← Bool.not_eq_true, quotedBehind_eq_true_iff, Nat.not_odd_iff_even]
    rfl
  have hopen : ∀ front, quotedBehind false front = true ↔ Odd (front.count '"') := fun front =>
    quotedBehind_eq_true_iff
  constructor
  · rintro ⟨hne, htrim, heven, hodd⟩
    refine ⟨hne, htrim, hclosed.mpr heven, fun c hc front back heq => ?_⟩
    exact (hopen front).mpr (hodd front c back heq (by simpa using hc))
  · rintro ⟨hne, htrim, hends, hseparators⟩
    refine ⟨hne, htrim, hclosed.mp hends, fun front c back heq hc => ?_⟩
    exact (hopen front).mp (hseparators c (by simpa using hc) front back heq)

/-- The pieces of a field in which no quotation is open are pieces each by itself. -/
theorem Cuts.isPiece {quoted : Bool} {field : List Char} {cut : List (List Char)}
    (h : Cuts quoted field cut) (hquoted : quoted = false) : ∀ piece ∈ cut, IsPiece false piece := by
  induction h with
  | last hpiece _ =>
    subst hquoted
    exact List.forall_mem_singleton.mpr hpiece
  | comma hpiece _ ih =>
    subst hquoted
    exact List.forall_mem_cons.mpr ⟨hpiece, ih rfl⟩

/-- A field is its pieces with commas between them and a comment behind them. -/
theorem Cuts.exists_comment {quoted : Bool} {field : List Char} {cut : List (List Char)}
    (h : Cuts quoted field cut) :
    cut ≠ [] ∧ ∃ comment, IsComment comment ∧ field = [','].intercalate cut ++ comment := by
  induction h with
  | @last quoted piece comment _ hcomment => exact ⟨by simp, comment, hcomment, by simp⟩
  | @comma quoted piece rest others _ _ ih =>
    obtain ⟨hne, comment, hcomment, rfl⟩ := ih
    obtain ⟨second, others, rfl⟩ := List.exists_cons_of_ne_nil hne
    exact ⟨by simp, comment, hcomment, by simp [List.intercalate_cons_cons]⟩

/-- Pieces with commas between them are what the whole is cut into, but for blanks. -/
theorem exists_cuts {texts paddeds : List (List Char)} {blanks comment : List Char}
    (hpadded : List.Forall₂ IsPadded texts paddeds) (hpiece : ∀ text ∈ texts, IsPiece false text)
    (hne : texts ≠ []) (hblanks : ∀ c ∈ blanks, Text.isBlank c = true)
    (hcomment : IsComment comment) :
    ∃ cut, Cuts false ([','].intercalate paddeds ++ (blanks ++ comment)) cut ∧
      List.Forall₂ IsPadded texts cut := by
  induction hpadded with
  | nil => exact absurd rfl hne
  | @cons text padded texts paddeds hfirst hothers ih =>
    obtain ⟨htext, htexts⟩ := List.forall_mem_cons.mp hpiece
    cases hothers with
    | nil =>
      -- The blanks in front of the comment belong to the last piece.
      obtain ⟨before, behind, hbefore, hbehind, rfl⟩ := hfirst
      have hlast : IsPadded text (before ++ (text ++ (behind ++ blanks))) := by
        refine ⟨before, behind ++ blanks, hbefore, fun c hc => ?_, rfl⟩
        exact (List.mem_append.mp hc).elim (hbehind c) (hblanks c)
      refine ⟨_, ?_, .cons hlast .nil⟩
      have hcut := Cuts.last (hlast.isPiece_iff.mpr htext) hcomment
      simpa using hcut
    | @cons second next texts paddeds hsecond hrest =>
      obtain ⟨cut, hcut, hsame⟩ := ih htexts (by simp)
      refine ⟨padded :: cut, ?_, .cons hfirst hsame⟩
      have hcut := Cuts.comma (hfirst.isPiece_iff.mpr htext) hcut
      simpa [List.intercalate_cons_cons] using hcut

/-- Trimming gives back texts that have no blanks at their ends. -/
theorem map_trim_eq {texts paddeds : List (List Char)} (h : List.Forall₂ IsPadded texts paddeds)
    (htrim : ∀ text ∈ texts, Text.trim text = text) : paddeds.map Text.trim = texts := by
  induction h with
  | nil => rfl
  | cons hfirst _ ih =>
    obtain ⟨htext, htexts⟩ := List.forall_mem_cons.mp htrim
    rw [List.map_cons, hfirst.trim_eq, htext, ih htexts]

/-- The operands of a field are its pieces without the blanks around them, of which none may be
empty; there are none if there is one piece and it is blank. -/
theorem splitOperands_eq_ok_iff_cuts {field : List Char} {texts : List (List Char)} :
    splitOperands field = .ok texts ↔ ∃ cut, Cuts false field cut ∧
      (cut.map Text.trim = [[]] ∧ texts = [] ∨ cut.map Text.trim = texts ∧ [] ∉ texts) := by
  simp only [← pieces_eq_some_iff]
  unfold splitOperands
  cases pieces false field with
  | none => simp
  | some cut =>
    have hany : (cut.map Text.trim).any List.isEmpty = true ↔ [] ∈ cut.map Text.trim := by
      simp [List.any_eq_true]
    simp only [hany, Option.some.injEq, exists_eq_left']
    by_cases hblank : cut.map Text.trim = [[]]
    · rw [if_pos hblank, hblank]
      constructor
      · intro h
        exact .inl ⟨rfl, (Except.ok.inj h).symm⟩
      · rintro (⟨-, rfl⟩ | ⟨rfl, hmem⟩)
        · rfl
        · exact absurd (List.mem_singleton_self []) hmem
    · rw [if_neg hblank]
      by_cases hempty : [] ∈ cut.map Text.trim
      · rw [if_pos hempty]
        refine iff_of_false nofun ?_
        rintro (⟨hcut, -⟩ | ⟨rfl, hmem⟩)
        · exact hblank hcut
        · exact hmem hempty
      · rw [if_neg hempty]
        constructor
        · intro h
          obtain rfl := Except.ok.inj h
          exact .inr ⟨rfl, hempty⟩
        · rintro (⟨hcut, -⟩ | ⟨rfl, -⟩)
          · exact absurd hcut hblank
          · rfl

/-- Splitting is the inverse of joining: an operand field is split into a list of texts exactly if
each of them is an operand, not empty, without blanks at its ends, with an even number of quotation
marks and with commas and semicolons only behind an odd number of them, and the field is the texts
with commas between them and any blanks around them, as far as a comment. -/
theorem splitOperands_eq_ok_iff {field : List Char} {texts : List (List Char)} :
    splitOperands field = .ok texts ↔
      (∀ text ∈ texts, IsOperandText text) ∧ ∃ paddeds blanks comment,
        List.Forall₂ IsPadded texts paddeds ∧ (∀ c ∈ blanks, Text.isBlank c = true) ∧
          IsComment comment ∧ field = [','].intercalate paddeds ++ (blanks ++ comment) := by
  rw [splitOperands_eq_ok_iff_cuts]
  constructor
  · rintro ⟨cut, hcut, ⟨hblank, rfl⟩ | ⟨rfl, hnil⟩⟩
    · obtain ⟨-, comment, hcomment, rfl⟩ := hcut.exists_comment
      obtain ⟨piece, rfl, hpiece⟩ : ∃ piece, cut = [piece] ∧ Text.trim piece = [] := by
        simpa [List.map_eq_singleton_iff] using hblank
      refine ⟨by simp, [], piece, comment, .nil, (Text.trim_eq_nil_iff piece).mp hpiece,
        hcomment, ?_⟩
      simp
    · obtain ⟨-, comment, hcomment, rfl⟩ := hcut.exists_comment
      refine ⟨?_, cut, [], comment, ?_, by simp, hcomment, rfl⟩
      · intro text htext
        obtain ⟨piece, hmem, rfl⟩ := List.mem_map.mp htext
        have hpiece := (isPadded_trim piece).isPiece_iff.mp (hcut.isPiece rfl piece hmem)
        exact isOperandText_iff.mpr
          ⟨ne_of_mem_of_not_mem htext hnil, Text.trim_trim piece, hpiece⟩
      · rw [List.forall₂_map_left_iff]
        exact List.forall₂_same.mpr fun piece _ => isPadded_trim piece
  · rintro ⟨htexts, paddeds, blanks, comment, hpadded, hblanks, hcomment, rfl⟩
    have hparts := fun text htext => isOperandText_iff.mp (htexts text htext)
    by_cases hne : texts = []
    · subst hne
      cases hpadded
      refine ⟨[blanks], ?_, .inl ⟨?_, rfl⟩⟩
      · have hpiece : IsPiece false ([] ++ blanks) :=
          (isPiece_append_blank_iff hblanks).mpr isPiece_nil
        exact .last hpiece hcomment
      · rw [List.map_singleton, (Text.trim_eq_nil_iff blanks).mpr hblanks]
    · obtain ⟨cut, hcut, hsame⟩ := exists_cuts hpadded (fun text htext => (hparts text htext).2.2)
        hne hblanks hcomment
      have htrim := map_trim_eq hsame fun text htext => (hparts text htext).2.1
      exact ⟨cut, hcut, .inr ⟨htrim, fun hmem => (hparts [] hmem).1 rfl⟩⟩

/-- The comma and the semicolon of a quotation belong to the first of two operands, and the last
semicolon begins a comment. -/
example : splitOperands "\"a, b; c\" ,\tR1 ; greeting".toList =
    .ok ["\"a, b; c\"".toList, "R1".toList] := by
  decide

end SourceLine

end PageMachine
