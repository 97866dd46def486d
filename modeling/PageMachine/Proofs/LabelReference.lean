import PageMachine.Proofs.OperandRange
import PageMachine.Proofs.StatementAddress

/-!
# References to labels

A label that its line is read with cannot begin like a constant, a register or a literal and holds
no space or comma, but nothing is said there of quotation marks and semicolons. As an operand such a
text is read as itself if no comment begins in it and no quotation is left open, and it is a symbol
unless it begins with a quotation mark. Where an accepted program has it as an operand that is a
symbol, it stands for the label: the address of the statement, or what the equation says.

The texts of several operands in one field are left out.
-/

namespace PageMachine

namespace SourceLine

/-- Whether a quotation is open behind a text: each quotation mark opens or closes one. -/
def quotedBehind (quoted : Bool) (text : List Char) : Bool :=
  text.foldl (fun open? c => open? != (c == '"')) quoted

/-- Whether a text is read to its end as an operand: a semicolon stands only in a quotation, and
none is left open. -/
structure IsClosed (text : List Char) : Prop where
  /-- No quotation is left open. -/
  closed : quotedBehind false text = false
  /-- Semicolons are quoted. -/
  quoted : ∀ front back, text = front ++ ';' :: back → quotedBehind false front = true

/-- A field without commas is cut into one piece, which it begins with. -/
theorem exists_piece {quoted : Bool} {field : List Char} {cut : List (List Char)}
    (hcomma : ',' ∉ field) (h : pieces quoted field = some cut) :
    ∃ piece, cut = [piece] ∧ piece <+: field := by
  fun_induction pieces quoted field generalizing cut with
  | case1 =>
    obtain rfl : [[]] = cut := by simpa using h
    exact ⟨[], rfl, List.prefix_rfl⟩
  | case2 => cases h
  | case3 c rest ih =>
    obtain ⟨others, hothers, rfl⟩ := Option.map_eq_some_iff.mp h
    obtain ⟨piece, rfl, hprefix⟩ := ih (List.not_mem_of_not_mem_cons hcomma) hothers
    exact ⟨c :: piece, rfl, (List.prefix_cons_inj c).mpr hprefix⟩
  | case4 rest ih =>
    obtain ⟨others, hothers, rfl⟩ := Option.map_eq_some_iff.mp h
    obtain ⟨piece, rfl, hprefix⟩ := ih (List.not_mem_of_not_mem_cons hcomma) hothers
    exact ⟨'"' :: piece, rfl, (List.prefix_cons_inj '"').mpr hprefix⟩
  | case5 =>
    obtain rfl : [[]] = cut := by simpa using h
    exact ⟨[], rfl, List.nil_prefix⟩
  | case6 => exact absurd List.mem_cons_self hcomma
  | case7 c rest _ _ _ ih =>
    obtain ⟨others, hothers, rfl⟩ := Option.map_eq_some_iff.mp h
    obtain ⟨piece, rfl, hprefix⟩ := ih (List.not_mem_of_not_mem_cons hcomma) hothers
    exact ⟨c :: piece, rfl, (List.prefix_cons_inj c).mpr hprefix⟩

/-- A character in front of a field that is one piece makes one piece. -/
theorem map_extendFirst_eq_iff {quoted : Bool} {c : Char} {rest : List Char} (hcomma : ',' ∉ rest) :
    (pieces quoted rest).map (extendFirst c) = some [c :: rest] ↔
      pieces quoted rest = some [rest] := by
  rw [Option.map_eq_some_iff]
  constructor
  · rintro ⟨cut, hcut, heq⟩
    obtain ⟨piece, rfl, -⟩ := exists_piece hcomma hcut
    obtain rfl : piece = rest := by simpa [extendFirst] using heq
    exact hcut
  · exact fun hcut => ⟨_, hcut, rfl⟩

/-- What holds in front of every occurrence of a character holds so of the first, and behind it. -/
theorem forall_split_cons {P : List Char → Prop} {c d : Char} {rest : List Char} :
    (∀ front back, c :: rest = front ++ d :: back → P front) ↔
      (c = d → P []) ∧ ∀ front back, rest = front ++ d :: back → P (c :: front) := by
  constructor
  · intro h
    refine ⟨fun heq => h [] rest (by rw [heq, List.nil_append]), fun front back heq => ?_⟩
    exact h (c :: front) back (by rw [heq, List.cons_append])
  · rintro ⟨hfirst, hrest⟩ front back heq
    rcases List.cons_eq_append_iff.mp heq with ⟨rfl, hback⟩ | ⟨behind, rfl, hback⟩
    · exact hfirst (List.cons.inj hback).1.symm
    · exact hrest behind back hback

/-- A field without commas is one piece if and only if it is read to its end. -/
theorem pieces_eq_singleton_iff {quoted : Bool} {field : List Char} (hcomma : ',' ∉ field) :
    pieces quoted field = some [field] ↔ quotedBehind quoted field = false ∧
      ∀ front back, field = front ++ ';' :: back → quotedBehind quoted front = true := by
  fun_induction pieces quoted field with
  | case1 => simp [quotedBehind]
  | case2 => simp [quotedBehind]
  | case3 c rest ih =>
    have hrest := List.not_mem_of_not_mem_cons hcomma
    have hstep : ∀ text, quotedBehind true (c :: text) = quotedBehind (c != '"') text := by
      intro text
      rw [quotedBehind, List.foldl_cons, Bool.true_bne]
      rfl
    rw [map_extendFirst_eq_iff hrest, ih hrest, forall_split_cons]
    simp only [hstep]
    exact and_congr_right fun _ => (and_iff_right fun _ => rfl).symm
  | case4 rest ih =>
    have hrest := List.not_mem_of_not_mem_cons hcomma
    rw [map_extendFirst_eq_iff hrest, ih hrest, forall_split_cons]
    exact and_congr_right fun _ => (and_iff_right fun h => absurd h (by decide)).symm
  | case5 rest =>
    refine iff_of_false (by simp) ?_
    rintro ⟨-, hquoted⟩
    exact Bool.false_ne_true (hquoted [] rest rfl)
  | case6 => exact absurd List.mem_cons_self hcomma
  | case7 c rest hquote hcomment _ ih =>
    have hrest := List.not_mem_of_not_mem_cons hcomma
    have hstep : ∀ text, quotedBehind false (c :: text) = quotedBehind false text := by
      intro text
      rw [quotedBehind, List.foldl_cons, beq_false_of_ne hquote]
      rfl
    rw [map_extendFirst_eq_iff hrest, ih hrest, forall_split_cons]
    simp only [hstep]
    exact and_congr_right fun _ => (and_iff_right fun h => absurd h hcomment).symm

/-- A text without commas and without blanks at its ends is an operand by itself if and only if it
is closed. -/
theorem splitOperands_eq_singleton_iff {text : List Char} (hne : text ≠ [])
    (htrim : Text.trim text = text) (hcomma : ',' ∉ text) :
    splitOperands text = .ok [text] ↔ IsClosed text := by
  have hpieces : splitOperands text = .ok [text] ↔ pieces false text = some [text] := by
    constructor
    · intro h
      unfold splitOperands at h
      split at h
      · cases h
      · rename_i cut hcut
        obtain ⟨piece, rfl, hprefix⟩ := exists_piece hcomma hcut
        have hsame : Text.trim piece = text := by
          dsimp only at h
          split at h
          · cases h
          · split at h
            · cases h
            · simpa using h
        -- What is cut off is part of the text, and has all of it when its blanks are gone.
        have hlength : text.length ≤ piece.length := by
          rw [← hsame]
          exact (Text.trimEnd_prefix_self _).length_le.trans (List.dropWhile_sublist _).length_le
        rw [hcut, hprefix.eq_of_length_le hlength]
    · intro h
      rw [splitOperands, h]
      simp [htrim, hne]
  rw [hpieces, pieces_eq_singleton_iff hcomma]
  exact ⟨fun ⟨hclosed, hquoted⟩ => ⟨hclosed, hquoted⟩, fun ⟨hclosed, hquoted⟩ => ⟨hclosed, hquoted⟩⟩

/-- A label has no blanks at its ends. -/
theorem trim_label_of_scan {text : List Char} {faults : List LineFault} {line : SourceLine}
    (h : scan text = (faults, some line)) : Text.trim line.label.toList = line.label.toList := by
  obtain ⟨operands, -, -, rfl⟩ := Layout.scan_eq_some h
  rw [String.toList_ofList]
  exact Text.trim_trim _

/-- A label of a line without faults is read as one operand if and only if it is closed. -/
theorem splitOperands_label_iff {text : List Char} {line : SourceLine}
    (h : scan text = ([], some line)) (hne : line.label ≠ "") :
    splitOperands line.label.toList = .ok [line.label.toList] ↔ IsClosed line.label.toList := by
  have hvalid := Layout.isValidName_of_scan h hne
  refine splitOperands_eq_singleton_iff ?_ (trim_label_of_scan h) ?_
  · exact fun hnil => hne (String.toList_eq_nil_iff.mp hnil)
  · intro hcomma
    cases hname : line.label.toList with
    | nil => simp [hname] at hcomma
    | cons first rest =>
      rw [hname] at hvalid hcomma
      simp only [Symbol.isValidName, Bool.and_eq_true, List.all_eq_true] at hvalid
      exact absurd (hvalid.2 ',' hcomma) (by decide)

end SourceLine

/-- A name of a symbol is a symbol by its kind unless it begins with a quotation mark. -/
theorem kind_of_isValidName {name : String} (h : Symbol.isValidName name.toList = true) :
    (Operand.mk name).kind = if name.toList.head? = some '"' then .string else .symbol := by
  rw [Operand.kind, OperandKind.ofText]
  cases hname : name.toList with
  | nil => simp [hname, Symbol.isValidName] at h
  | cons first rest =>
    rw [hname] at h
    simp only [Symbol.isValidName, Bool.and_eq_true, bne_iff_ne, ne_eq] at h
    obtain ⟨⟨⟨⟨hx, hR⟩, hnumber⟩, hequals⟩, -⟩ := h
    rw [List.head?_cons]
    split <;> simp_all

/-- Each kind of operand that a definition takes is accepted by one of its slots. -/
theorem InstructionDefinition.exists_slot_of_fits {definition : InstructionDefinition}
    {kinds : List OperandKind} (h : definition.fits kinds = true) {kind : OperandKind}
    (hkind : kind ∈ kinds) : ∃ slot ∈ definition.operands, slot.accepts kind = true := by
  rw [fits, Bool.and_eq_true, beq_iff_eq, List.all_eq_true] at h
  obtain ⟨hlength, haccepts⟩ := h
  obtain ⟨i, hi, rfl⟩ := List.mem_iff_getElem.mp hkind
  have hslot : i < definition.operands.length := hlength ▸ hi
  refine ⟨definition.operands[i], List.getElem_mem hslot, haccepts (_, _) ?_⟩
  rw [← List.getElem_zip (h := by simpa using ⟨hslot, hi⟩)]
  exact List.getElem_mem _

/-- No instruction takes a quoted text. -/
theorem InstructionSet.accepts_string : ∀ definition ∈ table, ∀ slot ∈ definition.operands,
    slot.accepts .string = false := by
  decide

namespace Program

/-- Whether a symbol of a program is what a line gives to its label: the address of the line's
statement, or what the equation says. -/
structure Defines (program : Program) (line : SourceLine) (symbol : Symbol) : Prop where
  /-- The label has the symbol. -/
  known : program.symbols.get? line.label = some symbol
  /-- The symbol is the program's own. -/
  own : symbol.imported = false
  /-- A label has the address of its statement, and moves with the program. -/
  address : line.operation ≠ ".EQU" → ∃ encoded ∈ program.statements,
    (SourceLine.scan encoded.statement.source.toList).2 = some line ∧
      symbol.value = encoded.statement.address ∧ symbol.relocatable = program.relocatable
  /-- A label of an equation has the number that its operand stands for. -/
  equated : line.operation = ".EQU" → ∃ text, line.operands = [text] ∧
    program.valueOf? text = some symbol.value

/-- A symbol of the program's own is what its name stands for. -/
theorem Defines.valueOf?_label {program : Program} {line : SourceLine} {symbol : Symbol}
    (h : program.Defines line symbol) (hkind : (Operand.mk line.label).kind = .symbol) :
    program.valueOf? line.label = some symbol.value := by
  rw [valueOf?, hkind]
  dsimp only
  rw [h.known, Option.bind_some, h.own, if_neg Bool.false_ne_true]

end Program

namespace Layout

variable {layout : Layout} {program : Program}

/-- Only a line that stores a text has a quoted operand. -/
theorem LaysOut.operation_of_string {statement : Statement} {line : SourceLine}
    (h : layout.LaysOut statement line) {text : String} (htext : text ∈ line.operands)
    (hkind : (Operand.mk text).kind = .string) : line.operation = ".STRZ" := by
  obtain ⟨before, after, -, hstep, hblank, -, -⟩ := h
  have hoperand := List.mem_map_of_mem (f := Operand.mk) htext
  cases hdirective : Directive.ofText? line.operation with
  | some directive =>
    rw [hdirective] at hstep
    by_cases hstored : directive = .text
    · exact Directive.ofText?_eq_some_iff.mp (hstored ▸ hdirective)
    · rcases hstep.constant_or_name hstored _ hoperand with hother | hother
      · cases hkind.symm.trans hother
      · cases hkind.symm.trans hother
  | none =>
    rw [hdirective] at hstep
    generalize statement.content = content at hstep
    cases hstep with
    | blank _ _ hoperation =>
      rw [hblank hoperation] at htext
      cases htext
    | machine labelled definition literals _ hfind =>
      have hmatch := List.find?_some hfind
      rw [Bool.and_eq_true] at hmatch
      obtain ⟨slot, hslot, haccepts⟩ := definition.exists_slot_of_fits hmatch.2
        (List.mem_map_of_mem hoperand)
      rw [hkind, InstructionSet.accepts_string definition (List.mem_of_find?_eq_some hfind) slot
        hslot] at haccepts
      cases haccepts

/-- An equation gives its label the number that its operand stands for in the program. -/
theorem Step.exists_equated {before after : Layout} {number : Nat} {line : SourceLine}
    {content : Content} (hyields : layout.Yields program)
    (hstep : before.Step number line (some .equate) after content) (hkeeps : layout.Keeps after) :
    ∃ text symbol, line.operands = [text] ∧ after.symbols.get? line.label = some symbol ∧
      symbol.imported = false ∧ program.valueOf? text = some symbol.value := by
  cases hstep with
  | equate symbols symbol hlabel hequates hdefine =>
    have hown := (SymbolTable.get?_define hdefine line.label).trans (if_pos rfl)
    cases hequates with
    | copy operand target hoperands hkind hsome himported =>
      obtain ⟨text, hsource, rfl⟩ := List.map_eq_singleton_iff.mp hoperands
      have hknown := hkeeps.symbols _ _ (SymbolTable.get?_define_of_get? hdefine hsome)
      have hvalue := hyields.valueOf?_of_get? hkind hknown himported
      exact ⟨text, _, hsource, hown, rfl, hvalue⟩
    | constant operand value hoperands hkind hparse =>
      obtain ⟨text, hsource, rfl⟩ := List.map_eq_singleton_iff.mp hoperands
      exact ⟨text, _, hsource, hown, rfl, Program.valueOf?_of_constant hkind hparse⟩

/-- The label of a line has a symbol that the line defines. -/
theorem Yields.exists_defines (hyields : layout.Yields program) (hsound : layout.Sound)
    {statement : Statement} {line : SourceLine} (hstatement : statement ∈ layout.statements)
    (hlaid : layout.LaysOut statement line) (hne : line.label ≠ "") :
    ∃ symbol, program.Defines line symbol := by
  have hlies := hyields.liesAt hsound hstatement hlaid
  have hencoded : statement.encode (layout.context program.symbols) ∈ program.statements := by
    rw [hyields.statements]
    exact List.mem_map_of_mem hstatement
  obtain ⟨before, after, -, hstep, -, -, hkeeps⟩ := hlaid
  by_cases hequate : Directive.ofText? line.operation = some .equate
  · rw [hequate] at hstep
    obtain ⟨text, known, hoperands, hknown, hlocal, hvalue⟩ := hstep.exists_equated hyields hkeeps
    obtain ⟨symbol, hsome, hsame, -, himported⟩ :=
      hyields.exists_symbol (hkeeps.symbols _ _ hknown)
    have hoperation := Directive.ofText?_eq_some_iff.mp hequate
    refine ⟨symbol, hsome, himported.trans hlocal, fun hother => absurd hoperation hother,
      fun _ => ⟨text, hoperands, ?_⟩⟩
    rw [hvalue, hsame]
  · have hoperation : line.operation ≠ ".EQU" :=
      fun hother => hequate (Directive.ofText?_eq_some_iff.mpr hother)
    obtain ⟨symbol, hsome, hvalue, hmoves⟩ := hlies.label hne hoperation
    obtain ⟨own, hown, -, -, himported⟩ :=
      hyields.exists_symbol (hkeeps.symbols _ _ (hstep.get?_label hne hequate))
    obtain rfl := Option.some.inj (hsome.symm.trans hown)
    refine ⟨symbol, hsome, himported, fun _ => ⟨_, hencoded, hlies.scan, ?_, hmoves⟩,
      fun hother => absurd hother hoperation⟩
    rw [Statement.statement_encode]
    exact hvalue

/-- Where a statement has the name of a symbol of the program's own as an operand, its field takes
the value of the symbol. -/
theorem Yields.resolve_name (hyields : layout.Yields program) {statement : Statement}
    (hstatement : statement ∈ layout.statements) {field : OperandSlot × Operand}
    (hfield : field ∈ statement.content.fields)
    (hvalid : Symbol.isValidName field.2.text.toList = true) {symbol : Symbol}
    (hsome : program.symbols.get? field.2.text = some symbol)
    (himported : symbol.imported = false) :
    layout.finalContext.resolve statement.place field.1 field.2 =
      .ok (.number symbol.value symbol.relocatable) := by
  rw [finalContext, hyields.symbols]
  cases hresolve : (layout.context program.symbols).resolve statement.place field.1 field.2 with
  | error error =>
    have herror := Statement.mem_errors_encode.mpr ⟨field, hfield, hresolve⟩
    rw [hyields.encodes statement hstatement] at herror
    cases herror
  | ok held =>
    have hresolves := EncodingContext.resolves_of_resolve hresolve
    have hkind : field.2.kind = .symbol := by
      have hown := kind_of_isValidName hvalid
      split at hown
      · exact absurd hown hresolves.kind_ne_string
      · exact hown
    rw [hresolves.eq_number_of_target (.symbol symbol hkind hsome himported)]

end Layout

/-- A label that is read without faults can be referred to if and only if it is closed and does not
begin with a quotation mark: then it is one operand by itself, which is a symbol. In an accepted
program with its line the label has a symbol that the line defines. Another line has the label as an
operand only as a symbol, which then stands for what the line says, or as the text that it stores.
Every field of the program that has it as its operand takes the value of this symbol. -/
theorem label_reference {text : List Char} {line : SourceLine}
    (hscan : SourceLine.scan text = ([], some line)) (hne : line.label ≠ "") :
    (SourceLine.splitOperands line.label.toList = .ok [line.label.toList] ∧
        (Operand.mk line.label).kind = .symbol ↔
      SourceLine.IsClosed line.label.toList ∧ line.label.toList.head? ≠ some '"') ∧
      ∀ hint source program, assemble hint source = .ok program →
        line ∈ SourceLine.ofSource source →
          ∃ symbol, program.Defines line symbol ∧
            (∀ other ∈ SourceLine.ofSource source, line.label ∈ other.operands →
              (Operand.mk line.label).kind = .symbol ∧
                  program.valueOf? line.label = some symbol.value ∨
                (Operand.mk line.label).kind = .string ∧ other.operation = ".STRZ") ∧
            ∀ encoded ∈ program.statements, ∀ field ∈ encoded.statement.content.fields,
              field.2.text = line.label →
                (Layout.ofSource hint source).finalContext.resolve encoded.statement.place field.1
                  field.2 = .ok (.number symbol.value symbol.relocatable) := by
  have hvalid := Layout.isValidName_of_scan hscan hne
  have hkind := kind_of_isValidName hvalid
  refine ⟨?_, fun hint source program h hline => ?_⟩
  · rw [SourceLine.splitOperands_label_iff hscan hne, hkind]
    exact and_congr_right fun _ => by split <;> simp_all
  · have hyields := yields_of_assemble h
    have hsound := Layout.sound_ofSource hyields.errors
    have hlines := Layout.forall₂_laysOut_ofSource hyields.errors
    obtain ⟨statement, hstatement, hlaid⟩ := Layout.exists_statement_of_mem hlines hline
    obtain ⟨symbol, hdefines⟩ := hyields.exists_defines hsound hstatement hlaid hne
    refine ⟨symbol, hdefines, fun other hother hoperand => ?_, ?_⟩
    · split at hkind
      · obtain ⟨_, -, hquotes⟩ := Layout.exists_statement_of_mem hlines hother
        exact .inr ⟨hkind, hquotes.operation_of_string hoperand hkind⟩
      · exact .inl ⟨hkind, hdefines.valueOf?_label hkind⟩
    · intro encoded hencoded field hfield htext
      rw [hyields.statements] at hencoded
      obtain ⟨own, hown, rfl⟩ := List.mem_map.mp hencoded
      rw [Statement.statement_encode] at hfield ⊢
      rw [← htext] at hvalid
      exact hyields.resolve_name hown hfield hvalid (htext ▸ hdefines.known) hdefines.own

/-- A label that another line refers to. -/
theorem label_reference_roundTripLines :
    (SourceLine.splitOperands "Again".toList = .ok ["Again".toList] ∧
        (Operand.mk "Again").kind = .symbol) ∧
      ∃ program symbol, assemble "main" (Text.unlines roundTripLines) = .ok program ∧
        program.Defines ⟨"Again", ".EQU", ["Go"]⟩ symbol ∧
        program.valueOf? "Again" = some symbol.value := by
  have hlines : SourceLine.ofSource (Text.unlines roundTripLines) =
      roundTripLines.filterMap SourceLine.read? := by
    rw [SourceLine.ofSource, roundTrip.lines_eq]
  have hscan : SourceLine.scan "Again    .EQU    Go".toList =
      ([], some ⟨"Again", ".EQU", ["Go"]⟩) := by
    decide +kernel
  have hline : (⟨"Again", ".EQU", ["Go"]⟩ : SourceLine) ∈
      SourceLine.ofSource (Text.unlines roundTripLines) := by
    rw [hlines]
    decide +kernel
  have hother : (⟨"", ".FILL", ["Again"]⟩ : SourceLine) ∈
      SourceLine.ofSource (Text.unlines roundTripLines) := by
    rw [hlines]
    decide +kernel
  have hclosed : SourceLine.IsClosed "Again".toList := by
    refine ⟨by decide, fun front back h => ?_⟩
    have hmem : ';' ∈ "Again".toList := by
      rw [h]
      exact List.mem_append_right _ List.mem_cons_self
    exact absurd hmem (by decide)
  obtain ⟨hoperand, hprograms⟩ := label_reference hscan (by decide)
  obtain ⟨symbol, hdefines, hrefers, -⟩ := hprograms _ _ _ roundTrip.assembled hline
  have hvalue := (hrefers _ hother (List.mem_singleton_self _)).resolve_right
    fun h => absurd h.2 (by decide)
  exact ⟨hoperand.mpr ⟨hclosed, by decide⟩, _, symbol, roundTrip.assembled, hdefines, hvalue.2⟩

/-- The lines of a program with a label that contains a semicolon and begins with another label. -/
def remarkedLabelLines : List String :=
  ["         .ORIG", "A        .FILL   #1", "A;B      .FILL   #2", "         LD      R0,A;B",
    "         .END"]

/-- The program with a semicolon in a label, and its module. -/
def remarkedLabel : Build "main" remarkedLabelLines :=
  .ofLines (by decide +kernel)

/-- A label with a semicolon is read without faults, but as an operand it is the text in front of
the semicolon: the program is accepted, and its instruction refers to the other label. -/
theorem exists_unreachable_label :
    (∃ line, SourceLine.scan "A;B      .FILL   #2".toList = ([], some line) ∧ line.label = "A;B" ∧
        SourceLine.splitOperands line.label.toList = .ok ["A".toList]) ∧
      ∃ program, assemble "main" (Text.unlines remarkedLabelLines) = .ok program ∧
        program.symbols.get? "A" = some ⟨0, true, false, false⟩ ∧
        program.symbols.get? "A;B" = some ⟨1, true, false, false⟩ ∧
        ⟨2, 0x2000, some .pageOffset⟩ ∈ program.words := by
  have hsymbols : remarkedLabel.program.symbols.get? "A" = some ⟨0, true, false, false⟩ ∧
      remarkedLabel.program.symbols.get? "A;B" = some ⟨1, true, false, false⟩ ∧
      ⟨2, 0x2000, some .pageOffset⟩ ∈ remarkedLabel.program.words := by
    decide +kernel
  exact ⟨⟨⟨"A;B", ".FILL", ["#2"]⟩, by decide +kernel, rfl, by decide +kernel⟩, _,
    remarkedLabel.assembled, hsymbols⟩

end PageMachine
