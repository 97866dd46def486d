import PageMachine.Proofs.LoadableProgram
import PageMachine.Proofs.StatementSource

/-!
# Names of symbols

A symbol of an accepted program is defined by a label or imported. A label has been read without
faults and can name a symbol. Of a name to be imported only the kind is asked, which its first
character decides, so that such a name may contain a space, or a comma between quotes. No export is
concerned, since an imported symbol is not exported; but the record of an import with such a name
cannot be read. Names of literals and registers are no matter of this file.
-/

namespace PageMachine

/-- Whether a line imports a name, as an operand that is a symbol by its kind. -/
structure SourceLine.Imports (line : SourceLine) (name : String) : Prop where
  /-- The line lists names to be imported. -/
  operation : line.operation = ".EXT"
  /-- The name is one of them. -/
  operand : name ∈ line.operands
  /-- It begins like a symbol. -/
  kind : (Operand.mk name).kind = .symbol

/-- An imported name is not empty. -/
theorem SourceLine.Imports.name_ne {text : List Char} {line : SourceLine} {name : String}
    (h : line.Imports name) (hscan : SourceLine.scan text = ([], some line)) : name ≠ "" := by
  obtain ⟨operands, hsplit, -, rfl⟩ := Layout.scan_eq_some hscan
  obtain ⟨chars, hchars, rfl⟩ := List.mem_map.mp h.operand
  obtain ⟨hne, -⟩ := splitOperands_spec hsplit chars hchars
  exact fun hempty => hne (by simpa using congrArg String.toList hempty)

/-- An operand that is a symbol by its kind can name one if and only if it contains nothing that
separates operands. -/
theorem isValidName_iff_of_kind {name : String} (hne : name ≠ "")
    (hkind : (Operand.mk name).kind = .symbol) :
    Symbol.isValidName name.toList = true ↔ ∀ c ∈ name.toList, c ≠ ' ' ∧ c ≠ ',' := by
  rw [Operand.kind, OperandKind.ofText] at hkind
  cases hname : name.toList with
  | nil => exact absurd (String.toList_eq_nil_iff.mp hname) hne
  | cons first rest =>
    rw [hname, List.head?_cons] at hkind
    have hfirst : first ≠ 'x' ∧ first ≠ 'R' ∧ first ≠ '#' ∧ first ≠ '=' := by
      refine ⟨?_, ?_, ?_, ?_⟩ <;> rintro rfl <;> cases hkind
    simp [Symbol.isValidName, hfirst]

namespace Layout

/-- Whether every imported symbol of a layout is named by the line of a statement. -/
def Declared (layout : Layout) : Prop :=
  ∀ name symbol, layout.symbols.get? name = some symbol → symbol.imported = true →
    ∃ statement ∈ layout.statements, ∃ source,
      SourceLine.scan statement.source.toList = ([], some source) ∧ source.Imports name

/-- A step with its statement keeps the imported symbols declared. -/
theorem Declared.push {layout after : Layout} {line : Nat} {text : String} {source : SourceLine}
    {content : Content} (hdeclared : layout.Declared)
    (hscan : SourceLine.scan text.toList = ([], some source))
    (hstep : layout.Step line source (Directive.ofText? source.operation) after content) :
    (after.push line text content).Declared := by
  have hstatements := hstep.statements_push text
  have hold : ∀ name symbol, layout.symbols.get? name = some symbol → symbol.imported = true →
      ∃ statement ∈ (after.push line text content).statements, ∃ source,
        SourceLine.scan statement.source.toList = ([], some source) ∧ source.Imports name := by
    intro name symbol hsome himported
    obtain ⟨statement, hstatement, hline⟩ := hdeclared name symbol hsome himported
    rw [hstatements]
    exact ⟨statement, List.mem_append_left _ hstatement, hline⟩
  refine hstep.forall_defined (fun _ himported => nomatch himported) ?_ ?_ hold
  · intro _ symbol hequates himported
    cases hequates <;> cases himported
  · intro hdirective operand hoperand hkind _
    rw [hstatements]
    exact ⟨_, List.mem_append_right _ (List.mem_singleton_self _), source, hscan,
      Directive.ofText?_eq_some_iff.mp hdirective, hoperand, hkind⟩

/-- Every imported symbol of a source text without errors is declared. -/
theorem declared_ofSource {hint source : String} (h : (ofSource hint source).errors = []) :
    (ofSource hint source).Declared := by
  refine ofSource_induction (motive := Declared) ?_ ?_ h
  · simp [Declared, initial, SymbolTable.get?, SymbolTable.empty]
  · intro layout after line text scanned content hdeclared _ hscan hstep
    exact hdeclared.push hscan hstep

/-- Names that are imported one after the other have symbols. -/
theorem get?_of_mem_imports {operands : List Operand} {table grown : SymbolTable}
    (h : operands.foldlM (fun table operand => table.defineImport operand.text) table = .ok grown)
    {operand : Operand} (hoperand : operand ∈ operands) :
    grown.get? operand.text = some .ofImport := by
  induction operands generalizing table with
  | nil => cases hoperand
  | cons first rest ih =>
    rw [List.foldlM_cons] at h
    obtain ⟨defined, hdefine, hothers⟩ := exists_of_bind_eq_ok h
    rcases List.mem_cons.mp hoperand with rfl | hmem
    · exact get?_of_imports hothers ((SymbolTable.get?_define hdefine _).trans (if_pos rfl))
    · exact ih hothers hmem

/-- A name listed for import has an imported symbol. -/
theorem LaysOut.get?_import {layout : Layout} {statement : Statement} {source : SourceLine}
    (h : layout.LaysOut statement source) (hoperation : source.operation = ".EXT") {name : String}
    (hname : name ∈ source.operands) : layout.symbols.get? name = some .ofImport := by
  obtain ⟨before, after, -, hstep, -, -, hkeeps⟩ := h
  rw [hoperation, show Directive.ofText? ".EXT" = some .imports from rfl] at hstep
  refine hkeeps.symbols name .ofImport ?_
  generalize statement.content = content at hstep
  cases hstep with
  | imports symbols _ _ _ hdefine =>
    exact get?_of_mem_imports hdefine (List.mem_map_of_mem hname)

end Layout

section

variable {hint source : String} {program : Program} {name : String} {symbol : Symbol}

/-- An imported symbol of an accepted program is named by a line. -/
theorem exists_line_of_imported (h : assemble hint source = .ok program)
    (hsome : program.symbols.get? name = some symbol) (himported : symbol.imported = true) :
    ∃ line ∈ SourceLine.ofSource source, line.Imports name ∧ name ≠ "" := by
  have hyields := yields_of_assemble h
  have hlines := Layout.forall₂_laysOut_ofSource hyields.errors
  obtain ⟨known, hknown, -, -, hsame⟩ := hyields.exists_known hsome
  obtain ⟨statement, hstatement, line, hscan, hline⟩ :=
    Layout.declared_ofSource hyields.errors name known hknown (hsame.symm.trans himported)
  obtain ⟨own, hown, hlaid⟩ := Layout.exists_line_of_mem hlines hstatement
  obtain rfl := hlaid.eq_of_scan (congrArg Prod.snd hscan)
  exact ⟨own, hown, hline, hline.name_ne hscan⟩

/-- A name that a line lists for import has an imported symbol. -/
theorem exists_imported_of_line (h : assemble hint source = .ok program) {line : SourceLine}
    (hline : line ∈ SourceLine.ofSource source) (hoperation : line.operation = ".EXT")
    (hname : name ∈ line.operands) :
    ∃ symbol, program.symbols.get? name = some symbol ∧ symbol.imported = true := by
  have hyields := yields_of_assemble h
  obtain ⟨statement, -, hlaid⟩ := Layout.exists_statement_of_mem
    (Layout.forall₂_laysOut_ofSource hyields.errors) hline
  obtain ⟨symbol, hsome, -, -, himported⟩ :=
    hyields.exists_symbol (hlaid.get?_import hoperation hname)
  exact ⟨symbol, hsome, himported⟩

/-- A symbol of an accepted program that is not imported has a name that can name it. -/
theorem isValidName_of_local (h : assemble hint source = .ok program)
    (hsome : program.symbols.get? name = some symbol) (hlocal : symbol.imported = false) :
    Symbol.isValidName name.toList = true := by
  have hyields := yields_of_assemble h
  have hordered := Layout.ordered_ofSource hyields.errors
  obtain ⟨known, hknown, -, -, hsame⟩ := hyields.exists_known hsome
  exact (hordered.names name known hknown).resolve_left fun himported =>
    Bool.false_ne_true (hlocal.symm.trans (hsame.trans himported))

/-- A symbol's name can name it, except that an imported one may contain what separates operands. -/
theorem isValidName_iff_of_assemble (h : assemble hint source = .ok program)
    (hsome : program.symbols.get? name = some symbol) :
    Symbol.isValidName name.toList = true ↔
      (symbol.imported = true → ∀ c ∈ name.toList, c ≠ ' ' ∧ c ≠ ',') := by
  cases himported : symbol.imported with
  | false => exact iff_of_true (isValidName_of_local h hsome himported) nofun
  | true =>
    obtain ⟨line, -, hline, hne⟩ := exists_line_of_imported h hsome himported
    rw [isValidName_iff_of_kind hne hline.kind, forall_prop_of_true rfl]

end

/-- The names of an accepted program's symbols. The imported ones are those that lines of `.EXT`
list; they are symbols by their kind, and can name one unless they contain a space or a comma. All
others can name symbols. Every export therefore reads back as itself, and an import does so if and
only if its name, which is an imported one, contains neither. -/
theorem names_of_assemble {hint source : String} {program : Program}
    (h : assemble hint source = .ok program) :
    (∀ name, (∃ symbol, program.symbols.get? name = some symbol ∧ symbol.imported = true) ↔
        ∃ line ∈ SourceLine.ofSource source, line.operation = ".EXT" ∧ name ∈ line.operands) ∧
      (∀ name symbol, program.symbols.get? name = some symbol →
        (symbol.imported = true → (Operand.mk name).kind = .symbol) ∧
          (Symbol.isValidName name.toList = true ↔
            (symbol.imported = true → ∀ c ∈ name.toList, c ≠ ' ' ∧ c ≠ ','))) ∧
      (∀ name value moves, .exported name value moves ∈ program.records →
        Record.parse (Record.exported name value moves).render =
          .ok (.exported name value moves)) ∧
      ∀ site, .imported site ∈ program.records →
        (∃ symbol, program.symbols.get? site.name = some symbol ∧ symbol.imported = true) ∧
          (Record.parse (Record.imported site).render = .ok (.imported site) ↔
            ∀ c ∈ site.name.toList, c ≠ ' ' ∧ c ≠ ',') := by
  have hyields := yields_of_assemble h
  have hsound := Layout.sound_ofSource hyields.errors
  refine ⟨fun name => ⟨?_, ?_⟩, fun name symbol hsome => ⟨?_, ?_⟩, ?_, ?_⟩
  · rintro ⟨symbol, hsome, himported⟩
    obtain ⟨line, hmem, hline, -⟩ := exists_line_of_imported h hsome himported
    exact ⟨line, hmem, hline.operation, hline.operand⟩
  · rintro ⟨line, hmem, hoperation, hoperand⟩
    exact exists_imported_of_line h hmem hoperation hoperand
  · intro himported
    obtain ⟨line, -, hline, -⟩ := exists_line_of_imported h hsome himported
    exact hline.kind
  · exact isValidName_iff_of_assemble h hsome
  · intro name value moves hrecord
    obtain ⟨own, hsome, hexported, -⟩ := Program.exported_mem_records_iff.mp hrecord
    obtain ⟨hlocal, -⟩ := hyields.exists_of_exported hsound hsome hexported
    rw [Record.parse, Record.render, String.toList_ofList]
    exact Record.ofChars_exported_iff.mpr ⟨isValidName_of_local h hsome hlocal, rfl⟩
  · intro site hrecord
    have hsite : site ∈ program.imports := by
      rw [← program.sites_of_records]
      exact List.mem_filterMap.mpr ⟨_, hrecord, rfl⟩
    obtain ⟨symbol, hsome, himported⟩ := hyields.exists_of_mem_imports hsound hsite
    have hvalid := isValidName_iff_of_assemble h hsome
    rw [forall_prop_of_true himported] at hvalid
    refine ⟨⟨symbol, hsome, himported⟩, ?_⟩
    rw [← hvalid, Record.parse, Record.render, String.toList_ofList]
    exact Record.ofChars_imported_iff.trans (and_iff_left rfl)

/-- The names of a program with an export and an import. -/
theorem names_roundTripLines :
    ∃ program, assemble "main" (Text.unlines roundTripLines) = .ok program ∧
      Symbol.isValidName "Print".toList = true ∧
      Record.parse (Record.exported "Less" 0xFFFF false).render =
        .ok (.exported "Less" 0xFFFF false) ∧
      ∃ site, .imported site ∈ program.records ∧ site.name = "Print" ∧
        Record.parse (Record.imported site).render = .ok (.imported site) := by
  obtain ⟨-, hvalid, hexports, himports⟩ := names_of_assemble roundTrip.assembled
  have hsome : roundTrip.program.symbols.get? "Print" = some .ofImport := by decide +kernel
  have hexport : .exported "Less" 0xFFFF false ∈ roundTrip.program.records := by decide +kernel
  have himport : .imported ⟨1, .pageOffset, "Print"⟩ ∈ roundTrip.program.records := by
    decide +kernel
  exact ⟨_, roundTrip.assembled, (hvalid _ _ hsome).2.mpr fun _ => by simp,
    hexports _ _ _ hexport, _, himport, rfl, (himports _ himport).2.mpr (by simp)⟩

/-- The lines of a program that imports a name with a space and calls it. -/
def spacedImportLines : List String :=
  ["         .ORIG", "         .EXT    A B", "         JSR     A B", "         .END"]

/-- The program that imports a name with a space. -/
def spacedImport : { program //
    ((Layout.initial "main").addLines 1 spacedImportLines).toProgram = .ok program } :=
  okValue _ (by decide +kernel)

/-- The program is accepted with a symbol that its name cannot name, and the record of the import
cannot be read. -/
theorem exists_invalid_name :
    ∃ program symbol site, assemble "main" (Text.unlines spacedImportLines) = .ok program ∧
      program.symbols.get? "A B" = some symbol ∧ Symbol.isValidName "A B".toList = false ∧
      .imported site ∈ program.records ∧ site.name = "A B" ∧
      Record.parse (Record.imported site).render = .error (.invalidName "A B") := by
  have hprogram : assemble "main" (Text.unlines spacedImportLines) = .ok spacedImport.1 :=
    (assemble_unlines "main" (by decide)).trans spacedImport.2
  have hsome : spacedImport.1.symbols.get? "A B" = some .ofImport := by decide +kernel
  have hrecord : .imported ⟨0, .pageOffset, "A B"⟩ ∈ spacedImport.1.records := by decide +kernel
  exact ⟨_, _, _, hprogram, hsome, by decide, hrecord, rfl, by decide +kernel⟩

end PageMachine
