import PageMachine.Proofs.Assembled

/-!
# Programs without line numbers

The number and the text of a line go into error messages and listings, and the assembler decides
nothing by them. `unnumbered` takes both from a layout, and goes through every step of the first
pass; so a layout without them is made from the lines as they are read, in their order, and those
without statements are not seen. The second pass keeps as little of the numbers: layouts that differ
in nothing else both give a program or both do not, and the programs have the same object text.
-/

namespace PageMachine

/-- An error without the number of its line. -/
def AssemblyError.unnumbered (error : AssemblyError) : AssemblyError :=
  { error with line := some 0 }

/-- A statement without its line. -/
def Statement.unnumbered (statement : Statement) : Statement :=
  { statement with line := 0, source := "" }

/-- An encoded statement without its line. -/
def EncodedStatement.unnumbered (encoded : EncodedStatement) : EncodedStatement :=
  { encoded with statement := encoded.statement.unnumbered }

/-- A statement is encoded without regard to its line. -/
theorem Statement.encode_unnumbered (context : EncodingContext) (statement : Statement) :
    statement.unnumbered.encode context = (statement.encode context).unnumbered := by
  obtain ⟨line, source, address, content⟩ := statement
  cases content <;> rfl

namespace Program

/-- A program without the lines of its statements. -/
def unnumbered (program : Program) : Program :=
  { program with statements := program.statements.map EncodedStatement.unnumbered }

/-- The object text has nothing of the lines. -/
theorem objectText_unnumbered (program : Program) :
    program.unnumbered.objectText = program.objectText := by
  have hwords : program.unnumbered.words = program.words := by
    simp [words, literalWords, unnumbered, List.flatMap_map, EncodedStatement.unnumbered]
  have himports : program.unnumbered.imports = program.imports := by
    simp [imports, unnumbered, List.flatMap_map, EncodedStatement.unnumbered]
  rw [objectText, objectText, records, records, hwords, himports]
  rfl

end Program

namespace SourceLine

/-- What the assembler reads in a line: its faults and fields, and nothing where there is no
statement. -/
def scan? (line : List Char) : Option (List LineFault × Option SourceLine) :=
  if isEmptyLine line then none else some (scan line)

/-- What the assembler reads in a text, line by line. -/
def scanAll (text : List Char) : List (List LineFault × Option SourceLine) :=
  (Text.splitLines text).filterMap scan?

end SourceLine

namespace Layout

/-- A layout without the numbers and texts of its lines. -/
@[simps]
def unnumbered (layout : Layout) : Layout :=
  { layout with
    errors := layout.errors.map AssemblyError.unnumbered
    statements := layout.statements.map Statement.unnumbered
    start := layout.start.map fun start => (0, start.2)
    exports := layout.exports.map fun name => (0, name.2) }

variable (layout : Layout) (line : Nat)

/-- Reporting goes without numbers. -/
@[simp]
theorem unnumbered_report (kind : ErrorClass) (fault : AssemblyFault) :
    (layout.report line kind fault).unnumbered = layout.unnumbered.report 0 kind fault := by
  simp [unnumbered, report, AssemblyError.unnumbered]

/-- Defining a label goes without numbers. -/
theorem unnumbered_defineLabel (label : String) :
    (layout.defineLabel line label).unnumbered = layout.unnumbered.defineLabel 0 label := by
  simp only [defineLabel, unnumbered_symbols, unnumbered_location, unnumbered_relocatable]
  split
  · split
    · rfl
    · exact layout.unnumbered_report line _ _
  · rfl

/-- Placing the origin goes without numbers. -/
theorem unnumbered_placeOrigin (operands : List Operand) :
    (layout.placeOrigin line operands).unnumbered = layout.unnumbered.placeOrigin 0 operands := by
  unfold placeOrigin
  split
  · rfl
  · split
    · split
      · exact layout.unnumbered_report line _ _
      · split
        · rfl
        · exact layout.unnumbered_report line _ _
    · exact layout.unnumbered_report line _ _
  · exact layout.unnumbered_report line _ _

/-- Beginning goes without numbers. -/
theorem unnumbered_begin (label : String) (operands : List Operand) :
    (layout.begin line label operands).unnumbered = layout.unnumbered.begin 0 label operands := by
  let checked :=
    if layout.statements.isEmpty then layout else layout.report line .whole .lateOrigin
  have hchecked : checked.unnumbered =
      if layout.unnumbered.statements.isEmpty then layout.unnumbered
      else layout.unnumbered.report 0 .whole .lateOrigin := by
    simp only [checked, unnumbered_statements, List.isEmpty_map, apply_ite unnumbered,
      unnumbered_report]
  let placed := { checked with originSeen := true }.placeOrigin line operands
  have hplaced : placed.unnumbered =
      { checked.unnumbered with originSeen := true }.placeOrigin 0 operands :=
    unnumbered_placeOrigin _ line operands
  unfold begin
  rw [unnumbered_originSeen, ← hchecked]
  dsimp only
  rw [← hplaced]
  by_cases hseen : layout.originSeen
  · rw [if_pos hseen, if_pos hseen]
    exact layout.unnumbered_report line _ _
  · rw [if_neg hseen, if_neg hseen]
    by_cases hlabel : label.isEmpty
    · rw [if_pos hlabel, if_pos hlabel]
    · rw [if_neg hlabel, if_neg hlabel]
      exact unnumbered_defineLabel _ line label

/-- Ending goes without numbers. -/
theorem unnumbered_finish (operands : List Operand) :
    (layout.finish line operands).unnumbered = layout.unnumbered.finish 0 operands := by
  unfold finish
  rw [unnumbered_endSeen]
  split
  · exact layout.unnumbered_report line _ _
  · split
    · rfl
    · split
      · rfl
      · rfl
      · exact unnumbered_report _ line _ _
    · exact unnumbered_report _ line _ _

/-- Exporting a name goes without numbers. -/
theorem unnumbered_exportName (operand : Operand) :
    (exportName line layout operand).unnumbered = exportName 0 layout.unnumbered operand := by
  unfold exportName
  split
  · simp [unnumbered]
  · exact layout.unnumbered_report line _ _

/-- Importing a name goes without numbers. -/
theorem unnumbered_importName (operand : Operand) :
    (importName line layout operand).unnumbered = importName 0 layout.unnumbered operand := by
  unfold importName
  rw [unnumbered_symbols]
  split
  · split
    · rfl
    · exact layout.unnumbered_report line _ _
  · exact layout.unnumbered_report line _ _

/-- What goes without numbers for one name does so for several. -/
theorem unnumbered_forNames {act : Nat → Layout → Operand → Layout}
    (hact : ∀ layout : Layout, ∀ operand,
      (act line layout operand).unnumbered = act 0 layout.unnumbered operand)
    (operands : List Operand) (missing : AssemblyFault) :
    (layout.forNames line operands missing act).unnumbered =
      layout.unnumbered.forNames 0 operands missing act := by
  unfold forNames
  split
  · exact layout.unnumbered_report line _ _
  · exact (List.foldl_hom unnumbered fun layout operand => (hact layout operand).symm).symm

/-- Laying out an instruction goes without numbers. -/
theorem unnumbered_machine (operation : String) (operands : List Operand) :
    layout.unnumbered.machine 0 operation operands =
      ((layout.machine line operation operands).1.unnumbered,
        (layout.machine line operation operands).2) := by
  unfold machine
  rw [unnumbered_literals]
  split
  · exact Prod.ext (layout.unnumbered_report line _ _).symm rfl
  · split
    · exact Prod.ext (layout.unnumbered_report line _ _).symm rfl
    · rfl

/-- Carrying out a directive goes without numbers. -/
theorem unnumbered_direct (label : String) (operands : List Operand) (directive : Directive) :
    layout.unnumbered.direct 0 label operands directive =
      ((layout.direct line label operands directive).1.unnumbered,
        (layout.direct line label operands directive).2) := by
  have hreport := fun fault => (layout.unnumbered_report line .meaning fault).symm
  cases directive with
  | origin => exact Prod.ext (layout.unnumbered_begin line label operands).symm rfl
  | finish => exact Prod.ext (layout.unnumbered_finish line operands).symm rfl
  | exports =>
    exact Prod.ext (layout.unnumbered_forNames line (unnumbered_exportName · line) _ _).symm rfl
  | imports =>
    exact Prod.ext (layout.unnumbered_forNames line (unnumbered_importName · line) _ _).symm rfl
  | equate | reserve =>
    simp only [direct, unnumbered_symbols]
    split
    · rfl
    · exact Prod.ext (hreport _) rfl
  | fill | text =>
    simp only [direct]
    split
    · rfl
    · exact Prod.ext (hreport _) rfl

/-- Defining the label of a line goes without numbers. -/
theorem unnumbered_labelLine (source : SourceLine) :
    (layout.labelLine line source).unnumbered = layout.unnumbered.labelLine 0 source := by
  unfold labelLine
  split
  · rfl
  · split
    · rfl
    · rfl
    · exact layout.unnumbered_report line _ _
    · exact layout.unnumbered_report line _ _
    · exact layout.unnumbered_report line _ _
    · exact layout.unnumbered_defineLabel line _

/-- Carrying out the operation of a line goes without numbers. -/
theorem unnumbered_operate (source : SourceLine) :
    layout.unnumbered.operate 0 source =
      ((layout.operate line source).1.unnumbered, (layout.operate line source).2) := by
  unfold operate
  dsimp only
  split
  · exact layout.unnumbered_direct line _ _ _
  · split
    · split
      · rfl
      · exact Prod.ext (layout.unnumbered_report line _ _).symm rfl
    · exact layout.unnumbered_machine line _ _

/-- A statement is added without numbers. -/
theorem unnumbered_addStatement (text : String) (source : SourceLine) :
    (layout.addStatement line text source).unnumbered =
      layout.unnumbered.addStatement 0 "" source := by
  unfold addStatement
  rw [← unnumbered_labelLine layout line, unnumbered_operate _ line]
  simp [push, unnumbered, Statement.unnumbered]

/-- Add what was read in a line, without its number. -/
def addScanned (layout : Layout) (read : List LineFault × Option SourceLine) : Layout :=
  let noted := read.1.foldl (fun l fault => l.report 0 .form (.line fault)) layout
  match read.2 with
  | none => noted
  | some source => noted.addStatement 0 "" source

/-- Of a line only what is read in it is added, apart from its number. -/
theorem unnumbered_addLine (text : String) :
    (layout.addLine line text).unnumbered =
      (SourceLine.scan? text.toList).elim layout.unnumbered layout.unnumbered.addScanned := by
  unfold addLine SourceLine.scan?
  split
  · rfl
  · have hnoted : ∀ faults : List LineFault,
        faults.foldl (fun l fault => l.report 0 .form (.line fault)) layout.unnumbered =
          (faults.foldl (fun l fault => l.report line .form (.line fault)) layout).unnumbered :=
      fun faults => List.foldl_hom unnumbered fun l fault => (l.unnumbered_report line _ _).symm
    rw [Option.elim_some]
    generalize SourceLine.scan text.toList = read
    obtain ⟨faults, source?⟩ := read
    dsimp only [addScanned]
    rw [hnoted]
    cases source? with
    | none => rfl
    | some source => exact unnumbered_addStatement _ line text source

/-- Of several lines only what is read in them is added, apart from their numbers. -/
theorem unnumbered_addLines (first : Nat) (texts : List String) :
    (layout.addLines first texts).unnumbered =
      (texts.filterMap fun text => SourceLine.scan? text.toList).foldl addScanned
        layout.unnumbered := by
  induction texts generalizing layout first with
  | nil => rfl
  | cons text rest ih =>
    rw [addLines, ih, unnumbered_addLine, List.filterMap_cons]
    cases SourceLine.scan? text.toList <;> rfl

/-- The layout of a source text comes from what is read in its lines, apart from their numbers. -/
theorem unnumbered_ofSource (hint source : String) :
    (ofSource hint source).unnumbered =
      (SourceLine.scanAll source.toList).foldl addScanned (initial hint) := by
  rw [ofSource, unnumbered_addLines, Text.lines, List.filterMap_map]
  have hread : (fun text => SourceLine.scan? text.toList) ∘ String.ofList = SourceLine.scan? := by
    funext line
    simp
  rw [hread]
  rfl

/-- Marking an export goes without numbers. -/
theorem markExport_unnumbered (table : SymbolTable × List AssemblyError) (name : Nat × String) :
    markExport (table.1, table.2.map AssemblyError.unnumbered) (0, name.2) =
      ((markExport table name).1, (markExport table name).2.map AssemblyError.unnumbered) := by
  have hfail : ∀ fault,
      (table.2 ++ [AssemblyError.mk (some name.1) .meaning fault]).map AssemblyError.unnumbered =
        table.2.map AssemblyError.unnumbered ++ [⟨some 0, .meaning, fault⟩] := by
    simp [AssemblyError.unnumbered]
  unfold markExport
  dsimp only
  split
  · rw [hfail]
  · split
    · rw [hfail]
    · split
      · rfl
      · rw [hfail]

/-- The symbols to be exported are marked without regard to numbers. -/
theorem exportedSymbols_unnumbered :
    layout.unnumbered.exportedSymbols =
      (layout.exportedSymbols.1, layout.exportedSymbols.2.map AssemblyError.unnumbered) := by
  let unnumber (table : SymbolTable × List AssemblyError) : SymbolTable × List AssemblyError :=
    (table.1, table.2.map AssemblyError.unnumbered)
  unfold exportedSymbols
  rw [unnumbered_exports, List.foldl_map]
  change layout.exports.foldl (fun table name => markExport table (0, name.2))
      (unnumber (layout.symbols, [])) =
    unnumber (layout.exports.foldl markExport (layout.symbols, []))
  exact List.foldl_hom unnumber markExport_unnumbered

/-- The start does not depend on the number of the line that gives it. -/
theorem startAddress_unnumbered_eq_ok_iff {symbols : SymbolTable} {start : Word} :
    layout.unnumbered.startAddress symbols = .ok start ↔
      layout.startAddress symbols = .ok start := by
  unfold startAddress
  rw [unnumbered_start]
  cases layout.start with
  | none => rfl
  | some given =>
    dsimp only [Option.map_some]
    cases startValue symbols given.2 with
    | error fault => simp
    | ok value =>
      dsimp only
      split
      · change (if layout.Contains value.toNat then _ else _) = _ ↔ _
        split <;> simp
      · simp

variable {layout}

/-- Layouts that only differ in numbers have nothing wrong together, and yield programs that only
differ in them. -/
theorem Yields.exists_of_unnumbered_eq {other : Layout} {program : Program}
    (h : layout.Yields program) (hsame : layout.unnumbered = other.unnumbered) :
    ∃ twin, other.Yields twin ∧ twin.unnumbered = program.unnumbered := by
  have hkept : ∀ {α : Type} (part : Layout → α), part layout.unnumbered = part other.unnumbered :=
    fun part => congrArg part hsame
  have hcontext : layout.context program.symbols = other.context program.symbols :=
    hkept (context · program.symbols)
  let encoded := other.statements.map (Statement.encode (other.context program.symbols))
  have hencoded : encoded.map EncodedStatement.unnumbered =
      program.statements.map EncodedStatement.unnumbered := by
    have hstatements := hkept Layout.statements
    rw [unnumbered_statements, unnumbered_statements] at hstatements
    have hmap := congrArg (List.map (Statement.encode (layout.context program.symbols))) hstatements
    rw [h.statements]
    simpa [encoded, ← hcontext, Function.comp_def, Statement.encode_unnumbered] using hmap.symm
  have hexports := other.exportedSymbols_unnumbered
  rw [← hsame, layout.exportedSymbols_unnumbered, h.symbols] at hexports
  obtain ⟨htable, hnone⟩ := Prod.mk.inj hexports
  refine ⟨{ program with statements := encoded }, ?_, ?_⟩
  · exact
      { errors := by
          have herrors := hkept Layout.errors
          rw [unnumbered_errors, unnumbered_errors, h.errors] at herrors
          exact List.map_eq_nil_iff.mp herrors.symm
        problems := (hkept Layout.problems).symm.trans h.problems
        symbols := Prod.ext htable.symm (List.map_eq_nil_iff.mp hnone.symm)
        start := by
          rw [← startAddress_unnumbered_eq_ok_iff, ← hsame, startAddress_unnumbered_eq_ok_iff]
          exact h.start
        encodes := by
          intro statement hstatement
          have hmem := List.mem_map_of_mem (f := EncodedStatement.unnumbered)
            (List.mem_map_of_mem (f := Statement.encode (other.context program.symbols)) hstatement)
          rw [hencoded, h.statements] at hmem
          obtain ⟨known, hknown, heq⟩ := List.mem_map.mp hmem
          obtain ⟨twin, htwin, rfl⟩ := List.mem_map.mp hknown
          exact (congrArg EncodedStatement.errors heq).symm.trans (h.encodes twin htwin)
        statements := rfl
        literals := h.literals.trans (hkept Layout.pool)
        segmentName := h.segmentName.trans (hkept Layout.segmentName)
        origin := h.origin.trans (hkept Layout.origin)
        relocatable := h.relocatable.trans (hkept Layout.relocatable)
        length := h.length.trans (hkept fun l => l.stop - l.origin.toNat) }
  · exact congrArg (fun statements => { program with statements := statements }) hencoded

end Layout

/-- A text in whose lines the same is read as in those of an accepted one is accepted, too, and has
the same object text. -/
theorem exists_assemble_of_scanAll_eq {hint source other : String} {program : Program}
    (hsame : SourceLine.scanAll source.toList = SourceLine.scanAll other.toList)
    (h : assemble hint source = .ok program) :
    ∃ twin, assemble hint other = .ok twin ∧ twin.objectText = program.objectText := by
  have hlayouts : (Layout.ofSource hint source).unnumbered =
      (Layout.ofSource hint other).unnumbered := by
    rw [Layout.unnumbered_ofSource, Layout.unnumbered_ofSource, hsame]
  obtain ⟨twin, htwin, heq⟩ := (yields_of_assemble h).exists_of_unnumbered_eq hlayouts
  refine ⟨twin, htwin.toProgram, ?_⟩
  rw [← twin.objectText_unnumbered, heq, program.objectText_unnumbered]

end PageMachine
