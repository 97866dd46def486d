import Mathlib.Data.List.Forall2
import PageMachine.Proofs.Labels

/-!
# The lines behind the statements

Every line of an accepted source text that is neither blank nor a comment has become one statement,
in the same order. `LaysOut` says what this means for one of them: which step laid it out, from which
layout and to which, and that the final layout still has every symbol and every export that was
known then. What an operand is worth can therefore be asked of the program, although the line was
read when less was known. What the second pass makes of a statement is not said here.
-/

namespace PageMachine

/-- The operation that names a directive. -/
def Directive.name : Directive → String
  | .origin => ".ORIG"
  | .equate => ".EQU"
  | .fill => ".FILL"
  | .text => ".STRZ"
  | .reserve => ".BLKW"
  | .finish => ".END"
  | .exports => ".ENT"
  | .imports => ".EXT"

/-- A directive is named by one operation only. -/
theorem Directive.ofText?_eq_some_iff {operation : String} {directive : Directive} :
    ofText? operation = some directive ↔ operation = directive.name := by
  constructor
  · intro h
    unfold ofText? at h
    split at h <;> cases h <;> rfl
  · rintro rfl
    cases directive <;> rfl

/-- An operation with a definition is a mnemonic. -/
theorem InstructionSet.isMnemonic_of_find? {operation : String} {kinds : List OperandKind}
    {definition : InstructionDefinition} (h : find? operation kinds = some definition) :
    isMnemonic operation = true := by
  have hmatch := List.find?_some h
  rw [Bool.and_eq_true] at hmatch
  exact List.any_eq_true.mpr ⟨definition, List.mem_of_find?_eq_some h, hmatch.1⟩

/-- No directive is named by a mnemonic. -/
theorem Directive.ofText?_of_isMnemonic {operation : String}
    (h : InstructionSet.isMnemonic operation = true) : ofText? operation = none := by
  rw [Option.eq_none_iff_forall_ne_some]
  intro directive hdirective
  rw [ofText?_eq_some_iff.mp hdirective] at h
  revert h
  cases directive <;> decide

namespace SourceLine

/-- The line that a text is read as, unless it is blank or a comment. -/
def read? (text : String) : Option SourceLine :=
  if isEmptyLine text.toList then none else (scan text.toList).2

/-- The lines of a source text that are neither blank nor comments. -/
def ofSource (source : String) : List SourceLine :=
  (Text.lines source).filterMap read?

end SourceLine

namespace Layout

/-- Whether a layout still has what an earlier one knew. -/
structure Keeps (later earlier : Layout) : Prop where
  /-- Symbols are as they were. -/
  symbols : ∀ name symbol, earlier.symbols.get? name = some symbol →
    later.symbols.get? name = some symbol
  /-- Names to be exported are still to be exported. -/
  exports : earlier.exports ⊆ later.exports
  /-- Whether the program moves has not changed. -/
  relocatable : later.relocatable = earlier.relocatable
  /-- The origin is where it was. -/
  origin : later.origin = earlier.origin

/-- What is kept twice is kept. -/
theorem Keeps.trans {last later earlier : Layout} (hlast : last.Keeps later)
    (hlater : later.Keeps earlier) : last.Keeps earlier where
  symbols := fun name symbol h => hlast.symbols name symbol (hlater.symbols name symbol h)
  exports := List.Subset.trans hlater.exports hlast.exports
  relocatable := hlast.relocatable.trans hlater.relocatable
  origin := hlast.origin.trans hlater.origin

/-- No step takes away a name to be exported. -/
theorem Step.exports_subset {layout after : Layout} {line : Nat} {source : SourceLine}
    {directive : Option Directive} {content : Content}
    (hstep : layout.Step line source directive after content) : layout.exports ⊆ after.exports := by
  have hlabels : ∀ {start labelled : Layout}, start.Labels source.label labelled →
      labelled.exports = start.exports := by
    intro start labelled h
    obtain ⟨symbols, rfl⟩ := h.exists_eq
    rfl
  cases hstep with
  | blank labelled h => exact (hlabels h).symm ▸ List.Subset.refl _
  | machine labelled _ _ h => exact (hlabels h).symm ▸ List.Subset.refl layout.exports
  | origin placed labelled _ _ hplace h =>
    rw [hlabels h, named_eq]
    cases hplace <;> exact List.Subset.refl _
  | fill labelled _ h => exact (hlabels h).symm ▸ List.Subset.refl _
  | text labelled _ h => exact (hlabels h).symm ▸ List.Subset.refl _
  | reserve labelled _ h => exact (hlabels h).symm ▸ List.Subset.refl _
  | exports => exact List.subset_append_left _ _
  | _ => exact List.Subset.refl _

/-- A step keeps what was known, unless it places the origin. -/
theorem Step.keeps {layout after : Layout} {line : Nat} {source : SourceLine}
    {directive : Option Directive} {content : Content}
    (hstep : layout.Step line source directive after content) (hne : directive ≠ some .origin) :
    after.Keeps layout where
  symbols := fun _ _ => hstep.get?_of_get?
  exports := hstep.exports_subset
  relocatable := (hstep.head_eq hne).2.2.2.1
  origin := (hstep.head_eq hne).2.2.1

/-- A line without an operation leaves no error only if it has no operands. -/
theorem operands_eq_nil_of_addLine {layout : Layout} {line : Nat} {text : String}
    {source : SourceLine} (h : (layout.addLine line text).errors = [])
    (hline : SourceLine.isEmptyLine text.toList = false)
    (hscan : SourceLine.scan text.toList = ([], some source)) (hoperation : source.operation = "") :
    source.operands = [] := by
  by_contra hoperands
  have hsome : (source.operands.map Operand.mk).isEmpty = false := by simpa using hoperands
  rw [addLine, hline, if_neg Bool.false_ne_true, hscan] at h
  dsimp only [List.foldl_nil] at h
  rw [addStatement, operate, hoperation, show Directive.ofText? "" = none from rfl] at h
  dsimp only at h
  rw [if_pos (by rfl), hsome, if_neg Bool.false_ne_true] at h
  exact errors_report_ne_nil _ _ _ _ h

/-- Whether a statement was laid out from a source line by a step, and a layout keeps what was known
then. -/
inductive LaysOut (layout : Layout) (statement : Statement) (source : SourceLine) : Prop
  | intro (before after : Layout)
      (hscan : SourceLine.scan statement.source.toList = ([], some source))
      (hstep : before.Step statement.line source (Directive.ofText? source.operation) after
        statement.content)
      (hblank : source.operation = "" → source.operands = [])
      (haddress : statement.address = after.location)
      (hkeeps : layout.Keeps after)

/-- A layout that keeps what another knew has its statements too. -/
theorem LaysOut.mono {layout later : Layout} {statement : Statement} {source : SourceLine}
    (h : layout.LaysOut statement source) (hkeeps : later.Keeps layout) :
    later.LaysOut statement source := by
  obtain ⟨before, after, hscan, hstep, hblank, haddress, hkept⟩ := h
  exact ⟨before, after, hscan, hstep, hblank, haddress, hkeeps.trans hkept⟩

/-- A statement has one line that it was read as. -/
theorem LaysOut.eq_of_scan {layout : Layout} {statement : Statement}
    {line other : SourceLine} (h : layout.LaysOut statement line)
    (hscan : (SourceLine.scan statement.source.toList).2 = some other) : line = other := by
  cases h with
  | intro before after hown =>
    rw [hown] at hscan
    exact Option.some.inj hscan

/-- A statement comes from a line. -/
theorem exists_line_of_mem {layout : Layout} {statements : List Statement}
    {lines : List SourceLine} (hlines : List.Forall₂ layout.LaysOut statements lines)
    {statement : Statement} (hstatement : statement ∈ statements) :
    ∃ source ∈ lines, layout.LaysOut statement source := by
  obtain ⟨i, hi, rfl⟩ := List.mem_iff_getElem.mp hstatement
  have hlength := hlines.length_eq
  exact ⟨lines[i], List.getElem_mem _, hlines.get hi (hlength ▸ hi)⟩

/-- A line becomes a statement. -/
theorem exists_statement_of_mem {layout : Layout} {statements : List Statement}
    {lines : List SourceLine} (hlines : List.Forall₂ layout.LaysOut statements lines)
    {source : SourceLine} (hsource : source ∈ lines) :
    ∃ statement ∈ statements, layout.LaysOut statement source := by
  obtain ⟨i, hi, rfl⟩ := List.mem_iff_getElem.mp hsource
  have hlength := hlines.length_eq
  exact ⟨statements[i], List.getElem_mem _, hlines.get (hlength ▸ hi) hi⟩

/-- A step adds a statement for its line. -/
theorem forall₂_laysOut_push {layout after : Layout} {line : Nat} {text : String}
    {source : SourceLine} {content : Content} {known : List SourceLine}
    (hknown : List.Forall₂ layout.LaysOut layout.statements known)
    (hscan : SourceLine.scan text.toList = ([], some source))
    (hblank : source.operation = "" → source.operands = [])
    (hstep : layout.Step line source (Directive.ofText? source.operation) after content) :
    List.Forall₂ (after.push line text content).LaysOut (after.push line text content).statements
      (known ++ [source]) := by
  have hstatements := hstep.statements_push text
  have hpush : (after.push line text content).Keeps after :=
    ⟨fun _ _ => id, List.Subset.refl _, rfl, rfl⟩
  rw [hstatements]
  refine List.rel_append ?_ (.cons ⟨layout, after, hscan, hstep, hblank, rfl, hpush⟩ .nil)
  by_cases horigin : Directive.ofText? source.operation = some .origin
  · -- The origin is given before there are statements.
    rw [horigin] at hstep
    rw [hstep.origin_spec.1] at hknown ⊢
    cases hknown
    exact .nil
  · exact hknown.imp fun _ _ h => h.mono (hpush.trans (hstep.keeps horigin))

/-- Lines added without errors add their statements. -/
theorem forall₂_laysOut_addLines {layout : Layout} {first : Nat} {texts : List String}
    {known : List SourceLine} (hknown : List.Forall₂ layout.LaysOut layout.statements known)
    (h : (layout.addLines first texts).errors = []) :
    List.Forall₂ (layout.addLines first texts).LaysOut (layout.addLines first texts).statements
      (known ++ texts.filterMap SourceLine.read?) := by
  induction texts generalizing layout first known with
  | nil =>
    rw [List.filterMap_nil, List.append_nil]
    exact hknown
  | cons text rest ih =>
    rw [addLines] at h ⊢
    rcases (step_of_addLine (errors_eq_nil_of_addLines h)).2 with
      ⟨hempty, hsame⟩ | ⟨hline, source, after, content, hscan, hstep, hpush⟩
    · rw [hsame] at h ⊢
      rw [List.filterMap_cons_none (by rw [SourceLine.read?, if_pos hempty])]
      exact ih hknown h
    · have hblank := operands_eq_nil_of_addLine (errors_eq_nil_of_addLines h) hline hscan
      rw [hpush] at h ⊢
      have hread : SourceLine.read? text = some source := by
        rw [SourceLine.read?, hline, if_neg Bool.false_ne_true, hscan]
      rw [List.filterMap_cons_some hread, List.append_cons]
      exact ih (forall₂_laysOut_push hknown hscan hblank hstep) h

/-- The statements of a source text without errors are those of its lines, in their order. -/
theorem forall₂_laysOut_ofSource {hint source : String} (h : (ofSource hint source).errors = []) :
    List.Forall₂ (ofSource hint source).LaysOut (ofSource hint source).statements
      (SourceLine.ofSource source) := by
  have hinitial : List.Forall₂ (initial hint).LaysOut (initial hint).statements [] := .nil
  exact forall₂_laysOut_addLines hinitial h

end Layout

namespace Program

/-- The number that an operand stands for in a program, if it is no register: a constant is written
out, a symbol of the program's own has its value, and a literal has the address of its place. -/
def valueOf? (program : Program) (text : String) : Option Int :=
  match (Operand.mk text).kind with
  | .immediate => (parseConstant text).toOption
  | .symbol =>
      (program.symbols.get? text).bind fun symbol =>
        if symbol.imported then none else some symbol.value
  | .literal =>
      (parseLiteral text).toOption.bind fun value =>
        (program.literals.addressOf? value).map fun place => (place.toNat : Int)
  | .register | .string => none

/-- A constant stands for itself. -/
theorem valueOf?_of_constant {program : Program} {text : String} {value : Int}
    (hkind : (Operand.mk text).kind = .immediate) (hparse : parseConstant text = .ok value) :
    program.valueOf? text = some value := by
  rw [valueOf?, hkind]
  dsimp only
  rw [hparse]
  rfl

end Program

/-- A symbol known to the first pass still stands for its value in the program. -/
theorem Layout.Yields.valueOf?_of_get? {layout : Layout} {program : Program}
    (hyields : layout.Yields program) {text : String} {symbol : Symbol}
    (hkind : (Operand.mk text).kind = .symbol) (hsome : layout.symbols.get? text = some symbol)
    (himported : symbol.imported = false) : program.valueOf? text = some symbol.value := by
  obtain ⟨own, hown, hvalue, -, hsame⟩ := hyields.exists_symbol hsome
  rw [Program.valueOf?, hkind]
  dsimp only
  rw [hown, Option.bind_some, hsame, himported, if_neg Bool.false_ne_true, hvalue]

end PageMachine
