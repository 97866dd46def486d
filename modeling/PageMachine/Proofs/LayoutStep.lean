import PageMachine.Assembly
import PageMachine.Proofs.Loading
import PageMachine.Proofs.Result

/-!
# What a faultless line does to a layout

`Step` says, once for all, what a statement does to a layout when nothing is wrong with it: one
case for each kind of statement, with the conditions that held and the layout afterwards. Since an
error once reported stays, a source text without errors is laid out by such steps alone, and
`ofSource_induction` turns what every step preserves into what every faultless layout has. The
layouts of faulty texts are left out.
-/

namespace PageMachine

namespace Layout

/-- Reporting leaves an error. -/
theorem errors_report_ne_nil (layout : Layout) (line : Nat) (kind : ErrorClass)
    (fault : AssemblyFault) : (layout.report line kind fault).errors ≠ [] := by
  simp [report]

/-- Having no label, or giving the label the address of the next statement. -/
inductive Labels (layout : Layout) : String → Layout → Prop
  | absent : Labels layout "" layout
  | defined (label : String) (symbols : SymbolTable) (hne : label ≠ "")
      (hvalid : Symbol.isValidName label.toList)
      (hdefine : layout.symbols.define label
        (.ofValue (min layout.location Text.maxInt32 : Nat) layout.relocatable) = .ok symbols) :
      Labels layout label { layout with symbols := symbols }

/-- A label changes the symbols and nothing else. -/
theorem Labels.exists_eq {layout labelled : Layout} {label : String}
    (h : layout.Labels label labelled) :
    ∃ symbols, labelled = { layout with symbols := symbols } := by
  cases h with
  | absent => exact ⟨layout.symbols, rfl⟩
  | defined _ symbols hne hvalid hdefine => exact ⟨symbols, rfl⟩

/-- A label does not change the literals. -/
theorem Labels.literals_eq {layout labelled : Layout} {label : String}
    (h : layout.Labels label labelled) : labelled.literals = layout.literals := by
  obtain ⟨symbols, rfl⟩ := h.exists_eq
  rfl

/-- The symbol that an equation gives to its label: an alias of a known symbol, or a constant. -/
inductive Equates (table : SymbolTable) (operands : List Operand) : Symbol → Prop
  | copy (operand : Operand) (target : Symbol) (hoperands : operands = [operand])
      (hkind : operand.kind = .symbol) (hsome : table.get? operand.text = some target)
      (himported : target.imported = false) :
      Equates table operands (.ofValue target.value target.relocatable)
  | constant (operand : Operand) (value : Int) (hoperands : operands = [operand])
      (hkind : operand.kind = .immediate) (hparse : parseConstant operand.text = .ok value) :
      Equates table operands (.ofValue value false)

/-- Leaving the origin to the linker, or giving it. -/
inductive Places (layout : Layout) (operands : List Operand) : Layout → Prop
  | free (hoperands : operands = []) :
      Places layout operands { layout.moveTo 0 with relocatable := true }
  | given (operand : Operand) (origin : Word) (hoperands : operands = [operand])
      (hkind : operand.kind = .immediate)
      (hparse : parseConstant operand.text = .ok (origin.toNat : Int)) :
      Places layout operands (layout.moveTo origin)

/-- The layout whose segment takes the name of a label, if there is one. -/
def named (layout : Layout) (label : String) : Layout :=
  if label = "" then layout
  else { layout with segmentName := String.ofList (Record.segmentName label.toList) }

/-- A statement with nothing wrong: what it does to the layout, and what it puts into memory. The
index is the directive that its operation names, if it names one. -/
inductive Step (layout : Layout) (line : Nat) (source : SourceLine) :
    Option Directive → Layout → Content → Prop
  | blank (labelled : Layout) (hlabel : layout.Labels source.label labelled)
      (hoperation : source.operation = "") :
      Step layout line source none labelled .nothing
  | machine (labelled : Layout) (definition : InstructionDefinition) (literals : LiteralPool)
      (hlabel : layout.Labels source.label labelled)
      (hfind : InstructionSet.find? source.operation
        ((source.operands.map Operand.mk).map Operand.kind) = some definition)
      (hpool : poolLiterals layout.literals (source.operands.map Operand.mk) = .ok literals) :
      Step layout line source none { labelled with literals := literals }
        (.machine definition (source.operands.map Operand.mk))
  | origin (placed labelled : Layout) (hseen : layout.originSeen = false)
      (hfirst : layout.statements = [])
      (hplace : Places { layout with originSeen := true } (source.operands.map Operand.mk) placed)
      (hlabel : (placed.named source.label).Labels source.label labelled) :
      Step layout line source (some .origin) labelled .nothing
  | equate (symbols : SymbolTable) (symbol : Symbol) (hlabel : source.label ≠ "")
      (hequate : Equates layout.symbols (source.operands.map Operand.mk) symbol)
      (hdefine : layout.symbols.define source.label symbol = .ok symbols) :
      Step layout line source (some .equate) { layout with symbols := symbols } .nothing
  | fill (labelled : Layout) (operand : Operand) (hlabel : layout.Labels source.label labelled)
      (hfill : fillOperand (source.operands.map Operand.mk) = .ok operand) :
      Step layout line source (some .fill) labelled (.fill operand)
  | text (labelled : Layout) (words : List Word) (hlabel : layout.Labels source.label labelled)
      (htext : textContent (source.operands.map Operand.mk) = .ok words) :
      Step layout line source (some .text) labelled (.data words)
  | reserve (labelled : Layout) (count : Nat) (hlabel : layout.Labels source.label labelled)
      (hreserve : reserveCount labelled.symbols (source.operands.map Operand.mk) = .ok count) :
      Step layout line source (some .reserve) labelled (.reserve count)
  | finish (hlabel : source.label = "") (hseen : layout.endSeen = false)
      (hoperands : source.operands.map Operand.mk = []) :
      Step layout line source (some .finish) { layout with endSeen := true } .nothing
  | finishAt (operand : Operand) (hlabel : source.label = "") (hseen : layout.endSeen = false)
      (hoperands : source.operands.map Operand.mk = [operand])
      (hkind : operand.kind = .immediate ∨ operand.kind = .symbol) :
      Step layout line source (some .finish)
        { layout with endSeen := true, start := some (line, operand) } .nothing
  | exports (hlabel : source.label = "") (hsome : source.operands.map Operand.mk ≠ [])
      (hkinds : ∀ operand ∈ source.operands.map Operand.mk, operand.kind = .symbol) :
      Step layout line source (some .exports)
        { layout with
          exports := layout.exports ++
            (source.operands.map Operand.mk).map fun operand => (line, operand.text) } .nothing
  | imports (symbols : SymbolTable) (hlabel : source.label = "")
      (hsome : source.operands.map Operand.mk ≠ [])
      (hkinds : ∀ operand ∈ source.operands.map Operand.mk, operand.kind = .symbol)
      (hdefine : (source.operands.map Operand.mk).foldlM
        (fun table operand => table.defineImport operand.text) layout.symbols = .ok symbols) :
      Step layout line source (some .imports) { layout with symbols := symbols } .nothing

/-- An equation that leaves no error has defined its label. -/
theorem equates_of_equate {table grown : SymbolTable} {label : String} {operands : List Operand}
    (h : equate table label operands = .ok grown) :
    label ≠ "" ∧ ∃ symbol, Equates table operands symbol ∧
      table.define label symbol = .ok grown := by
  unfold equate at h
  split at h
  · rename_i operand
    split at h
    · cases h
    · rename_i hlabel
      refine ⟨by simpa using hlabel, ?_⟩
      split at h
      · rename_i hkind
        unfold SymbolTable.defineAlias at h
        split at h
        · cases h
        · split at h
          · cases h
          · rename_i target hsome
            split at h
            · cases h
            · rename_i himported
              refine ⟨_, .copy operand target rfl hkind hsome (by simpa using himported), ?_⟩
              exact eq_ok_of_mapError h
      · rename_i hkind
        split at h
        · cases h
        · rename_i value hparse
          exact ⟨_, .constant operand value rfl hkind hparse, eq_ok_of_mapError h⟩
      · cases h
  · cases h

/-- A label that leaves no error has been defined, if it can name a symbol. -/
theorem labels_of_defineLabel {layout : Layout} {line : Nat} {label : String}
    (hne : label ≠ "") (h : (layout.defineLabel line label).errors = []) :
    layout.errors = [] ∧
      (Symbol.isValidName label.toList → layout.Labels label (layout.defineLabel line label)) := by
  unfold defineLabel at h ⊢
  by_cases hvalid : Symbol.isValidName label.toList
  · rw [if_pos hvalid] at h ⊢
    dsimp only at h ⊢
    split at h
    · rename_i symbols hdefine
      exact ⟨h, fun _ => .defined label symbols hne hvalid hdefine⟩
    · exact absurd h (errors_report_ne_nil _ _ _ _)
  · rw [if_neg hvalid] at h
    exact ⟨h, fun h => absurd h hvalid⟩

/-- An origin that leaves no error has been placed. -/
theorem places_of_placeOrigin {layout : Layout} {line : Nat} {operands : List Operand}
    (h : (layout.placeOrigin line operands).errors = []) :
    layout.errors = [] ∧ layout.Places operands (layout.placeOrigin line operands) := by
  unfold placeOrigin at h ⊢
  split at h
  · exact ⟨h, .free rfl⟩
  · rename_i operand
    split at h
    · rename_i hkind
      split at h
      · exact absurd h (errors_report_ne_nil _ _ _ _)
      · rename_i value hparse
        split at h
        · rename_i hrange
          simp only [hkind, hrange, and_self, ↓reduceIte] at h ⊢
          refine ⟨h, .given operand _ rfl hkind ?_⟩
          rw [hparse, BitVec.toNat_ofInt]
          have hfit : value < 65536 := hrange.2
          congr 1
          omega
        · exact absurd h (errors_report_ne_nil _ _ _ _)
    · exact absurd h (errors_report_ne_nil _ _ _ _)
  · exact absurd h (errors_report_ne_nil _ _ _ _)

/-- A program's beginning that leaves no error has its origin placed and its label defined. -/
theorem places_of_begin {layout : Layout} {line : Nat} {label : String} {operands : List Operand}
    (h : (layout.begin line label operands).errors = []) :
    layout.errors = [] ∧ layout.originSeen = false ∧ layout.statements = [] ∧
      ∃ placed, Places { layout with originSeen := true } operands placed ∧
        ((label ≠ "" → Symbol.isValidName label.toList) →
          (placed.named label).Labels label (layout.begin line label operands)) := by
  unfold begin at h ⊢
  split at h
  · exact absurd h (errors_report_ne_nil _ _ _ _)
  · rename_i hseen
    have hseen : layout.originSeen = false := by simpa using hseen
    simp only [hseen, Bool.false_eq_true, ↓reduceIte]
    let checked :=
      if layout.statements.isEmpty then layout else layout.report line .whole .lateOrigin
    let placed := { checked with originSeen := true }.placeOrigin line operands
    have hplaced : placed.errors = [] → layout.errors = [] ∧ layout.statements = [] ∧
        Places { layout with originSeen := true } operands placed := by
      intro hclean
      obtain ⟨hchecked, hplaces⟩ := places_of_placeOrigin hclean
      by_cases hfirst : layout.statements.isEmpty
      · have heq : checked = layout := if_pos hfirst
        have hplaced : placed = { layout with originSeen := true }.placeOrigin line operands := by
          simp only [placed, heq]
        rw [heq] at hchecked hplaces
        exact ⟨hchecked, List.isEmpty_iff.mp hfirst, hplaced ▸ hplaces⟩
      · simp [checked, hfirst, report] at hchecked
    change (if label.isEmpty then placed else _).errors = [] at h
    change _ ∧ _ ∧ _ ∧ ∃ start : Layout, _ ∧ (_ → (start.named label).Labels label
      (if label.isEmpty then placed else _))
    by_cases hlabel : label = ""
    · subst hlabel
      obtain ⟨hclean, hfirst, hplaces⟩ := hplaced h
      exact ⟨hclean, trivial, hfirst, placed, hplaces, fun _ => .absent⟩
    · have hempty : label.isEmpty = false := by simpa using hlabel
      rw [hempty, if_neg Bool.false_ne_true] at h ⊢
      obtain ⟨hclean, hlabels⟩ := labels_of_defineLabel hlabel h
      obtain ⟨hclean, hfirst, hplaces⟩ := hplaced hclean
      refine ⟨hclean, trivial, hfirst, placed, hplaces, fun hvalid => ?_⟩
      rw [named, if_neg hlabel]
      exact hlabels (hvalid hlabel)

/-- Names whose export leaves no error are noted in their order. -/
theorem foldl_exportName {layout : Layout} {line : Nat} {operands : List Operand}
    (h : (operands.foldl (exportName line) layout).errors = []) :
    layout.errors = [] ∧ (∀ operand ∈ operands, operand.kind = .symbol) ∧
      operands.foldl (exportName line) layout =
        { layout with
          exports := layout.exports ++ operands.map fun operand => (line, operand.text) } := by
  induction operands generalizing layout with
  | nil => exact ⟨h, by simp, by simp⟩
  | cons operand rest ih =>
    rw [List.foldl_cons] at h ⊢
    obtain ⟨hclean, hkinds, heq⟩ := ih h
    by_cases hkind : operand.kind = .symbol
    · rw [heq]
      simp only [exportName, hkind, ↓reduceIte] at hclean ⊢
      exact ⟨hclean, by simpa using ⟨hkind, hkinds⟩, by simp⟩
    · simp [exportName, hkind, report] at hclean

/-- Names whose import leaves no error are defined one after the other. -/
theorem foldl_importName {layout : Layout} {line : Nat} {operands : List Operand}
    (h : (operands.foldl (importName line) layout).errors = []) :
    layout.errors = [] ∧ (∀ operand ∈ operands, operand.kind = .symbol) ∧
      ∃ symbols, operands.foldlM (fun table operand => table.defineImport operand.text)
          layout.symbols = .ok symbols ∧
        operands.foldl (importName line) layout = { layout with symbols := symbols } := by
  induction operands generalizing layout with
  | nil => exact ⟨h, by simp, layout.symbols, rfl, rfl⟩
  | cons operand rest ih =>
    rw [List.foldl_cons] at h ⊢
    obtain ⟨hclean, hkinds, symbols, hsymbols, heq⟩ := ih h
    by_cases hkind : operand.kind = .symbol
    · cases hdefine : layout.symbols.defineImport operand.text with
      | error error => simp [importName, hkind, hdefine, report] at hclean
      | ok defined =>
        simp only [importName, hkind, hdefine, ↓reduceIte] at hclean hsymbols heq ⊢
        refine ⟨hclean, by simpa using ⟨hkind, hkinds⟩, symbols, ?_, heq⟩
        rw [List.foldlM_cons, hdefine]
        exact hsymbols
    · simp [importName, hkind, report] at hclean

/-- An end leaves the errors there are. -/
theorem errors_eq_nil_of_finish {layout : Layout} {line : Nat} {operands : List Operand}
    (h : (layout.finish line operands).errors = []) : layout.errors = [] := by
  unfold finish at h
  split at h
  · exact absurd h (errors_report_ne_nil _ _ _ _)
  · split at h
    · exact h
    · split at h
      · exact h
      · exact h
      · exact absurd h (errors_report_ne_nil _ _ _ _)
    · exact absurd h (errors_report_ne_nil _ _ _ _)

/-- An end that leaves no error was the first, with at most one operand. -/
theorem step_of_finish {layout : Layout} {line : Nat} {source : SourceLine}
    (hlabel : source.label = "")
    (h : (layout.finish line (source.operands.map Operand.mk)).errors = []) :
    layout.errors = [] ∧ layout.Step line source (some .finish)
      (layout.finish line (source.operands.map Operand.mk)) .nothing := by
  unfold finish at h ⊢
  split at h
  · exact absurd h (errors_report_ne_nil _ _ _ _)
  · rename_i hseen
    have hseen : layout.endSeen = false := by simpa using hseen
    simp only [hseen, Bool.false_eq_true, ↓reduceIte]
    split at h
    · rename_i hoperands
      exact ⟨h, .finish hlabel hseen hoperands⟩
    · rename_i operand hoperands
      split at h
      · rename_i hkind
        exact ⟨h, by simpa [hkind] using .finishAt operand hlabel hseen hoperands (.inl hkind)⟩
      · rename_i hkind
        exact ⟨h, by simpa [hkind] using .finishAt operand hlabel hseen hoperands (.inr hkind)⟩
      · exact absurd h (errors_report_ne_nil _ _ _ _)
    · exact absurd h (errors_report_ne_nil _ _ _ _)

/-- The layout in which a line's label is defined, where its operation defines it. -/
theorem labels_of_labelLine {layout : Layout} {line : Nat} {source : SourceLine}
    (hdirective : ∀ directive, Directive.ofText? source.operation = some directive →
      directive = .fill ∨ directive = .text ∨ directive = .reserve)
    (h : (layout.labelLine line source).errors = []) :
    layout.errors = [] ∧ ((source.label ≠ "" → Symbol.isValidName source.label.toList) →
      layout.Labels source.label (layout.labelLine line source)) := by
  unfold labelLine at h ⊢
  by_cases hlabel : source.label = ""
  · rw [if_pos (by simpa using hlabel)] at h ⊢
    exact ⟨h, fun _ => hlabel ▸ .absent⟩
  · rw [if_neg (by simpa using hlabel)] at h ⊢
    have hdefined := @labels_of_defineLabel layout line source.label hlabel
    split at h <;> rename_i heq
    · exact absurd (hdirective _ heq) (by decide)
    · exact absurd (hdirective _ heq) (by decide)
    · exact absurd (hdirective _ heq) (by decide)
    · exact absurd (hdirective _ heq) (by decide)
    · exact absurd (hdirective _ heq) (by decide)
    · obtain ⟨hclean, hlabels⟩ := hdefined h
      exact ⟨hclean, fun hvalid => hlabels (hvalid hlabel)⟩

/-- An operation that takes no label leaves no error only without one. -/
theorem label_eq_of_labelLine {layout : Layout} {line : Nat} {source : SourceLine}
    {directive : Directive} (hdirective : Directive.ofText? source.operation = some directive)
    (hkind : directive = .finish ∨ directive = .exports ∨ directive = .imports)
    (h : (layout.labelLine line source).errors = []) :
    source.label = "" ∧ layout.labelLine line source = layout := by
  unfold labelLine at h ⊢
  by_cases hlabel : source.label = ""
  · exact ⟨hlabel, if_pos (by simpa using hlabel)⟩
  · rw [if_neg (by simpa using hlabel), hdirective] at h
    rcases hkind with rfl | rfl | rfl <;> exact absurd h (errors_report_ne_nil _ _ _ _)

/-- The line of an operation that sees to its label itself is not labelled beforehand. -/
theorem labelLine_eq_self {layout : Layout} {line : Nat} {source : SourceLine}
    {directive : Directive} (hdirective : Directive.ofText? source.operation = some directive)
    (hkind : directive = .origin ∨ directive = .equate) :
    layout.labelLine line source = layout := by
  unfold labelLine
  rw [hdirective]
  rcases hkind with rfl | rfl <;> simp

/-- An instruction that leaves no error has a definition that fits, and its literals are
pooled. -/
theorem machine_eq_of_errors {layout : Layout} {line : Nat} {operation : String}
    {operands : List Operand} (h : (layout.machine line operation operands).1.errors = []) :
    layout.errors = [] ∧ ∃ definition literals,
      InstructionSet.find? operation (operands.map Operand.kind) = some definition ∧
      poolLiterals layout.literals operands = .ok literals ∧
      layout.machine line operation operands =
        ({ layout with literals := literals }, .machine definition operands) := by
  unfold machine at h ⊢
  split at h
  · exact absurd h (errors_report_ne_nil _ _ _ _)
  · rename_i definition hfind
    split at h
    · exact absurd h (errors_report_ne_nil _ _ _ _)
    · rename_i literals hpool
      exact ⟨h, definition, literals, hfind, hpool, by simp⟩

/-- Whether a line with a directive is a step, if it leaves no error and its label can name a
symbol. -/
def DirectsStep (layout : Layout) (line : Nat) (source : SourceLine) (directive : Directive) :
    Prop :=
  let directed := (layout.labelLine line source).direct line source.label
    (source.operands.map Operand.mk) directive
  directed.1.errors = [] →
    layout.errors = [] ∧ ((source.label ≠ "" → Symbol.isValidName source.label.toList) →
      layout.Step line source (some directive) directed.1 directed.2)

section Directives

variable {layout : Layout} {line : Nat} {source : SourceLine}

/-- An origin that leaves no error is a step. -/
theorem directsStep_origin (hdirective : Directive.ofText? source.operation = some .origin) :
    layout.DirectsStep line source .origin := by
  unfold DirectsStep direct
  rw [labelLine_eq_self hdirective (.inl rfl)]
  intro directed h
  obtain ⟨hclean, hseen, hfirst, placed, hplace, hlabel⟩ := places_of_begin h
  exact ⟨hclean, fun hvalid => .origin placed _ hseen hfirst hplace (hlabel hvalid)⟩

/-- An equation that leaves no error is a step. -/
theorem directsStep_equate (hdirective : Directive.ofText? source.operation = some .equate) :
    layout.DirectsStep line source .equate := by
  unfold DirectsStep direct
  rw [labelLine_eq_self hdirective (.inr rfl)]
  dsimp only
  split
  · rename_i symbols hequate
    intro h
    obtain ⟨hlabel, symbol, hequates, hdefine⟩ := equates_of_equate hequate
    exact ⟨h, fun _ => .equate symbols symbol hlabel hequates hdefine⟩
  · exact fun h => absurd h (errors_report_ne_nil _ _ _ _)

/-- A word that is filled without an error is a step. -/
theorem directsStep_fill (hdirective : Directive.ofText? source.operation = some .fill) :
    layout.DirectsStep line source .fill := by
  unfold DirectsStep direct
  dsimp only
  split
  · rename_i operand hfill
    intro h
    obtain ⟨hclean, hlabel⟩ := labels_of_labelLine (by simp [hdirective]) h
    exact ⟨hclean, fun hvalid => .fill _ operand (hlabel hvalid) hfill⟩
  · exact fun h => absurd h (errors_report_ne_nil _ _ _ _)

/-- A text that leaves no error is a step. -/
theorem directsStep_text (hdirective : Directive.ofText? source.operation = some .text) :
    layout.DirectsStep line source .text := by
  unfold DirectsStep direct
  dsimp only
  split
  · rename_i words htext
    intro h
    obtain ⟨hclean, hlabel⟩ := labels_of_labelLine (by simp [hdirective]) h
    exact ⟨hclean, fun hvalid => .text _ words (hlabel hvalid) htext⟩
  · exact fun h => absurd h (errors_report_ne_nil _ _ _ _)

/-- Space that is reserved without an error is a step. -/
theorem directsStep_reserve (hdirective : Directive.ofText? source.operation = some .reserve) :
    layout.DirectsStep line source .reserve := by
  unfold DirectsStep direct
  dsimp only
  split
  · rename_i count hreserve
    intro h
    obtain ⟨hclean, hlabel⟩ := labels_of_labelLine (by simp [hdirective]) h
    exact ⟨hclean, fun hvalid => .reserve _ count (hlabel hvalid) hreserve⟩
  · exact fun h => absurd h (errors_report_ne_nil _ _ _ _)

/-- An end that leaves no error is a step. -/
theorem directsStep_finish (hdirective : Directive.ofText? source.operation = some .finish) :
    layout.DirectsStep line source .finish := by
  unfold DirectsStep direct
  intro directed h
  obtain ⟨hlabel, heq⟩ :=
    label_eq_of_labelLine hdirective (.inl rfl) (errors_eq_nil_of_finish h)
  have hlast : (layout.finish line (source.operands.map Operand.mk)).errors = [] := heq ▸ h
  obtain ⟨hclean, hstep⟩ := step_of_finish hlabel hlast
  exact ⟨hclean, fun _ => heq.symm ▸ hstep⟩

/-- Names that are to be exported without an error are a step. -/
theorem directsStep_exports (hdirective : Directive.ofText? source.operation = some .exports) :
    layout.DirectsStep line source .exports := by
  unfold DirectsStep direct forNames
  dsimp only
  split
  · exact fun h => absurd h (errors_report_ne_nil _ _ _ _)
  · rename_i hsome
    intro h
    obtain ⟨hclean, hkinds, hexports⟩ := foldl_exportName h
    obtain ⟨hlabel, heq⟩ := label_eq_of_labelLine hdirective (.inr (.inl rfl)) hclean
    rw [hexports, heq]
    rw [heq] at hclean
    exact ⟨hclean, fun _ => .exports hlabel (by simpa using hsome) hkinds⟩

/-- Names that are imported without an error are a step. -/
theorem directsStep_imports (hdirective : Directive.ofText? source.operation = some .imports) :
    layout.DirectsStep line source .imports := by
  unfold DirectsStep direct forNames
  dsimp only
  split
  · exact fun h => absurd h (errors_report_ne_nil _ _ _ _)
  · rename_i hsome
    intro h
    obtain ⟨hclean, hkinds, symbols, hdefine, himports⟩ := foldl_importName h
    obtain ⟨hlabel, heq⟩ := label_eq_of_labelLine hdirective (.inr (.inr rfl)) hclean
    rw [himports]
    rw [heq] at hclean hdefine ⊢
    exact ⟨hclean, fun _ => .imports symbols hlabel (by simpa using hsome) hkinds hdefine⟩

/-- Every directive that leaves no error is a step. -/
theorem directsStep {directive : Directive}
    (hdirective : Directive.ofText? source.operation = some directive) :
    layout.DirectsStep line source directive := by
  cases directive with
  | origin => exact directsStep_origin hdirective
  | equate => exact directsStep_equate hdirective
  | fill => exact directsStep_fill hdirective
  | text => exact directsStep_text hdirective
  | reserve => exact directsStep_reserve hdirective
  | finish => exact directsStep_finish hdirective
  | exports => exact directsStep_exports hdirective
  | imports => exact directsStep_imports hdirective

end Directives

/-- A statement that leaves no error is a step, if its label can name a symbol. -/
theorem step_of_operate {layout : Layout} {line : Nat} {source : SourceLine}
    (h : ((layout.labelLine line source).operate line source).1.errors = []) :
    layout.errors = [] ∧ ((source.label ≠ "" → Symbol.isValidName source.label.toList) →
      layout.Step line source (Directive.ofText? source.operation)
        ((layout.labelLine line source).operate line source).1
        ((layout.labelLine line source).operate line source).2) := by
  unfold operate at h ⊢
  cases hdirective : Directive.ofText? source.operation with
  | none =>
    have hlabelled := @labels_of_labelLine layout line source (by simp [hdirective])
    rw [hdirective] at h
    dsimp only at h ⊢
    split at h
    · rename_i hoperation
      have hoperation : source.operation = "" := by simpa using hoperation
      split at h
      · rename_i hoperands
        obtain ⟨hclean, hlabel⟩ := hlabelled h
        rw [if_pos (by simpa using hoperation), if_pos hoperands]
        exact ⟨hclean, fun hvalid => .blank _ (hlabel hvalid) hoperation⟩
      · exact absurd h (errors_report_ne_nil _ _ _ _)
    · rename_i hoperation
      obtain ⟨hclean, definition, literals, hfind, hpool, heq⟩ := machine_eq_of_errors h
      obtain ⟨hclean, hlabel⟩ := hlabelled hclean
      rw [if_neg hoperation, heq]
      refine ⟨hclean, fun hvalid => .machine _ definition literals (hlabel hvalid) hfind ?_⟩
      rw [← (hlabel hvalid).literals_eq]
      exact hpool
  | some directive =>
    rw [hdirective] at h
    exact directsStep hdirective h

/-- A label without faults can name a symbol. -/
theorem isValidName_of_labelFaults {label : List Char} (hne : label ≠ [])
    (h : SourceLine.labelFaults label = []) : Symbol.isValidName label := by
  cases label with
  | nil => exact absurd rfl hne
  | cons c rest =>
    simp only [SourceLine.labelFaults, List.append_eq_nil_iff, ite_eq_right_iff, reduceCtorEq,
      imp_false] at h
    simpa [Symbol.isValidName, and_assoc] using h

/-- A line that is read without faults has the fields of its columns. -/
theorem scan_eq_some {text : List Char} {faults : List LineFault} {source : SourceLine}
    (h : SourceLine.scan text = (faults, some source)) :
    ∃ operands, SourceLine.splitOperands ((Text.trimEnd text).drop 17) = .ok operands ∧
      faults = SourceLine.labelFaults (SourceLine.column 0 7 (Text.trimEnd text)) ++
        SourceLine.gapFaults (Text.trimEnd text) ∧
      source = ⟨String.ofList (SourceLine.column 0 7 (Text.trimEnd text)),
        String.ofList (SourceLine.column 9 14 (Text.trimEnd text)),
        operands.map String.ofList⟩ := by
  unfold SourceLine.scan at h
  dsimp only at h
  split at h
  · simp at h
  · rename_i operands hsplit
    simp only [Prod.mk.injEq, Option.some.injEq] at h
    exact ⟨operands, hsplit, h.1.symm, h.2.symm⟩

/-- The label of a line without faults can name a symbol, if there is one. -/
theorem isValidName_of_scan {text : List Char} {source : SourceLine}
    (h : SourceLine.scan text = ([], some source)) (hne : source.label ≠ "") :
    Symbol.isValidName source.label.toList := by
  obtain ⟨operands, -, hfaults, rfl⟩ := scan_eq_some h
  rw [String.toList_ofList]
  refine isValidName_of_labelFaults (fun hnil => hne (by rw [hnil])) ?_
  exact (List.append_eq_nil_iff.mp hfaults.symm).1

/-- Faults in a line are errors. -/
theorem errors_foldl_report {layout : Layout} {line : Nat} {faults : List LineFault}
    (h : (faults.foldl (fun l fault => l.report line .form (.line fault)) layout).errors = []) :
    faults = [] ∧ layout.errors = [] := by
  induction faults generalizing layout with
  | nil => exact ⟨rfl, h⟩
  | cons fault rest ih => exact absurd (ih h).2 (errors_report_ne_nil _ _ _ _)

/-- A line that leaves no error holds no statement, or was read and laid out by a step. -/
theorem step_of_addLine {layout : Layout} {line : Nat} {text : String}
    (h : (layout.addLine line text).errors = []) :
    layout.errors = [] ∧
      (SourceLine.isEmptyLine text.toList = true ∧ layout.addLine line text = layout ∨
        SourceLine.isEmptyLine text.toList = false ∧ ∃ source after content,
          SourceLine.scan text.toList = ([], some source) ∧
          layout.Step line source (Directive.ofText? source.operation) after content ∧
          layout.addLine line text = after.push line text content) := by
  unfold addLine at h ⊢
  split at h
  · rename_i hempty
    exact ⟨h, .inl ⟨hempty, if_pos hempty⟩⟩
  · rename_i hempty
    rw [if_neg hempty]
    cases hscan : SourceLine.scan text.toList with
    | mk faults source? =>
      rw [hscan] at h
      cases source? with
      | none =>
        obtain ⟨rfl, hclean⟩ := errors_foldl_report h
        simp only [SourceLine.scan] at hscan
        split at hscan <;> simp at hscan
      | some source =>
        dsimp only at h
        obtain ⟨hnoted, hstep⟩ := step_of_operate (show _ = [] from h)
        obtain ⟨rfl, hclean⟩ := errors_foldl_report hnoted
        have hlabel := isValidName_of_scan hscan
        exact ⟨hclean, .inr ⟨by simpa using hempty, source, _, _, rfl, hstep hlabel, rfl⟩⟩

/-- An error once reported stays, whatever lines follow. -/
theorem errors_eq_nil_of_addLines {layout : Layout} {first : Nat} {lines : List String}
    (h : (layout.addLines first lines).errors = []) : layout.errors = [] := by
  induction lines generalizing layout first with
  | nil => exact h
  | cons text rest ih => exact (step_of_addLine (ih h)).1

/-- A line that is a statement, read as the given source, is a step of the layout. -/
theorem step_of_scan {layout : Layout} {line : Nat} {text : String} {source : SourceLine}
    (h : (layout.addLine line text).errors = [])
    (hline : SourceLine.isEmptyLine text.toList = false)
    (hscan : (SourceLine.scan text.toList).2 = some source) :
    ∃ after content, layout.Step line source (Directive.ofText? source.operation) after content ∧
      layout.addLine line text = after.push line text content := by
  rcases (step_of_addLine h).2 with ⟨hempty, -⟩ | ⟨-, scanned, after, content, hscanned, hstep⟩
  · exact absurd (hempty.symm.trans hline) (by decide)
  · rw [hscanned] at hscan
    obtain rfl := Option.some.inj hscan
    exact ⟨after, content, hstep⟩

/-- What every step preserves holds after all lines, if no error is found. -/
theorem addLines_induction {motive : Layout → Prop} {layout : Layout} {first : Nat}
    {lines : List String} (hstart : motive layout)
    (hstep : ∀ (layout after : Layout) (line : Nat) (text : String) (source : SourceLine)
      (content : Content), motive layout → text ∈ lines →
      SourceLine.scan text.toList = ([], some source) →
      layout.Step line source (Directive.ofText? source.operation) after content →
      motive (after.push line text content))
    (h : (layout.addLines first lines).errors = []) : motive (layout.addLines first lines) := by
  induction lines generalizing layout first with
  | nil => exact hstart
  | cons text rest ih =>
    refine ih ?_ (fun layout after line text source content hmotive hmem =>
      hstep layout after line text source content hmotive (List.mem_cons_of_mem _ hmem)) h
    rcases (step_of_addLine (errors_eq_nil_of_addLines h)).2 with ⟨-, hsame⟩ | ⟨-, _, _, _, hrest⟩
    · rw [hsame]
      exact hstart
    · obtain ⟨hscan, hsteps, hpush⟩ := hrest
      rw [hpush]
      exact hstep _ _ _ _ _ _ hstart List.mem_cons_self hscan hsteps

/-- What the empty layout has and every step preserves, the layout of a source text has. -/
theorem ofSource_induction {motive : Layout → Prop} {hint source : String}
    (hstart : motive (initial hint))
    (hstep : ∀ (layout after : Layout) (line : Nat) (text : String) (scanned : SourceLine)
      (content : Content), motive layout → text ∈ Text.lines source →
      SourceLine.scan text.toList = ([], some scanned) →
      layout.Step line scanned (Directive.ofText? scanned.operation) after content →
      motive (after.push line text content))
    (h : (ofSource hint source).errors = []) : motive (ofSource hint source) :=
  addLines_induction hstart hstep h

end Layout

end PageMachine
