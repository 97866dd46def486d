import Mathlib.Data.List.Forall2
import PageMachine.Proofs.SoundLayout

/-!
# Layouts of the same lines

Two layouts that take the same lines go through the same steps, whatever their symbols stand for
and wherever they lie: `Alike` relates them, with a distance between their addresses and a relation
between their symbols. The relation has to allow for what a step may define (`Compatible`); the
rest of the argument does not depend on it. Moving a program and supplying a constant for an import
are the two uses. Both layouts have their origin behind them, and the one that lies further on must
not reach beyond the address space, where counting stops.
-/

namespace PageMachine

namespace SymbolTable

/-- Whether two tables have symbols for the same names, related name by name. -/
def Related (rel : String → Symbol → Symbol → Prop) (table other : SymbolTable) : Prop :=
  ∀ name, Option.Rel (rel name) (table.get? name) (other.get? name)

variable {rel : String → Symbol → Symbol → Prop} {table other grown otherGrown : SymbolTable}

/-- A table is related to itself if symbols are. -/
theorem Related.refl (hrefl : ∀ name symbol, rel name symbol symbol) (table : SymbolTable) :
    table.Related rel table := by
  intro name
  cases table.get? name with
  | none => exact .none
  | some symbol => exact .some (hrefl name symbol)

/-- Related tables relate the symbols of a name. -/
theorem Related.apply (hrelated : Related rel table other) {name : String} {symbol twin : Symbol}
    (hsome : table.get? name = some symbol) (htwin : other.get? name = some twin) :
    rel name symbol twin := by
  have hrel := hrelated name
  rw [hsome, htwin] at hrel
  cases hrel with
  | some h => exact h

/-- A name of one of two related tables is a name of the other. -/
theorem Related.exists_twin (hrelated : Related rel table other) {name : String} {symbol : Symbol}
    (hsome : table.get? name = some symbol) :
    ∃ twin, other.get? name = some twin ∧ rel name symbol twin := by
  have hrel := hrelated name
  rw [hsome] at hrel
  cases htwin : other.get? name with
  | none =>
    rw [htwin] at hrel
    cases hrel
  | some twin => exact ⟨twin, rfl, hrelated.apply hsome htwin⟩

/-- A name without symbol in one of two related tables has none in the other. -/
theorem Related.get?_eq_none (hrelated : Related rel table other) {name : String}
    (hnone : table.get? name = none) : other.get? name = none := by
  have hrel := hrelated name
  rw [hnone] at hrel
  cases htwin : other.get? name with
  | none => rfl
  | some twin =>
    rw [htwin] at hrel
    cases hrel

/-- Related definitions keep tables related. -/
theorem Related.define (hrelated : Related rel table other) {name : String}
    {symbol twin : Symbol} (hrel : rel name symbol twin)
    (hdefine : table.define name symbol = .ok grown)
    (hother : other.define name twin = .ok otherGrown) : Related rel grown otherGrown := by
  intro known
  rw [get?_define hdefine, get?_define hother]
  by_cases hname : known = name
  · rw [if_pos hname, if_pos hname, hname]
    exact .some hrel
  · rw [if_neg hname, if_neg hname]
    exact hrelated known

end SymbolTable

/-- Whether a relation between symbols allows for what two programs can define in the same line,
when the addresses of the second lie `delta` further on. -/
structure Compatible (delta : Nat) (moves otherMoves : Bool)
    (rel : String → Symbol → Symbol → Prop) : Prop where
  /-- The labels of a line are related. -/
  label : ∀ name (location : Nat),
    rel name (.ofValue location moves) (.ofValue (location + delta : Nat) otherMoves)
  /-- A constant is related to itself. -/
  constant : ∀ name value, rel name (.ofValue value false) (.ofValue value false)
  /-- An import is related to itself. -/
  imported : ∀ name, rel name .ofImport .ofImport
  /-- Copies of related symbols that are known are related. -/
  copy : ∀ name target symbol twin, rel target symbol twin → symbol.imported = false →
    twin.imported = false →
    rel name (.ofValue symbol.value symbol.relocatable) (.ofValue twin.value twin.relocatable)
  /-- Related symbols that are known and do not move have the same value. -/
  value : ∀ name symbol twin, rel name symbol twin → symbol.imported = false →
    symbol.relocatable = false → twin.imported = false → twin.relocatable = false →
    symbol.value = twin.value

/-- Whether a statement puts the same content `delta` further on. -/
structure Statement.Alike (delta : Nat) (statement twin : Statement) : Prop where
  /-- The lines have the same number. -/
  line : twin.line = statement.line
  /-- The addresses are the distance apart. -/
  address : twin.address = statement.address + delta
  /-- The contents are the same. -/
  content : twin.content = statement.content

namespace Layout

/-- Whether two layouts have come through the same lines with related symbols, the second `delta`
further on. -/
structure Alike (delta : Nat) (moves otherMoves : Bool)
    (rel : String → Symbol → Symbol → Prop) (layout twin : Layout) : Prop where
  /-- The symbols are related. -/
  symbols : layout.symbols.Related rel twin.symbols
  /-- The literals are the same. -/
  literals : twin.literals = layout.literals
  /-- The statements have the same contents. -/
  statements : List.Forall₂ (Statement.Alike delta) layout.statements twin.statements
  /-- The next statements are the distance apart. -/
  location : twin.location = layout.location + delta
  /-- Both origins are given. -/
  originSeen : layout.originSeen = true ∧ twin.originSeen = true
  /-- Whether the layouts move is known. -/
  relocatable : layout.relocatable = moves ∧ twin.relocatable = otherMoves
  /-- The end asks for the same start. -/
  start : twin.start = layout.start
  /-- The same names are to be exported. -/
  exports : twin.exports = layout.exports

section Steps

variable {delta : Nat} {moves otherMoves : Bool} {rel : String → Symbol → Symbol → Prop}
  {layout twin after twinAfter : Layout}

/-- Labels keep layouts alike. -/
theorem Alike.labels (hcompatible : Compatible delta moves otherMoves rel)
    (halike : Alike delta moves otherMoves rel layout twin) {label : String}
    (hlabel : layout.Labels label after) (htwin : twin.Labels label twinAfter)
    (hbound : twin.location ≤ addressLimit) : Alike delta moves otherMoves rel after twinAfter := by
  cases hlabel with
  | absent =>
    cases htwin with
    | absent => exact halike
    | defined _ _ hne => exact absurd rfl hne
  | defined _ symbols hne _ hdefine =>
    cases htwin with
    | absent => exact absurd rfl hne
    | defined _ twinSymbols _ _ htwinDefine =>
      have hlimit : addressLimit ≤ Text.maxInt32 := by decide
      have hlocation := halike.location
      rw [halike.relocatable.1, Nat.min_eq_left (by omega)] at hdefine
      rw [halike.relocatable.2, Nat.min_eq_left (by omega), hlocation] at htwinDefine
      exact
        { symbols := halike.symbols.define (hcompatible.label _ _) hdefine htwinDefine
          literals := halike.literals
          statements := halike.statements
          location := halike.location
          originSeen := halike.originSeen
          relocatable := halike.relocatable
          start := halike.start
          exports := halike.exports }

/-- The symbols that equations give in related tables are related. -/
theorem rel_of_equates (hcompatible : Compatible delta moves otherMoves rel)
    {table other : SymbolTable} (hrelated : table.Related rel other) {operands : List Operand}
    {symbol copy : Symbol} (hequates : Equates table operands symbol)
    (hother : Equates other operands copy) (name : String) : rel name symbol copy := by
  cases hequates with
  | copy operand target hoperands hkind hsome himported =>
    cases hother with
    | copy operand' target' hoperands' _ hsome' himported' =>
      obtain rfl : operand = operand' := by simpa [hoperands] using hoperands'
      exact hcompatible.copy name _ _ _ (hrelated.apply hsome hsome') himported himported'
    | constant operand' _ hoperands' hkind' =>
      obtain rfl : operand = operand' := by simpa [hoperands] using hoperands'
      cases hkind.symm.trans hkind'
  | constant operand value hoperands hkind hparse =>
    cases hother with
    | copy operand' _ hoperands' hkind' =>
      obtain rfl : operand = operand' := by simpa [hoperands] using hoperands'
      cases hkind.symm.trans hkind'
    | constant operand' value' hoperands' _ hparse' =>
      obtain rfl : operand = operand' := by simpa [hoperands] using hoperands'
      obtain rfl : value = value' := Except.ok.inj (hparse.symm.trans hparse')
      exact hcompatible.constant name value

/-- Defining the same imports keeps tables related. -/
theorem related_of_imports (hcompatible : Compatible delta moves otherMoves rel)
    {operands : List Operand} {table other grown otherGrown : SymbolTable}
    (hrelated : table.Related rel other)
    (h : operands.foldlM (fun table operand => table.defineImport operand.text) table = .ok grown)
    (hother : operands.foldlM (fun table operand => table.defineImport operand.text) other =
      .ok otherGrown) : grown.Related rel otherGrown := by
  induction operands generalizing table other with
  | nil =>
    obtain rfl : table = grown := Except.ok.inj h
    obtain rfl : other = otherGrown := Except.ok.inj hother
    exact hrelated
  | cons operand rest ih =>
    rw [List.foldlM_cons] at h hother
    obtain ⟨defined, hdefine, h⟩ := exists_of_bind_eq_ok h
    obtain ⟨otherDefined, hotherDefine, hother⟩ := exists_of_bind_eq_ok hother
    exact ih (hrelated.define (hcompatible.imported _) hdefine hotherDefine) h hother

/-- A reserved number of words is a constant, or a known symbol that does not move. -/
theorem reserveCount_spec {table : SymbolTable} {operands : List Operand} {count : Nat}
    (h : reserveCount table operands = .ok count) :
    ∃ operand value, operands = [operand] ∧ count = value.toNat ∧
      (operand.kind = .immediate ∧ parseConstant operand.text = .ok value ∨
        operand.kind = .symbol ∧ ∃ symbol, table.get? operand.text = some symbol ∧
          symbol.imported = false ∧ symbol.relocatable = false ∧ symbol.value = value) := by
  unfold reserveCount at h
  split at h
  · rename_i operand
    dsimp only at h
    split at h
    · cases h
    · rename_i value hvalue
      split at h
      · obtain rfl := Except.ok.inj h
        refine ⟨operand, value, rfl, rfl, ?_⟩
        split at hvalue
        · rename_i hkind
          exact .inl ⟨hkind, eq_ok_of_mapError hvalue⟩
        · rename_i hkind
          split at hvalue
          · rename_i symbol hsome
            split at hvalue
            · cases hvalue
            · rename_i hfixed
              simp only [Bool.or_eq_true, not_or, Bool.not_eq_true] at hfixed
              exact .inr ⟨hkind, symbol, hsome, hfixed.1, hfixed.2, Except.ok.inj hvalue⟩
          · cases hvalue
        · cases hvalue
      · cases h
  · cases h

/-- The same number of words is reserved against related tables. -/
theorem reserveCount_eq (hcompatible : Compatible delta moves otherMoves rel)
    {table other : SymbolTable} (hrelated : table.Related rel other) {operands : List Operand}
    {count otherCount : Nat} (h : reserveCount table operands = .ok count)
    (hother : reserveCount other operands = .ok otherCount) : otherCount = count := by
  obtain ⟨operand, value, hoperands, rfl, hvalue⟩ := reserveCount_spec h
  obtain ⟨operand', value', hoperands', rfl, hvalue'⟩ := reserveCount_spec hother
  obtain rfl : operand = operand' := by simpa [hoperands] using hoperands'
  rcases hvalue with ⟨hkind, hparse⟩ | ⟨hkind, symbol, hsome, hlocal, hfixed, rfl⟩
  · rcases hvalue' with ⟨-, hparse'⟩ | ⟨hkind', -⟩
    · obtain rfl : value = value' := Except.ok.inj (hparse.symm.trans hparse')
      rfl
    · cases hkind.symm.trans hkind'
  · rcases hvalue' with ⟨hkind', -⟩ | ⟨-, twin, htwin, hlocal', hfixed', rfl⟩
    · cases hkind.symm.trans hkind'
    · have hrel := hrelated.apply hsome htwin
      rw [hcompatible.value _ _ _ hrel hlocal hfixed hlocal' hfixed']

/-- An operation with a definition is not empty. -/
theorem operation_ne_of_find? {operation : String} {kinds : List OperandKind}
    {definition : InstructionDefinition}
    (h : InstructionSet.find? operation kinds = some definition) : operation ≠ "" := by
  have hmnemonics : ∀ definition ∈ InstructionSet.table, definition.mnemonic ≠ "" := by decide
  have hmatch := List.find?_some h
  simp only [Bool.and_eq_true, beq_iff_eq] at hmatch
  rw [← hmatch.1]
  exact hmnemonics definition (List.mem_of_find?_eq_some h)

/-- The same line is the same step of alike layouts. -/
theorem Alike.step (hcompatible : Compatible delta moves otherMoves rel)
    (halike : Alike delta moves otherMoves rel layout twin) {line : Nat} {source : SourceLine}
    {directive : Option Directive} {content twinContent : Content}
    (hstep : layout.Step line source directive after content)
    (htwin : twin.Step line source directive twinAfter twinContent)
    (hbound : twin.location ≤ addressLimit) :
    twinContent = content ∧ Alike delta moves otherMoves rel after twinAfter := by
  cases hstep with
  | blank labelled hlabel hoperation =>
    cases htwin with
    | blank _ htwinLabel => exact ⟨rfl, halike.labels hcompatible hlabel htwinLabel hbound⟩
    | machine _ _ _ _ hfind => exact absurd hoperation (operation_ne_of_find? hfind)
  | machine labelled definition literals hlabel hfind hpool =>
    cases htwin with
    | blank _ _ hoperation => exact absurd hoperation (operation_ne_of_find? hfind)
    | machine _ _ _ htwinLabel htwinFind htwinPool =>
      obtain rfl := Option.some.inj (hfind.symm.trans htwinFind)
      rw [halike.literals] at htwinPool
      obtain rfl := Except.ok.inj (hpool.symm.trans htwinPool)
      exact ⟨rfl, { halike.labels hcompatible hlabel htwinLabel hbound with literals := rfl }⟩
  | origin placed _ hseen => exact absurd (hseen.symm.trans halike.originSeen.1) Bool.false_ne_true
  | equate symbols symbol _ hequates hdefine =>
    cases htwin with
    | equate _ _ _ htwinEquates htwinDefine =>
      have hrel := rel_of_equates hcompatible halike.symbols hequates htwinEquates source.label
      exact ⟨rfl, { halike with symbols := halike.symbols.define hrel hdefine htwinDefine }⟩
  | fill labelled operand hlabel hfill =>
    cases htwin with
    | fill _ _ htwinLabel htwinFill =>
      obtain rfl := Except.ok.inj (hfill.symm.trans htwinFill)
      exact ⟨rfl, halike.labels hcompatible hlabel htwinLabel hbound⟩
  | text labelled words hlabel htext =>
    cases htwin with
    | text _ _ htwinLabel htwinText =>
      obtain rfl := Except.ok.inj (htext.symm.trans htwinText)
      exact ⟨rfl, halike.labels hcompatible hlabel htwinLabel hbound⟩
  | reserve labelled count hlabel hreserve =>
    cases htwin with
    | reserve _ _ htwinLabel htwinReserve =>
      have hlabelled := halike.labels hcompatible hlabel htwinLabel hbound
      rw [reserveCount_eq hcompatible hlabelled.symbols hreserve htwinReserve]
      exact ⟨rfl, hlabelled⟩
  | finish hlabel hseen hoperands =>
    cases htwin with
    | finish => exact ⟨rfl, { halike with }⟩
    | finishAt operand _ _ hoperands' => exact absurd (hoperands.symm.trans hoperands') (by simp)
  | finishAt operand hlabel hseen hoperands hkind =>
    cases htwin with
    | finish _ _ hoperands' => exact absurd (hoperands.symm.trans hoperands') (by simp)
    | finishAt operand' _ _ hoperands' =>
      obtain rfl : operand = operand' := by simpa [hoperands] using hoperands'
      exact ⟨rfl, { halike with start := rfl }⟩
  | exports =>
    cases htwin with
    | exports => exact ⟨rfl, { halike with exports := by rw [halike.exports] }⟩
  | imports symbols _ _ _ hdefine =>
    cases htwin with
    | imports _ _ _ _ htwinDefine =>
      exact ⟨rfl,
        { halike with
          symbols := related_of_imports hcompatible halike.symbols hdefine htwinDefine }⟩

/-- Adding the same content keeps layouts alike, up to the end of the address space. -/
theorem Alike.push (halike : Alike delta moves otherMoves rel layout twin) (line : Nat)
    (text twinText : String) (content : Content)
    (hbound : (twin.push line twinText content).location ≤ addressLimit) :
    Alike delta moves otherMoves rel (layout.push line text content)
      (twin.push line twinText content) := by
  have hlimit : addressLimit < maxLocation := by decide
  have hlocation := halike.location
  change min maxLocation (twin.location + content.size) ≤ addressLimit at hbound
  exact
    { symbols := halike.symbols
      literals := halike.literals
      statements := List.rel_append halike.statements
        (.cons ⟨rfl, hlocation, rfl⟩ .nil)
      location := by
        change min maxLocation (twin.location + content.size) =
          min maxLocation (layout.location + content.size) + delta
        omega
      originSeen := halike.originSeen
      relocatable := halike.relocatable
      start := halike.start
      exports := halike.exports }

end Steps

/-- A statement of one of two alike layouts has one like it in the other. -/
theorem Alike.exists_statement {delta : Nat} {moves otherMoves : Bool}
    {rel : String → Symbol → Symbol → Prop} {layout twin : Layout}
    (halike : Alike delta moves otherMoves rel layout twin) {statement : Statement}
    (hmem : statement ∈ layout.statements) :
    ∃ other ∈ twin.statements, Statement.Alike delta statement other := by
  obtain ⟨n, hn, rfl⟩ := List.getElem_of_mem hmem
  have htwin : n < twin.statements.length := halike.statements.length_eq ▸ hn
  exact ⟨twin.statements[n], List.getElem_mem htwin, halike.statements.get hn htwin⟩

/-- Once the origin is given, a line does not move a layout back. -/
theorem location_le_of_addLine {layout : Layout} (hseen : layout.originSeen = true) {line : Nat}
    {text : String} (h : (layout.addLine line text).errors = [])
    (hbound : (layout.addLine line text).location ≤ addressLimit) :
    layout.location ≤ addressLimit := by
  rcases (step_of_addLine h).2 with ⟨-, hsame⟩ | ⟨-, source, after, content, -, hstep, hpush⟩
  · rw [hsame] at hbound
    exact hbound
  · have hlimit : addressLimit < maxLocation := by decide
    obtain ⟨hlocation, -⟩ := hstep.head_eq (hstep.ne_origin hseen)
    rw [hpush] at hbound
    change min maxLocation (after.location + content.size) ≤ addressLimit at hbound
    omega

/-- Once the origin is given, lines leave the head of a layout as it is. -/
theorem head_addLines {layout : Layout} (hseen : layout.originSeen = true) {first : Nat}
    {lines : List String} (h : (layout.addLines first lines).errors = []) :
    (layout.addLines first lines).originSeen = true ∧
      (layout.addLines first lines).origin = layout.origin ∧
      (layout.addLines first lines).relocatable = layout.relocatable ∧
      (layout.addLines first lines).segmentName = layout.segmentName := by
  let Kept (later : Layout) : Prop := later.originSeen = true ∧ later.origin = layout.origin ∧
    later.relocatable = layout.relocatable ∧ later.segmentName = layout.segmentName
  have hkept : Kept layout := ⟨hseen, rfl, rfl, rfl⟩
  refine addLines_induction (motive := Kept) hkept ?_ h
  rintro later after line text source content ⟨hlater, horigin, hrelocatable, hname⟩ - - hstep
  obtain ⟨-, hseen', horigin', hrelocatable', hname'⟩ := hstep.head_eq (hstep.ne_origin hlater)
  exact ⟨hseen'.trans hlater, horigin'.trans horigin, hrelocatable'.trans hrelocatable,
    hname'.trans hname⟩

/-- Once the origin is given, lines do not move a layout back. -/
theorem location_le_of_addLines {layout : Layout} (hseen : layout.originSeen = true) {first : Nat}
    {lines : List String} (h : (layout.addLines first lines).errors = [])
    (hbound : (layout.addLines first lines).location ≤ addressLimit) :
    layout.location ≤ addressLimit := by
  induction lines generalizing layout first with
  | nil => exact hbound
  | cons text rest ih =>
    have hline : (layout.addLine first text).errors = [] := errors_eq_nil_of_addLines h
    have hnext : (layout.addLine first text).originSeen = true :=
      (@head_addLines layout hseen first [text] hline).1
    exact location_le_of_addLine hseen hline (ih hnext h hbound)

/-- Behind a statement, an origin that is given later cannot be without error. -/
theorem originSeen_of_addLines {layout : Layout} (hfirst : layout.statements ≠ []) {first : Nat}
    {lines : List String} (h : (layout.addLines first lines).errors = [])
    (hseen : (layout.addLines first lines).originSeen = true) : layout.originSeen = true := by
  let Kept (later : Layout) : Prop :=
    later.statements ≠ [] ∧ later.originSeen = layout.originSeen
  have hkept : Kept (layout.addLines first lines) := by
    refine addLines_induction (motive := Kept) ⟨hfirst, rfl⟩ ?_ h
    rintro later after line text source content ⟨hsome, hsame⟩ - - hstep
    have hdirective : Directive.ofText? source.operation ≠ some .origin := by
      intro horigin
      rw [horigin] at hstep
      exact hsome hstep.origin_spec.1
    refine ⟨fun hnil => ?_, (hstep.head_eq hdirective).2.1.trans hsame⟩
    exact absurd (List.append_eq_nil_iff.mp hnil).2 (by simp)
  exact hkept.2.symm.trans hseen

/-- Adding lines is adding those in front and then those behind. -/
theorem addLines_append (layout : Layout) (first : Nat) (front back : List String) :
    layout.addLines first (front ++ back) =
      (layout.addLines first front).addLines (first + front.length) back := by
  induction front generalizing layout first with
  | nil => rfl
  | cons text rest ih =>
    rw [List.cons_append, Layout.addLines, ih, Layout.addLines, List.length_cons]
    congr 1
    omega

/-- Lines without statements change nothing. -/
theorem addLines_of_isEmptyLine (layout : Layout) (first : Nat) {lines : List String}
    (h : ∀ text ∈ lines, SourceLine.isEmptyLine text.toList = true) :
    layout.addLines first lines = layout := by
  induction lines generalizing first with
  | nil => rfl
  | cons text rest ih =>
    have hline : layout.addLine first text = layout := if_pos (h text List.mem_cons_self)
    rw [Layout.addLines, hline]
    exact ih _ fun other hother => h other (List.mem_cons_of_mem _ hother)

/-- Alike layouts stay alike through the same lines. -/
theorem Alike.addLines {delta : Nat} {moves otherMoves : Bool}
    {rel : String → Symbol → Symbol → Prop} {layout twin : Layout}
    (hcompatible : Compatible delta moves otherMoves rel)
    (halike : Alike delta moves otherMoves rel layout twin) {first : Nat} {lines : List String}
    (h : (layout.addLines first lines).errors = [])
    (htwin : (twin.addLines first lines).errors = [])
    (hbound : (twin.addLines first lines).location ≤ addressLimit) :
    Alike delta moves otherMoves rel (layout.addLines first lines) (twin.addLines first lines) := by
  induction lines generalizing layout twin first with
  | nil => exact halike
  | cons text rest ih =>
    have hline : (layout.addLine first text).errors = [] := errors_eq_nil_of_addLines h
    have htwinLine : (twin.addLine first text).errors = [] := errors_eq_nil_of_addLines htwin
    have hnext : (twin.addLine first text).originSeen = true :=
      (@head_addLines twin halike.originSeen.2 first [text] htwinLine).1
    have hlocation : (twin.addLine first text).location ≤ addressLimit :=
      location_le_of_addLines hnext htwin hbound
    have hstart : twin.location ≤ addressLimit :=
      location_le_of_addLine halike.originSeen.2 htwinLine hlocation
    refine ih ?_ h htwin hbound
    rcases (step_of_addLine hline).2 with ⟨hempty, hsame⟩ | ⟨hfull, source, after, content, hread⟩
    · rcases (step_of_addLine htwinLine).2 with ⟨-, htwinSame⟩ | ⟨hfull, -⟩
      · rw [hsame, htwinSame]
        exact halike
      · exact absurd (hempty.symm.trans hfull) (by decide)
    · obtain ⟨hscan, hstep, hpush⟩ := hread
      rcases (step_of_addLine htwinLine).2 with
        ⟨hempty, -⟩ | ⟨-, twinSource, twinAfter, _, htwinRead⟩
      · exact absurd (hempty.symm.trans hfull) (by decide)
      · obtain ⟨htwinScan, htwinStep, htwinPush⟩ := htwinRead
        obtain rfl : source = twinSource := by simpa [hscan] using htwinScan
        obtain ⟨rfl, hafter⟩ := halike.step hcompatible hstep htwinStep hstart
        rw [htwinPush] at hlocation
        rw [hpush, htwinPush]
        exact hafter.push first text text _ hlocation

end Layout

end PageMachine
