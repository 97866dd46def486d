import Mathlib.Data.List.Pairwise
import PageMachine.Assembly
import PageMachine.Proofs.EncodedWord

/-!
# What an assembled program consists of

`Yields` says what a layout and its program have in common when assembling succeeds: neither pass
and no check found an error, and each part of the program comes from its part of the layout.
Everything later that concerns accepted programs starts from it. Exporting only marks symbols, and
never imported ones, so that what a table knows otherwise stays as the first pass left it.
-/

namespace PageMachine

/-- Whether the words of one statement lie where no word of the other does. -/
def EncodedStatement.Apart (encoded other : EncodedStatement) : Prop :=
  ∀ word ∈ encoded.words, ∀ place ∈ other.words, word.address ≠ place.address

instance : Std.Symm EncodedStatement.Apart :=
  ⟨fun _ _ hapart word hword place hplace => (hapart place hplace word hword).symm⟩

namespace Program

/-- Statements of a program whose words lie at different addresses are apart. -/
theorem pairwise_apart {program : Program} (hnodup : (program.words.map TaggedWord.address).Nodup) :
    program.statements.Pairwise EncodedStatement.Apart := by
  rw [words, List.map_append, List.map_flatMap] at hnodup
  have hstatements := (List.nodup_append.mp hnodup).1
  rw [List.Nodup, List.pairwise_flatMap] at hstatements
  refine hstatements.2.imp fun hapart word hword place hplace => ?_
  exact hapart _ (List.mem_map_of_mem hword) _ (List.mem_map_of_mem hplace)

/-- Only one statement of a program has a word at an address. -/
theorem statement_unique {program : Program}
    (hnodup : (program.words.map TaggedWord.address).Nodup) {encoded other : EncodedStatement}
    (hencoded : encoded ∈ program.statements) (hother : other ∈ program.statements)
    {word place : TaggedWord} (hword : word ∈ encoded.words) (hplace : place ∈ other.words)
    (haddress : word.address = place.address) : encoded = other := by
  by_contra hne
  exact (pairwise_apart hnodup).forall hencoded hother hne word hword place hplace haddress

/-- The fields that other modules fill at the address of a statement's word are the statement's
own, if statements fill only their own words. -/
theorem filter_imports {statements : List EncodedStatement}
    (hapart : statements.Pairwise EncodedStatement.Apart)
    (hown : ∀ encoded ∈ statements, ∀ site ∈ encoded.imports,
      ∃ word ∈ encoded.words, word.address = site.address)
    {encoded : EncodedStatement} (hencoded : encoded ∈ statements) {word : TaggedWord}
    (hword : word ∈ encoded.words) :
    (statements.flatMap EncodedStatement.imports).filter (fun site => site.address = word.address) =
      encoded.imports.filter fun site => site.address = word.address := by
  induction statements with
  | nil => cases hencoded
  | cons first rest ih =>
    rw [List.pairwise_cons] at hapart
    rw [List.flatMap_cons, List.filter_append]
    rcases List.mem_cons.mp hencoded with rfl | hmem
    · have hnone : (rest.flatMap EncodedStatement.imports).filter
          (fun site => site.address = word.address) = [] := by
        rw [List.filter_eq_nil_iff]
        intro site hsite
        obtain ⟨other, hother, hsite⟩ := List.mem_flatMap.mp hsite
        obtain ⟨place, hplace, hsame⟩ := hown other (List.mem_cons_of_mem _ hother) site hsite
        have hne := hapart.1 other hother word hword place hplace
        simpa [← hsame] using hne.symm
      rw [hnone, List.append_nil]
    · have hnone : first.imports.filter (fun site => site.address = word.address) = [] := by
        rw [List.filter_eq_nil_iff]
        intro site hsite
        obtain ⟨place, hplace, hsame⟩ := hown first List.mem_cons_self site hsite
        have hne := hapart.1 encoded hmem place hplace word hword
        simpa [← hsame] using hne
      rw [hnone, List.nil_append]
      exact ih hapart.2 (fun other hother => hown other (List.mem_cons_of_mem _ hother)) hmem

end Program

namespace Layout

/-- What the statements of a layout are encoded against, with the final symbols. -/
def context (layout : Layout) (symbols : SymbolTable) : EncodingContext where
  symbols := symbols
  literals := layout.pool
  origin := layout.origin
  relocatable := layout.relocatable

/-- Whether a layout is free of errors and a program results from it. -/
structure Yields (layout : Layout) (program : Program) : Prop where
  /-- The first pass found no errors. -/
  errors : layout.errors = []
  /-- Nothing is wrong with the program as a whole. -/
  problems : layout.problems = []
  /-- The symbols are those of the layout, the exported ones marked. -/
  symbols : layout.exportedSymbols = (program.symbols, [])
  /-- Execution starts where the end asks. -/
  start : layout.startAddress program.symbols = .ok program.start
  /-- All statements can be encoded. -/
  encodes : ∀ statement ∈ layout.statements,
    (statement.encode (layout.context program.symbols)).errors = []
  /-- The statements are encoded in their order. -/
  statements : program.statements =
    layout.statements.map (Statement.encode (layout.context program.symbols))
  /-- The literals lie behind the statements. -/
  literals : program.literals = layout.pool
  /-- The segment is named as the layout says. -/
  segmentName : program.segmentName = layout.segmentName
  /-- The origin is that of the layout. -/
  origin : program.origin = layout.origin
  /-- The program moves if its origin was not given. -/
  relocatable : program.relocatable = layout.relocatable
  /-- The length reaches from the origin to the end of the literals. -/
  length : program.length = layout.stop - layout.origin.toNat

/-- A program results only from a layout without errors. -/
theorem yields_of_toProgram {layout : Layout} {program : Program}
    (h : layout.toProgram = .ok program) : layout.Yields program := by
  unfold toProgram at h
  dsimp only at h
  split at h
  · rename_i start herrors hstart
    obtain rfl := Except.ok.inj h
    rw [hstart] at herrors
    simp only [List.append_nil, List.append_eq_nil_iff, List.map_eq_nil_iff,
      List.flatMap_eq_nil_iff, List.mem_map, forall_exists_index, and_imp,
      forall_apply_eq_imp_iff₂] at herrors
    obtain ⟨⟨⟨hclean, hproblems⟩, hexports⟩, hencoded⟩ := herrors
    exact
      { errors := hclean
        problems := hproblems
        symbols := Prod.ext rfl hexports
        start := hstart
        encodes := fun statement hstatement =>
          List.map_eq_nil_iff.mp (hencoded statement hstatement)
        statements := rfl
        literals := rfl
        segmentName := rfl
        origin := rfl
        relocatable := rfl
        length := rfl }
  · cases h

/-- A program results from every layout with nothing wrong. -/
theorem Yields.toProgram {layout : Layout} {program : Program} (h : layout.Yields program) :
    layout.toProgram = .ok program := by
  have hencoded : program.statements.flatMap encodingErrors = [] := by
    rw [h.statements, List.flatMap_eq_nil_iff, List.forall_mem_map]
    intro statement hstatement
    exact List.map_eq_nil_iff.mpr (h.encodes statement hstatement)
  have hcontext : (⟨program.symbols, layout.pool, layout.origin, layout.relocatable⟩ :
      EncodingContext) = layout.context program.symbols := rfl
  unfold Layout.toProgram
  rw [h.symbols]
  dsimp only
  rw [h.start, h.errors, h.problems, hcontext, ← h.statements, hencoded, ← h.segmentName,
    ← h.length, ← h.literals, ← h.origin, ← h.relocatable]
  rfl

/-- A program with nothing wrong ends in memory, has few words, and both its ends were given. -/
theorem bounds_of_problems {layout : Layout} (h : layout.problems = []) :
    (layout.relocatable = true → layout.stop ≤ pageSize) ∧ layout.stop ≤ addressLimit ∧
      layout.stop - layout.origin.toNat ≤ maxWords ∧ layout.originSeen = true ∧
      layout.endSeen = true := by
  simp only [problems, List.append_eq_nil_iff, ite_eq_right_iff, ite_eq_left_iff, reduceCtorEq,
    imp_false, not_and, Nat.not_lt, Bool.and_eq_true, Classical.not_imp, not_not] at h
  obtain ⟨⟨⟨⟨⟨hpage, hmemory⟩, -⟩, -⟩, hwords⟩, hcomplete⟩ := h
  exact ⟨hpage, hmemory, hwords, hcomplete⟩

/-- A start that the end names is an address where execution may start. -/
theorem startAddress_spec {layout : Layout} {symbols : SymbolTable} {start : Word} {line : Nat}
    {operand : Operand} (hend : layout.start = some (line, operand))
    (h : layout.startAddress symbols = .ok start) :
    ∃ value : Int, startValue symbols operand = .ok value ∧ start = BitVec.ofInt 16 value ∧
      (0 ≤ value ∧ value < addressLimit) ∧ layout.Contains value.toNat := by
  simp only [startAddress, hend] at h
  split at h
  · cases h
  · rename_i value hvalue
    split at h
    · rename_i hrange
      split at h
      · rename_i hinside
        exact ⟨value, hvalue, (Except.ok.inj h).symm, hrange, hinside⟩
      · cases h
    · cases h

/-- A start given by a name is the value of the name's symbol, which is not imported. -/
theorem startValue_of_symbol {symbols : SymbolTable} {operand : Operand} {symbol : Symbol}
    {value : Int} (hkind : operand.kind = .symbol)
    (hsome : symbols.get? operand.text = some symbol)
    (h : startValue symbols operand = .ok value) :
    symbol.imported = false ∧ value = symbol.value := by
  simp only [startValue, hkind, hsome] at h
  split at h
  · cases h
  · rename_i himported
    exact ⟨by simpa using himported, (Except.ok.inj h).symm⟩

/-- The symbol that a table has for a name when some of its names are exported. -/
def marked (names : List (Nat × String)) (name : String) (symbol : Symbol) : Symbol :=
  if name ∈ names.map Prod.snd then { symbol with exported := true } else symbol

/-- Marking exports changes nothing but the mark. -/
theorem marked_eq (names : List (Nat × String)) (name : String) (symbol : Symbol) :
    marked names name symbol =
      { symbol with exported := (marked names name symbol).exported } := by
  unfold marked
  split <;> rfl

/-- Marking an export that leaves no error is of a known symbol that is not imported. -/
theorem markExport_eq {table : SymbolTable × List AssemblyError} {name : Nat × String}
    (h : (markExport table name).2 = []) :
    table.2 = [] ∧ ∃ symbol, table.1.get? name.2 = some symbol ∧ symbol.imported = false ∧
      ∀ other, (markExport table name).1.get? other =
        if other = name.2 then some { symbol with exported := true } else table.1.get? other := by
  unfold markExport at h ⊢
  dsimp only at h ⊢
  split at h
  · simp at h
  · rename_i symbol hsome
    split at h
    · simp at h
    · rename_i himported
      obtain ⟨marked, hmark⟩ := SymbolTable.exists_markExport_eq_ok hsome
      rw [hmark] at h ⊢
      refine ⟨h, symbol, hsome, by simpa using himported, fun other => ?_⟩
      rw [if_neg himported]
      exact SymbolTable.get?_markExport hsome hmark other

/-- Marking exports without errors marks exactly the symbols of their names, which are known and
not imported. -/
theorem foldl_markExport {names : List (Nat × String)} {table : SymbolTable × List AssemblyError}
    (h : (names.foldl markExport table).2 = []) :
    table.2 = [] ∧
      (∀ name ∈ names, ∃ symbol, table.1.get? name.2 = some symbol ∧ symbol.imported = false) ∧
      ∀ name, (names.foldl markExport table).1.get? name =
        (table.1.get? name).map (marked names name) := by
  induction names generalizing table with
  | nil =>
    refine ⟨h, by simp, fun name => ?_⟩
    have hsame : marked [] name = id := by
      funext symbol
      simp [marked]
    rw [hsame, Option.map_id]
    rfl
  | cons first rest ih =>
    rw [List.foldl_cons] at h ⊢
    obtain ⟨hfirst, hnames, hget⟩ := ih h
    obtain ⟨hclean, symbol, hsome, himported, hmark⟩ := markExport_eq hfirst
    refine ⟨hclean, ?_, fun name => ?_⟩
    · intro name hname
      rcases List.mem_cons.mp hname with rfl | hname
      · exact ⟨symbol, hsome, himported⟩
      · obtain ⟨known, hknown, hlocal⟩ := hnames name hname
        rw [hmark] at hknown
        split at hknown
        · rename_i heq
          rw [heq]
          exact ⟨symbol, hsome, himported⟩
        · exact ⟨known, hknown, hlocal⟩
    · rw [hget, hmark]
      by_cases heq : name = first.2
      · subst heq
        simp [marked, hsome]
      · have hmem : name ∈ (first :: rest).map Prod.snd ↔ name ∈ rest.map Prod.snd := by
          rw [List.map_cons, List.mem_cons, or_iff_right heq]
        have hsame : marked (first :: rest) name = marked rest name := by
          funext symbol
          simp only [marked, hmem]
        rw [if_neg heq, hsame]

/-- A program knows the symbols of its layout, those to be exported being marked. -/
theorem Yields.get?_symbols {layout : Layout} {program : Program} (h : layout.Yields program)
    (name : String) :
    program.symbols.get? name = (layout.symbols.get? name).map (marked layout.exports name) := by
  have hmarked := h.symbols
  unfold exportedSymbols at hmarked
  have hget := (foldl_markExport (congrArg Prod.snd hmarked)).2.2 name
  rw [hmarked] at hget
  exact hget

/-- A symbol that the layout knows is one of the program's, which differs at most in its export. -/
theorem Yields.exists_symbol {layout : Layout} {program : Program} (h : layout.Yields program)
    {name : String} {known : Symbol} (hknown : layout.symbols.get? name = some known) :
    ∃ symbol, program.symbols.get? name = some symbol ∧ symbol.value = known.value ∧
      symbol.relocatable = known.relocatable ∧ symbol.imported = known.imported := by
  refine ⟨marked layout.exports name known, ?_, ?_⟩
  · rw [h.get?_symbols, hknown, Option.map_some]
  · rw [marked_eq]
    exact ⟨rfl, rfl, rfl⟩

/-- A symbol of the program is known to its layout, where it differs at most in its export. -/
theorem Yields.exists_known {layout : Layout} {program : Program} (h : layout.Yields program)
    {name : String} {symbol : Symbol} (hsome : program.symbols.get? name = some symbol) :
    ∃ known, layout.symbols.get? name = some known ∧ symbol.value = known.value ∧
      symbol.relocatable = known.relocatable ∧ symbol.imported = known.imported := by
  rw [h.get?_symbols] at hsome
  obtain ⟨known, hknown, rfl⟩ := Option.map_eq_some_iff.mp hsome
  refine ⟨known, hknown, ?_⟩
  rw [marked_eq]
  exact ⟨rfl, rfl, rfl⟩

/-- Exported symbols are not imported. -/
theorem Yields.imported_eq_false {layout : Layout} {program : Program} (h : layout.Yields program)
    {name : String} (hname : name ∈ layout.exports.map Prod.snd) {symbol : Symbol}
    (hsome : layout.symbols.get? name = some symbol) : symbol.imported = false := by
  have hmarked := h.symbols
  unfold exportedSymbols at hmarked
  obtain ⟨entry, hentry, rfl⟩ := List.mem_map.mp hname
  obtain ⟨known, hknown, hlocal⟩ :=
    (foldl_markExport (congrArg Prod.snd hmarked)).2.1 entry hentry
  rw [hsome] at hknown
  rw [Option.some.inj hknown]
  exact hlocal

/-- A field that another module fills lies in a word of its statement, for every statement of an
accepted program. -/
theorem Yields.exists_word_of_mem_imports {layout : Layout} {program : Program}
    (hyields : layout.Yields program) (hsound : layout.Sound) {encoded : EncodedStatement}
    (hencoded : encoded ∈ program.statements) {site : ImportSite} (hsite : site ∈ encoded.imports) :
    ∃ word ∈ encoded.words, word.address = site.address := by
  rw [hyields.statements] at hencoded
  obtain ⟨statement, hstatement, rfl⟩ := List.mem_map.mp hencoded
  exact statement.exists_word_of_mem_imports (hsound.formed statement hstatement)
    (hyields.encodes statement hstatement) hsite

end Layout

/-- An accepted source text yields its program from a layout without errors. -/
theorem yields_of_assemble {hint source : String} {program : Program}
    (h : assemble hint source = .ok program) : (Layout.ofSource hint source).Yields program :=
  Layout.yields_of_toProgram h

/-- A source text given by its lines is assembled line by line. -/
theorem assemble_unlines {texts : List String} (hint : String)
    (h : ∀ text ∈ texts, '\n' ∉ text.toList ∧ Text.dropReturn text.toList = text.toList) :
    assemble hint (Text.unlines texts) = ((Layout.initial hint).addLines 1 texts).toProgram := by
  rw [assemble, Layout.ofSource, Text.lines_unlines h]

end PageMachine
