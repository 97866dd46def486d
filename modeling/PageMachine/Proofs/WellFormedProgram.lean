import PageMachine.Proofs.LoadableProgram
import PageMachine.Proofs.StatementSource

/-!
# Accepted programs are well formed

The location counter saturates, addresses are cut to words and marks are set on symbols that may be
imported; what the first pass leaves is sound only because the checks behind it reject the rest.
`WellFormed` collects what is left when all of them have passed. That words ascend and lie in the
segment comes from the order of the statements; here the tables and the tags are added: a symbol
moves only in a relocatable program, since nothing can be defined before the origin is placed, and
a symbol that is not imported is the label of some line.

The values of words and symbols are not part of it.
-/

namespace PageMachine

namespace Layout

/-- A program with nothing wrong has few symbols and few literals. -/
theorem size_le_of_problems {layout : Layout} (h : layout.problems = []) :
    layout.symbols.size ≤ maxSymbols ∧ layout.literals.size ≤ maxLiterals := by
  simp only [problems, List.append_eq_nil_iff, ite_eq_right_iff, reduceCtorEq, imp_false,
    Nat.not_lt] at h
  obtain ⟨⟨⟨-, hsymbols⟩, hliterals⟩, -⟩ := h.1
  exact ⟨hsymbols, hliterals⟩

/-- Marking exports adds no symbols, whether or not all can be marked. -/
theorem size_foldl_markExport (names : List (Nat × String))
    (table : SymbolTable × List AssemblyError) :
    (names.foldl markExport table).1.size = table.1.size := by
  induction names generalizing table with
  | nil => rfl
  | cons name rest ih =>
    rw [List.foldl_cons, ih]
    unfold markExport
    dsimp only
    split
    · rfl
    · split
      · rfl
      · split
        · rename_i hmark
          exact SymbolTable.size_markExport hmark
        · rfl

/-- Whether a name is the label of a statement's line. -/
def IsLabelOf (name : String) (statement : Statement) : Prop :=
  ∃ source, SourceLine.scan statement.source.toList = ([], some source) ∧ source.label = name

/-- Whether the symbols of a layout come from its statements. -/
structure Grounded (layout : Layout) : Prop where
  /-- Symbols move only with a program that moves. -/
  moving : ∀ name symbol, layout.symbols.get? name = some symbol → symbol.relocatable = true →
    layout.relocatable = true
  /-- A symbol is imported or the label of a statement. -/
  labels : ∀ name symbol, layout.symbols.get? name = some symbol →
    symbol.imported = true ∨ ∃ statement ∈ layout.statements, IsLabelOf name statement

/-- Before the first line there are no symbols. -/
theorem grounded_initial (hint : String) : (initial hint).Grounded where
  moving := by simp [initial, SymbolTable.get?, SymbolTable.empty]
  labels := by simp [initial, SymbolTable.get?, SymbolTable.empty]

/-- A step does not make a program move less. -/
theorem Step.relocatable_of_get? {layout after : Layout} {line : Nat} {source : SourceLine}
    {directive : Option Directive} {content : Content} {name : String} {symbol : Symbol}
    (hsound : layout.Sound) (hstep : layout.Step line source directive after content)
    (hsome : layout.symbols.get? name = some symbol) :
    after.relocatable = layout.relocatable := by
  by_cases horigin : directive = some .origin
  · -- Before the origin there are no statements, so that no name has a symbol.
    subst horigin
    obtain ⟨hint, rfl⟩ := hsound.fresh hstep.origin_spec.1
    simp [initial, SymbolTable.get?, SymbolTable.empty] at hsome
  · exact (hstep.head_eq horigin).2.2.2.1

/-- A step with its statement keeps the symbols grounded. -/
theorem Grounded.push {layout after : Layout} {line : Nat} {text : String} {source : SourceLine}
    {directive : Option Directive} {content : Content} (hgrounded : layout.Grounded)
    (hsound : layout.Sound) (hscan : SourceLine.scan text.toList = ([], some source))
    (hstep : layout.Step line source directive after content) :
    (after.push line text content).Grounded := by
  have hstatements := hstep.statements_push text
  have hown : ∃ statement ∈ (after.push line text content).statements,
      IsLabelOf source.label statement := by
    rw [hstatements]
    exact ⟨_, List.mem_append_right _ (List.mem_singleton_self _), source, hscan, rfl⟩
  exact
    { moving := by
        refine hstep.forall_symbols (fun _ hmoves => hmoves) ?_ (fun _ _ hmoves => nomatch hmoves) ?_
        · intro _ symbol hequates hmoves
          cases hequates with
          | copy operand target _ _ hsome =>
            exact (hstep.relocatable_of_get? hsound hsome).trans
              (hgrounded.moving operand.text target hsome hmoves)
          | constant => cases hmoves
        · intro name symbol hsome hmoves
          exact (hstep.relocatable_of_get? hsound hsome).trans
            (hgrounded.moving name symbol hsome hmoves)
      labels := by
        refine hstep.forall_symbols (fun _ => .inr hown) (fun _ _ _ => .inr hown)
          (fun _ _ => .inl rfl) ?_
        intro name symbol hsome
        refine (hgrounded.labels name symbol hsome).imp_right ?_
        rintro ⟨statement, hstatement, hlabel⟩
        rw [hstatements]
        exact ⟨statement, List.mem_append_left _ hstatement, hlabel⟩ }

/-- The symbols of a source text without errors come from its statements. -/
theorem grounded_ofSource {hint source : String} (h : (ofSource hint source).errors = []) :
    (ofSource hint source).Grounded := by
  refine (ofSource_induction (motive := fun layout => layout.Sound ∧ layout.Grounded)
    ⟨sound_initial hint, grounded_initial hint⟩ ?_ h).2
  rintro layout after line text scanned content ⟨hsound, hgrounded⟩ htext hscan hstep
  exact ⟨hsound.addLine htext hscan hstep, hgrounded.push hsound hscan hstep⟩

variable {layout : Layout} {program : Program}

/-- An accepted program has as many symbols as its layout. -/
theorem Yields.size_symbols (hyields : layout.Yields program) :
    program.symbols.size = layout.symbols.size := by
  have hsize := size_foldl_markExport layout.exports (layout.symbols, [])
  rw [← exportedSymbols, hyields.symbols] at hsize
  exact hsize

/-- Only the words of a relocatable program are tagged. -/
theorem Yields.relocatable_of_tagged (hyields : layout.Yields program) (hsound : layout.Sound)
    (hgrounded : layout.Grounded) {word : TaggedWord} (hword : word ∈ program.words)
    (htag : word.relocation ≠ none) : layout.relocatable = true := by
  rcases List.mem_append.mp hword with hword | hword
  · rw [hyields.statements, List.flatMap_map] at hword
    obtain ⟨statement, hstatement, hword⟩ := List.mem_flatMap.mp hword
    have hformed := hsound.formed statement hstatement
    cases hlast : statement.content.last? with
    | none =>
      rw [Statement.encode_of_last?_eq_none hformed hlast] at hword
      obtain ⟨n, hn, rfl⟩ := List.mem_mapIdx.mp hword
      exact absurd rfl htag
    | some last =>
      obtain ⟨held, hresolves, hencode⟩ :=
        Statement.encode_of_last? hformed hlast (hyields.encodes statement hstatement)
      rw [hencode] at hword
      obtain rfl := List.mem_singleton.mp hword
      have htarget : ∀ {value : Int} {moves : Bool},
          (layout.context program.symbols).Target last.2.2 value moves → moves = true →
          layout.relocatable = true := by
        intro value moves htarget hmoves
        cases htarget with
        | symbol symbol hkind hsome himported =>
          obtain ⟨known, hknown, -, hsame, -⟩ := hyields.exists_known hsome
          exact hgrounded.moving _ known hknown (hsame.symm.trans hmoves)
        | literal => exact hmoves
      cases hresolves with
      | onPage value moves ht =>
        cases moves with
        | true => exact htarget ht rfl
        | false => exact absurd rfl htag
      | moving value ht => exact htarget ht rfl
      | _ => exact absurd rfl htag
  · obtain ⟨entry, -, rfl⟩ := List.mem_map.mp hword
    exact absurd rfl htag

/-- Execution of an accepted program starts in its segment, or at its origin. -/
theorem Yields.start_spec (hyields : layout.Yields program) (hsound : layout.Sound) :
    (program.origin.toNat ≤ program.start.toNat ∧
      program.start.toNat < program.origin.toNat + program.length) ∨
      program.start = program.origin := by
  have hfirst := hyields.first_head hsound
  have hlength := hyields.length_head
  rw [hyields.origin, hyields.length]
  rcases hyields.allowsStart hsound with hinside | ⟨-, hsame⟩
  · left
    rw [Header.Contains, hfirst, hlength] at hinside
    exact hinside
  · exact .inr (hsame.trans hfirst)

/-- A name to be exported has an exported symbol. -/
theorem Yields.exists_of_mem_exports (hyields : layout.Yields program) {name : String}
    (hname : name ∈ layout.exports.map Prod.snd) :
    ∃ symbol, program.symbols.get? name = some symbol ∧ symbol.exported = true := by
  have hmarked := congrArg Prod.snd hyields.symbols
  obtain ⟨entry, hentry, rfl⟩ := List.mem_map.mp hname
  obtain ⟨known, hknown, -⟩ := (foldl_markExport hmarked).2.1 entry hentry
  refine ⟨marked layout.exports entry.2 known, ?_, ?_⟩
  · rw [hyields.get?_symbols, show layout.symbols.get? entry.2 = some known from hknown,
      Option.map_some]
  · rw [marked, if_pos hname]

/-- A step of names to be exported notes each of them. -/
theorem Step.mem_exports {after : Layout} {line : Nat} {source : SourceLine} {content : Content}
    (hstep : layout.Step line source (some .exports) after content) {name : String}
    (hname : name ∈ source.operands) : (line, name) ∈ after.exports := by
  cases hstep with
  | exports =>
    refine List.mem_append_right _ (List.mem_map.mpr ⟨⟨name⟩, ?_, rfl⟩)
    exact List.mem_map.mpr ⟨name, hname, rfl⟩

/-- A name listed for export is one to be exported. -/
theorem LaysOut.mem_exports {statement : Statement} {source : SourceLine}
    (h : layout.LaysOut statement source) (hoperation : source.operation = ".ENT") {name : String}
    (hname : name ∈ source.operands) : name ∈ layout.exports.map Prod.snd := by
  obtain ⟨before, after, -, hstep, -, -, hkeeps⟩ := h
  rw [hoperation, show Directive.ofText? ".ENT" = some .exports from rfl] at hstep
  exact List.mem_map.mpr ⟨_, hkeeps.exports (hstep.mem_exports hname), rfl⟩

end Layout

/-- Whether a program of some source lines is well formed. -/
structure Program.WellFormed (program : Program) (lines : List SourceLine) : Prop where
  /-- The words come in the order of their addresses. -/
  ascending : (program.words.map TaggedWord.address).Pairwise (· < ·)
  /-- Every word lies between the origin and the end. -/
  inside : ∀ word ∈ program.words, program.origin.toNat ≤ word.address.toNat ∧
    word.address.toNat < program.origin.toNat + program.length
  /-- The program ends in memory. -/
  memory : program.origin.toNat + program.length ≤ 65536
  /-- The program is short. -/
  length_le : program.length ≤ 200
  /-- There are few symbols. -/
  symbols_le : program.symbols.size ≤ 100
  /-- There are few literals. -/
  literals_le : program.literals.size ≤ 50
  /-- Execution starts between the origin and the end, or at the origin. -/
  start : (program.origin.toNat ≤ program.start.toNat ∧
    program.start.toNat < program.origin.toNat + program.length) ∨ program.start = program.origin
  /-- Only the words of a relocatable program are tagged. -/
  tags : ∀ word ∈ program.words, word.relocation ≠ none → program.relocatable = true
  /-- The origin of a relocatable program is zero. -/
  origin_eq : program.relocatable = true → program.origin = 0
  /-- A field that another module fills lies in a word and names an imported symbol. -/
  imports : ∀ site ∈ program.imports, (∃ word ∈ program.words, word.address = site.address) ∧
    ∃ symbol, program.symbols.get? site.name = some symbol ∧ symbol.imported = true
  /-- An exported symbol is the label of a line and not imported. -/
  exports : ∀ name symbol, program.symbols.get? name = some symbol → symbol.exported = true →
    symbol.imported = false ∧ ∃ line ∈ lines, line.label = name
  /-- A name listed for export is that of an exported symbol. -/
  listed : ∀ line ∈ lines, line.operation = ".ENT" → ∀ name ∈ line.operands,
    ∃ symbol, program.symbols.get? name = some symbol ∧ symbol.exported = true
  /-- The segment name has six characters. -/
  segmentName : program.segmentName.toList.length = 6

/-- Every accepted program is well formed: its words ascend and lie in its segment, the segment and
the tables keep their limits, execution starts inside, only what moves is tagged, and imports and
exports are what their symbols say. -/
theorem wellFormed_of_assemble {hint source : String} {program : Program}
    (h : assemble hint source = .ok program) :
    program.WellFormed (SourceLine.ofSource source) := by
  have hyields := yields_of_assemble h
  have hsound := Layout.sound_ofSource hyields.errors
  have hordered := Layout.ordered_ofSource hyields.errors
  have hgrounded := Layout.grounded_ofSource hyields.errors
  have hlines := Layout.forall₂_laysOut_ofSource hyields.errors
  obtain ⟨-, hmemory, hwords, -⟩ := Layout.bounds_of_problems hyields.problems
  obtain ⟨hsymbols, hliterals⟩ := Layout.size_le_of_problems hyields.problems
  have hend : program.origin.toNat + program.length = (Layout.ofSource hint source).stop := by
    have hlower := hsound.origin_le
    rw [hyields.origin, hyields.length, Layout.stop]
    omega
  exact
    { ascending := hyields.pairwise_address_words hsound hordered
      inside := by
        intro word hword
        rw [hend, hyields.origin]
        exact hyields.bounds_of_mem_words hsound hordered hword
      memory := hend.le.trans hmemory
      length_le := hyields.length.le.trans hwords
      symbols_le := hyields.size_symbols.le.trans hsymbols
      literals_le := by
        rw [hyields.literals]
        exact hliterals
      start := hyields.start_spec hsound
      tags := by
        intro word hword htag
        rw [hyields.relocatable]
        exact hyields.relocatable_of_tagged hsound hgrounded hword htag
      origin_eq := by
        rw [hyields.relocatable, hyields.origin]
        exact hsound.origin_eq
      imports := by
        intro site hsite
        refine ⟨?_, hyields.exists_of_mem_imports hsound hsite⟩
        obtain ⟨encoded, hencoded, hsite⟩ := List.mem_flatMap.mp hsite
        obtain ⟨word, hword, haddress⟩ :=
          hyields.exists_word_of_mem_imports hsound hencoded hsite
        exact ⟨word, List.mem_append_left _ (List.mem_flatMap.mpr ⟨encoded, hencoded, hword⟩),
          haddress⟩
      exports := by
        intro name symbol hsome hexported
        obtain ⟨hlocal, known, hknown, himported⟩ :=
          hyields.exists_of_exported hsound hsome hexported
        refine ⟨hlocal, ?_⟩
        obtain hforeign | ⟨statement, hstatement, line, hscan, hlabel⟩ :=
          hgrounded.labels name known hknown
        · exact absurd (himported.symm.trans hforeign) Bool.false_ne_true
        · obtain ⟨own, hown, hlaid⟩ := Layout.exists_line_of_mem hlines hstatement
          obtain ⟨-, -, hread, -⟩ := hlaid
          obtain rfl : line = own := by simpa [hscan] using hread
          exact ⟨line, hown, hlabel⟩
      listed := by
        intro line hline hoperation name hname
        obtain ⟨statement, -, hlaid⟩ := Layout.exists_statement_of_mem hlines hline
        exact hyields.exists_of_mem_exports (hlaid.mem_exports hoperation hname)
      segmentName := by
        rw [hyields.segmentName]
        exact hsound.segmentName }

/-- A program that has tagged words, imports and exports is well formed. -/
theorem wellFormed_roundTripLines :
    ∃ program, assemble "main" (Text.unlines roundTripLines) = .ok program ∧
      (∃ word ∈ program.words, word.relocation ≠ none) ∧ program.imports ≠ [] ∧
      program.symbols.exports ≠ [] ∧ program.literals.size = 1 ∧
      program.WellFormed (SourceLine.ofSource (Text.unlines roundTripLines)) := by
  have hcontent : (∃ word ∈ roundTrip.program.words, word.relocation ≠ none) ∧
      roundTrip.program.imports ≠ [] ∧ roundTrip.program.symbols.exports ≠ [] ∧
      roundTrip.program.literals.size = 1 := by decide +kernel
  obtain ⟨htagged, himports, hexports, hliterals⟩ := hcontent
  exact ⟨_, roundTrip.assembled, htagged, himports, hexports, hliterals,
    wellFormed_of_assemble roundTrip.assembled⟩

end PageMachine
