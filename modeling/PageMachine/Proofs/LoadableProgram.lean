import PageMachine.Proofs.AcceptedFile
import PageMachine.Proofs.RoundTrip

/-!
# Which object texts load

The words of an accepted program come in the order of their addresses and lie in the segment that
its header announces, its exports have different names that may name symbols, and it starts in its
segment. So nothing can be wrong with its object text but two names: the header counts the segment
name in characters where the loader counts bytes, and an imported name is never checked on its way
from the source into a record. Both conditions are exact.
-/

namespace PageMachine

/-- Addresses that follow one another. -/
def blockAddresses (first count : Nat) : List Word :=
  (List.range count).map fun n => BitVec.ofNat 16 (first + n)

/-- The addresses of a block lie in the block, if memory holds it. -/
theorem bounds_of_mem_blockAddresses {first count : Nat} {address : Word}
    (hfit : first + count ≤ addressLimit) (h : address ∈ blockAddresses first count) :
    first ≤ address.toNat ∧ address.toNat < first + count := by
  obtain ⟨n, hn, rfl⟩ := List.mem_map.mp h
  have hbound := List.mem_range.mp hn
  have hsmall : first + n < 2 ^ 16 := by
    rw [addressLimit] at hfit
    omega
  rw [BitVec.toNat_ofNat, Nat.mod_eq_of_lt hsmall]
  omega

/-- The addresses of a block ascend, if memory holds it. -/
theorem pairwise_blockAddresses {first count : Nat} (hfit : first + count ≤ addressLimit) :
    (blockAddresses first count).Pairwise (· < ·) := by
  rw [blockAddresses, List.pairwise_map]
  refine List.pairwise_lt_range.imp_of_mem fun {n m} hn hm hlt => ?_
  have hbound := List.mem_range.mp hm
  rw [addressLimit] at hfit
  rw [BitVec.lt_def, BitVec.toNat_ofNat, BitVec.toNat_ofNat, Nat.mod_eq_of_lt (by omega),
    Nat.mod_eq_of_lt (by omega)]
  omega

/-- The words of a statement follow one another from its address on and do not reach beyond its
size. -/
theorem Statement.exists_blockAddresses (statement : Statement) (context : EncodingContext) :
    ∃ count ≤ statement.content.size,
      (statement.encode context).words.map TaggedWord.address =
        blockAddresses statement.address count := by
  obtain ⟨line, source, address, content⟩ := statement
  cases content with
  | nothing => exact ⟨0, Nat.le_refl 0, rfl⟩
  | reserve count => exact ⟨0, Nat.zero_le _, rfl⟩
  | unknown => exact ⟨0, Nat.zero_le _, rfl⟩
  | machine definition operands => exact ⟨1, Nat.le_refl 1, rfl⟩
  | fill operand => exact ⟨1, Nat.le_refl 1, rfl⟩
  | data words =>
    refine ⟨words.length, Nat.le_refl _, ?_⟩
    apply List.ext_getElem <;> simp [encode, blockAddresses]

/-- The literals of a pool follow one another from its address on. -/
theorem LiteralPool.map_fst_toList (pool : LiteralPool) (location : Nat) :
    (pool.setOffset (BitVec.ofNat 16 location)).toList.map Prod.fst =
      blockAddresses location pool.size := by
  apply List.ext_getElem <;>
    simp [toList, blockAddresses, setOffset, size, addressAt, BitVec.ofNat_add]

namespace Layout

/-- Whether the statements of a layout follow one another from its origin on, and its own names may
name symbols. -/
structure Ordered (layout : Layout) : Prop where
  /-- Each statement ends before the next, unless the location counter was at its end. -/
  statements : layout.statements.Pairwise fun statement other =>
    statement.address + statement.content.size ≤ other.address ∨ other.address = maxLocation
  /-- No statement lies before the origin. -/
  origin_le : ∀ statement ∈ layout.statements, layout.origin.toNat ≤ statement.address
  /-- Names that are not imported may name symbols. -/
  names : ∀ name symbol, layout.symbols.get? name = some symbol →
    symbol.imported = true ∨ Symbol.isValidName name.toList = true

/-- Before the first line a layout is ordered. -/
theorem ordered_initial (hint : String) : (initial hint).Ordered where
  statements := by simp [initial]
  origin_le := by simp [initial]
  names := by simp [initial, SymbolTable.get?, SymbolTable.empty]

/-- A step with its statement keeps a layout ordered. -/
theorem Ordered.push {layout after : Layout} {line : Nat} {text : String} {source : SourceLine}
    {directive : Option Directive} {content : Content} (hordered : layout.Ordered)
    (hsound : layout.Sound)
    (hlabel : source.label ≠ "" → Symbol.isValidName source.label.toList = true)
    (hstep : layout.Step line source directive after content) :
    (after.push line text content).Ordered := by
  obtain ⟨hgrow, hmax, horigin, -⟩ := hsound.location_spec hstep
  have hstatements := hstep.statements_push text
  exact
    { statements := by
        rw [hstatements, List.pairwise_append]
        refine ⟨hordered.statements, List.pairwise_singleton _ _, ?_⟩
        intro statement hstatement other hother
        obtain rfl := List.mem_singleton.mp hother
        rcases hsound.places statement hstatement with hplace | hplace
        · exact .inl (Nat.le_trans hplace hgrow)
        · exact .inr (Nat.le_antisymm hmax (hplace ▸ hgrow))
      origin_le := by
        rw [hstatements]
        intro statement hstatement
        rcases List.mem_append.mp hstatement with hold | hnew
        · have hne : directive ≠ some .origin := by
            rintro rfl
            rw [hstep.origin_spec.1] at hold
            cases hold
          change after.origin.toNat ≤ _
          rw [(hstep.head_eq hne).2.2.1]
          exact hordered.origin_le statement hold
        · obtain rfl := List.mem_singleton.mp hnew
          exact horigin
      names := by
        refine hstep.forall_symbols (fun hne => .inr (hlabel hne))
          (fun hne _ _ => .inr (hlabel hne)) (fun _ _ => .inl rfl) hordered.names }

/-- The layout of a source text without errors is ordered. -/
theorem ordered_ofSource {hint source : String} (h : (ofSource hint source).errors = []) :
    (ofSource hint source).Ordered := by
  refine (ofSource_induction (motive := fun layout => layout.Sound ∧ layout.Ordered)
    ⟨sound_initial hint, ordered_initial hint⟩ ?_ h).2
  rintro layout after line text scanned content ⟨hsound, hordered⟩ htext hscan hstep
  exact ⟨hsound.addLine htext hscan hstep,
    hordered.push hsound (isValidName_of_scan hscan) hstep⟩

end Layout

namespace Program

/-- The header of a program's object file. -/
def head (program : Program) : Header where
  segmentName := program.segmentName
  origin := if program.relocatable then none else some program.origin
  length := BitVec.ofNat 16 program.length

/-- The records of a program between its header and its end. -/
def content (program : Program) : List Record :=
  program.words.map .text ++ program.symbols.exports.map exportRecord ++
    program.imports.map .imported

/-- The records are the header, those behind it, and the end. -/
theorem records_eq_content (program : Program) :
    program.records = program.head.record :: program.content ++ [.finish program.start] :=
  rfl

/-- The words among the records of a program are its words. -/
theorem filterMap_word_content (program : Program) :
    program.content.filterMap Record.word? = program.words := by
  simp [content, List.filterMap_append, List.filterMap_map, Function.comp_def, Record.word?,
    exportRecord]

/-- The names exported by the records of a program are those of its exported symbols. -/
theorem filterMap_exportName_content (program : Program) :
    program.content.filterMap Record.exportName? = program.symbols.exports.map Prod.fst := by
  simp [content, List.filterMap_append, List.filterMap_map, Function.comp_def, Record.exportName?,
    exportRecord]

end Program

namespace Layout

variable {layout : Layout} {program : Program}

/-- The statements of an accepted program end where its literals begin, or before. -/
theorem Yields.end_le (hyields : layout.Yields program) (hsound : layout.Sound)
    {statement : Statement} (hstatement : statement ∈ layout.statements) :
    statement.address + statement.content.size ≤ layout.location := by
  obtain ⟨-, hmemory, -, -, -⟩ := bounds_of_problems hyields.problems
  refine (hsound.places statement hstatement).resolve_right fun hfull => ?_
  rw [stop, hfull, addressLimit, maxLocation] at hmemory
  omega

/-- The words of a statement of an accepted program form a block within the statement. -/
theorem Yields.exists_block (hyields : layout.Yields program) (hsound : layout.Sound)
    {statement : Statement} (hstatement : statement ∈ layout.statements) :
    ∃ count ≤ statement.content.size, statement.address + count ≤ addressLimit ∧
      (statement.encode (layout.context program.symbols)).words.map TaggedWord.address =
        blockAddresses statement.address count := by
  obtain ⟨-, hmemory, -, -, -⟩ := bounds_of_problems hyields.problems
  have hend := hyields.end_le hsound hstatement
  obtain ⟨count, hcount, hblock⟩ :=
    statement.exists_blockAddresses (layout.context program.symbols)
  rw [stop] at hmemory
  exact ⟨count, hcount, by omega, hblock⟩

/-- The words of a statement of an accepted program lie within the statement. -/
theorem Yields.bounds_of_mem_statement (hyields : layout.Yields program) (hsound : layout.Sound)
    {statement : Statement} (hstatement : statement ∈ layout.statements) {address : Word}
    (h : address ∈
      (statement.encode (layout.context program.symbols)).words.map TaggedWord.address) :
    statement.address ≤ address.toNat ∧
      address.toNat < statement.address + statement.content.size := by
  obtain ⟨count, hcount, hfit, hblock⟩ := hyields.exists_block hsound hstatement
  rw [hblock] at h
  have hbounds := bounds_of_mem_blockAddresses hfit h
  omega

/-- The addresses of a program's words are those of its statements, then the block of its
literals. -/
theorem Yields.map_address_words (hyields : layout.Yields program) :
    program.words.map TaggedWord.address =
      (layout.statements.flatMap fun statement =>
        (statement.encode (layout.context program.symbols)).words.map TaggedWord.address) ++
      blockAddresses layout.location layout.literals.size := by
  have hpool : program.literalWords.map TaggedWord.address =
      blockAddresses layout.location layout.literals.size := by
    rw [← LiteralPool.map_fst_toList, Program.literalWords, hyields.literals, pool]
    simp
  rw [Program.words, List.map_append, List.map_flatMap, hpool, hyields.statements,
    List.flatMap_map]

/-- The words of an accepted program come in the order of their addresses. -/
theorem Yields.pairwise_address_words (hyields : layout.Yields program) (hsound : layout.Sound)
    (hordered : layout.Ordered) : (program.words.map TaggedWord.address).Pairwise (· < ·) := by
  obtain ⟨-, hmemory, -, -, -⟩ := bounds_of_problems hyields.problems
  rw [hyields.map_address_words, List.pairwise_append, List.pairwise_flatMap]
  refine ⟨⟨?_, ?_⟩, pairwise_blockAddresses hmemory, ?_⟩
  · intro statement hstatement
    obtain ⟨count, -, hfit, hblock⟩ := hyields.exists_block hsound hstatement
    rw [hblock]
    exact pairwise_blockAddresses hfit
  · refine hordered.statements.imp_of_mem fun {statement other} hleft hright hbehind => ?_
    intro address haddress place hplace
    have hend := hyields.end_le hsound hright
    have hfirst := hyields.bounds_of_mem_statement hsound hleft haddress
    have hsecond := hyields.bounds_of_mem_statement hsound hright hplace
    rw [stop, addressLimit] at hmemory
    rw [maxLocation] at hbehind
    rw [BitVec.lt_def]
    omega
  · intro address haddress place hplace
    obtain ⟨statement, hstatement, haddress⟩ := List.mem_flatMap.mp haddress
    have hend := hyields.end_le hsound hstatement
    have hfirst := hyields.bounds_of_mem_statement hsound hstatement haddress
    have hsecond := bounds_of_mem_blockAddresses hmemory hplace
    rw [BitVec.lt_def]
    omega

/-- The words of an accepted program lie between its origin and its end. -/
theorem Yields.bounds_of_mem_words (hyields : layout.Yields program) (hsound : layout.Sound)
    (hordered : layout.Ordered) {word : TaggedWord} (hword : word ∈ program.words) :
    layout.origin.toNat ≤ word.address.toNat ∧ word.address.toNat < layout.stop := by
  obtain ⟨-, hmemory, -, -, -⟩ := bounds_of_problems hyields.problems
  have haddress := List.mem_map_of_mem (f := TaggedWord.address) hword
  rw [hyields.map_address_words] at haddress
  rw [stop] at hmemory ⊢
  rcases List.mem_append.mp haddress with haddress | haddress
  · obtain ⟨statement, hstatement, haddress⟩ := List.mem_flatMap.mp haddress
    have hend := hyields.end_le hsound hstatement
    have hbounds := hyields.bounds_of_mem_statement hsound hstatement haddress
    have hlower := hordered.origin_le statement hstatement
    omega
  · have hbounds := bounds_of_mem_blockAddresses hmemory haddress
    have hlower := hsound.origin_le
    omega

/-- The header of an accepted program begins at its origin. -/
theorem Yields.first_head (hyields : layout.Yields program) (hsound : layout.Sound) :
    program.head.first = layout.origin := by
  rw [Header.first, Program.head, hyields.relocatable, hyields.origin]
  cases hmoves : layout.relocatable with
  | true => exact (hsound.origin_eq hmoves).symm
  | false => rfl

/-- The header of an accepted program announces its length. -/
theorem Yields.length_head (hyields : layout.Yields program) :
    program.head.length.toNat = layout.stop - layout.origin.toNat := by
  obtain ⟨-, -, hwords, -, -⟩ := bounds_of_problems hyields.problems
  rw [maxWords] at hwords
  rw [Program.head, hyields.length, BitVec.toNat_ofNat]
  omega

/-- Execution of an accepted program starts in its segment. -/
theorem Yields.allowsStart (hyields : layout.Yields program) (hsound : layout.Sound) :
    program.head.AllowsStart program.start := by
  obtain ⟨-, hmemory, hwords, -, -⟩ := bounds_of_problems hyields.problems
  have hfirst := hyields.first_head hsound
  have hlength := hyields.length_head
  have hstop : layout.stop = layout.location + layout.literals.size := rfl
  have hlower := hsound.origin_le
  have horigin : program.head.AllowsStart layout.origin := by
    rw [Header.AllowsStart, Header.Contains, hfirst, hlength]
    by_cases hempty : layout.stop - layout.origin.toNat = 0
    · refine .inr ⟨BitVec.eq_of_toNat_eq ?_, rfl⟩
      rw [hlength, hempty]
      rfl
    · exact .inl ⟨Nat.le_refl _, by omega⟩
  have hstart := hyields.start
  cases hend : layout.start with
  | none =>
    rw [startAddress, hend] at hstart
    rw [← Except.ok.inj hstart]
    exact horigin
  | some last =>
    obtain ⟨value, -, hvalue, hrange, hinside⟩ := startAddress_spec hend hstart
    have hnumber : program.start.toNat = value.toNat := by
      rw [hvalue, BitVec.toNat_ofInt]
      simp only [addressLimit] at hrange
      omega
    rcases hinside with ⟨hleft, hright⟩ | ⟨-, hsame⟩
    · left
      rw [Header.Contains, hfirst, hlength, hnumber]
      omega
    · have heq : program.start = layout.origin := BitVec.eq_of_toNat_eq (hnumber.trans hsame)
      rw [heq]
      exact horigin

/-- The header of an accepted program admits its words, exports and imports. -/
theorem Yields.admits (hyields : layout.Yields program) (hsound : layout.Sound)
    (hordered : layout.Ordered) : program.head.Admits program.content := by
  have hinside : ∀ word ∈ program.words, program.head.Contains word.address := by
    intro word hword
    have hbound := hyields.bounds_of_mem_words hsound hordered hword
    rw [Header.Contains, hyields.first_head hsound, hyields.length_head]
    omega
  exact
    { kinds := by
        intro record hrecord
        simp only [Program.content, List.mem_append, List.mem_map] at hrecord
        rcases hrecord with (⟨word, -, rfl⟩ | ⟨entry, -, rfl⟩) | ⟨site, -, rfl⟩ <;> trivial
      words := by
        intro word hword
        exact hinside word (by simpa [Program.content, Program.exportRecord] using hword)
      sites := by
        intro site hsite
        have hsite : site ∈ program.imports := by
          simpa [Program.content, Program.exportRecord] using hsite
        obtain ⟨encoded, hencoded, hown⟩ := List.mem_flatMap.mp hsite
        obtain ⟨word, hword, hplace⟩ := hyields.exists_word_of_mem_imports hsound hencoded hown
        rw [← hplace]
        exact hinside word (List.mem_append_left _ (List.mem_flatMap_of_mem hencoded hword))
      addresses := by
        rw [Program.filterMap_word_content]
        exact (hyields.pairwise_address_words hsound hordered).imp BitVec.ne_of_lt
      names := by
        rw [Program.filterMap_exportName_content]
        exact SymbolTable.nodup_exports program.symbols }

end Layout

/-- The records of an accepted program before the end can be read exactly when its segment name is
ASCII and the names that it imports may name symbols. -/
theorem Layout.Yields.reads_iff {layout : Layout} {program : Program}
    (hyields : layout.Yields program) (hsound : layout.Sound) (hordered : layout.Ordered) :
    (∀ record ∈ program.head.record :: program.content,
        Record.ofChars record.toChars = .ok record) ↔
      (∀ c ∈ program.segmentName.toList, c.toNat < 128) ∧
        ∀ site ∈ program.imports, Symbol.isValidName site.name.toList := by
  have hlength : program.segmentName.toList.length = Record.nameLength := by
    rw [hyields.segmentName]
    exact hsound.segmentName
  have hheader : Record.ofChars program.head.record.toChars = .ok program.head.record ↔
      ∀ c ∈ program.segmentName.toList, c.toNat < 128 := by
    exact (Record.ofChars_header_iff hlength).trans (and_iff_left rfl)
  have hexports : ∀ entry ∈ program.symbols.exports,
      Record.ofChars (Program.exportRecord entry).toChars = .ok (Program.exportRecord entry) := by
    rintro ⟨name, symbol⟩ hentry
    refine Record.ofChars_exported_iff.mpr ⟨?_, rfl⟩
    obtain ⟨hsome, hexported⟩ := SymbolTable.mem_exports_iff.mp hentry
    obtain ⟨-, known, hknown, hlocal⟩ := hyields.exists_of_exported hsound hsome hexported
    refine (hordered.names name known hknown).resolve_left fun himported => ?_
    exact Bool.false_ne_true (hlocal.symm.trans himported)
  rw [List.forall_mem_cons, hheader]
  refine and_congr_right fun _ => ?_
  simp only [Program.content, List.mem_append, List.mem_map]
  constructor
  · intro h site hsite
    exact (Record.ofChars_imported_iff.mp (h _ (.inr ⟨site, hsite, rfl⟩))).1
  · rintro h record ((⟨word, -, rfl⟩ | ⟨entry, hentry, rfl⟩) | ⟨site, hsite, rfl⟩)
    · exact Record.ofChars_text word
    · exact hexports entry hentry
    · exact Record.ofChars_imported_iff.mpr ⟨h site hsite, rfl⟩

/-- The object text of an accepted program is loaded exactly when its segment name is ASCII without
a line feed and the names that it imports may name symbols. -/
theorem exists_load_objectText_iff {hint source : String} {program : Program}
    (hprogram : assemble hint source = .ok program) :
    (∃ module, load program.objectText = .ok module) ↔
      (∀ c ∈ program.segmentName.toList, c.toNat < 128 ∧ c ≠ '\n') ∧
        ∀ site ∈ program.imports, Symbol.isValidName site.name.toList := by
  let layout := Layout.ofSource hint source
  have hyields : layout.Yields program := yields_of_assemble hprogram
  have hsound : layout.Sound := Layout.sound_ofSource hyields.errors
  have hordered : layout.Ordered := Layout.ordered_ofSource hyields.errors
  have hself : Record.segmentName program.segmentName.toList = program.segmentName.toList := by
    rw [hyields.segmentName]
    exact Record.segmentName_eq_self hsound.segmentName
  by_cases hname : '\n' ∈ program.segmentName.toList
  · constructor
    · rintro ⟨module, hmodule⟩
      rw [Program.objectText, Program.records_eq] at hmodule
      exact absurd (hself.symm ▸ hname) (newline_not_mem_segmentName hmodule)
    · rintro ⟨hascii, -⟩
      exact absurd rfl (hascii _ hname).2
  · have hrecords := hyields.records_spec hsound (hself.symm ▸ hname)
    have hfit : program.head.first.toNat + program.head.length.toNat ≤ addressLimit := by
      obtain ⟨-, hmemory, -, -, -⟩ := Layout.bounds_of_problems hyields.problems
      have hlower := Nat.le_trans hsound.origin_le (Nat.le_add_right _ layout.literals.size)
      rw [hyields.first_head hsound, hyields.length_head]
      exact (Nat.add_sub_of_le hlower).trans_le hmemory
    rw [program.records_eq_content] at hrecords
    have hfile := exists_load_eq_ok_iff
      (fun record hrecord => hrecords record (List.mem_append_left _ hrecord)) hfit
      (hyields.admits hsound hordered) (hyields.allowsStart hsound)
    rw [← program.records_eq_content, ← Program.objectText] at hfile
    rw [hfile, hyields.reads_iff hsound hordered]
    refine and_congr_left fun _ => forall₂_congr fun c hc => ?_
    exact (and_iff_left (ne_of_mem_of_not_mem hc hname)).symm

/-- The object text of a program with an import is loaded. -/
theorem exists_load_roundTripLines :
    ∃ program, assemble "main" (Text.unlines roundTripLines) = .ok program ∧
      ∃ module, load program.objectText = .ok module := by
  have hname : roundTrip.program.segmentName = "Demo  " := by decide +kernel
  refine ⟨_, roundTrip.assembled, (exists_load_objectText_iff roundTrip.assembled).mpr
    ⟨?_, by decide +kernel⟩⟩
  rw [hname]
  simp

/-- The lines of a program that halts. -/
def haltingLines : List String :=
  ["         .ORIG", "         TRAP    x25", "         .END"]

/-- The program that halts, in a segment whose name has a letter beyond ASCII. -/
def accented : { program //
    ((Layout.initial "é").addLines 1 haltingLines).toProgram = .ok program } :=
  okValue _ (by decide +kernel)

/-- The program with the accented hint is accepted, but its object text is not loaded: the header is
one byte too long. -/
theorem load_objectText_accented :
    ∃ program, assemble "é" (Text.unlines haltingLines) = .ok program ∧
      ∀ module, load program.objectText ≠ .ok module := by
  have hprogram : assemble "é" (Text.unlines haltingLines) = .ok accented.1 :=
    (assemble_unlines "é" (by decide)).trans accented.2
  have hfails : (Loader.initial.addLines 1
      (accented.1.records.map Record.render)).finish.isOk = false := by
    decide +kernel
  rw [← load_objectText_eq hprogram (by decide +kernel)] at hfails
  refine ⟨_, hprogram, fun module hmodule => ?_⟩
  rw [hmodule] at hfails
  cases hfails

end PageMachine
