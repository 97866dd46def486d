import Mathlib.Data.List.Nodup
import PageMachine.Proofs.Assembled

/-!
# Loading undoes rendering

The object text of an accepted program, when it can be loaded, gives back the program: the same
words at the same addresses with the same tags, the same exports with their values cut to words,
and the same imports. What has to be seen is that no field of a record runs into another and that
names survive the cutting into lines and the trimming; a segment name with a line feed in it does
not, but then nothing is loaded. Whether a given object text can be loaded at all is another
question, left open here.
-/

namespace PageMachine

open Record (FitsLine)

namespace Record

/-- A header is read only from a line of fifteen characters. -/
theorem length_of_ofChars_header {line : List Char} {record : Record}
    (hhead : line.head? = some 'H') (h : ofChars line = .ok record) : line.length = 15 := by
  simp only [ofChars, hhead, parseHeader] at h
  split at h
  · cases h
  · rename_i hlength
    exact Decidable.not_not.mp (not_or.mp hlength).1

end Record

namespace Loader

/-- A line that begins a header but is too short for one is an error. -/
theorem errors_addLine_ne_nil {loader : Loader} {line : Nat} {text : List Char}
    (hlength : text.length < 14) : (loader.addLine line ('H' :: text)).errors ≠ [] := by
  intro h
  have hprefix := Text.trimEnd_prefix_self ('H' :: text)
  have htrim : Text.trim ('H' :: text) = Text.trimEnd ('H' :: text) := Text.trim_cons (by decide)
  unfold addLine at h
  rw [htrim] at h
  split at h
  · rename_i hnil
    have hblank := (Text.trimEnd_eq_nil_iff _).mp hnil 'H' List.mem_cons_self
    exact absurd hblank (by decide)
  · rename_i c rest hcons
    rw [hcons] at hprefix
    have hhead : (c :: rest).head? = some 'H' := by
      obtain ⟨back, hback⟩ := hprefix
      simp only [List.cons_append, List.cons.injEq] at hback
      rw [hback.1]
      rfl
    split at h
    · rename_i record hrecord
      have hfull := Record.length_of_ofChars_header hhead hrecord
      have hshort := hprefix.length_le
      simp only [List.length_cons] at hfull hshort
      omega
    · exact errors_report_ne_nil _ _ _ h

end Loader

/-- A file whose first record is a header can be loaded only if the segment name has no line feed
in it, for the header is cut off there. -/
theorem newline_not_mem_segmentName {name : String} {origin : Option Word} {length : Word}
    {records : List Record} {module : ObjectModule}
    (h : load (Record.fileText (.header name origin length :: records)) = .ok module) :
    '\n' ∉ Record.segmentName name.toList := by
  intro hmem
  obtain ⟨front, back, hsplit, hfront⟩ := List.eq_append_cons_of_mem hmem
  have hlength := Record.length_segmentName name.toList
  rw [hsplit, List.length_append, List.length_cons, Record.nameLength] at hlength
  obtain ⟨rest, htext⟩ : ∃ rest, (Record.fileText (.header name origin length :: records)).toList =
      ('H' :: front) ++ '\n' :: rest := by
    rw [Record.toList_fileText, List.flatMap_cons, Record.toChars, hsplit]
    simp only [List.cons_append, List.append_assoc]
    exact ⟨_, rfl⟩
  have hfirst : '\n' ∉ 'H' :: front := by simpa using hfront
  have hlines : Text.lines (Record.fileText (.header name origin length :: records)) =
      String.ofList ('H' :: Text.dropReturn front) ::
        (Text.splitLines rest).map String.ofList := by
    have hreturn : Text.dropReturn ('H' :: front) = 'H' :: Text.dropReturn front := by
      cases front <;> rfl
    rw [Text.lines, htext, Text.splitLines_append_newline rest hfirst, hreturn, List.map_cons]
  have hclean := (Loader.finish_eq_ok h).1
  rw [hlines] at hclean
  rw [Loader.addLines, String.toList_ofList, Loader.addLines_eq_foldl_read] at hclean
  have hline := Loader.errors_eq_nil_of_foldl_read hclean
  refine Loader.errors_addLine_ne_nil ?_ hline
  have hdrop := Text.length_dropReturn_le front
  omega

namespace Layout

/-- The names of a program's symbols fit a line. -/
theorem Yields.fitsLine_of_get? {layout : Layout} {program : Program} (h : layout.Yields program)
    (hsound : layout.Sound) {name : String} {symbol : Symbol}
    (hsome : program.symbols.get? name = some symbol) : FitsLine name.toList := by
  obtain ⟨known, hknown, -⟩ := h.exists_known hsome
  exact (hsound.symbols name known hknown).1

/-- An exported symbol of a program is one that its layout defines and does not import. -/
theorem Yields.exists_of_exported {layout : Layout} {program : Program} (h : layout.Yields program)
    (hsound : layout.Sound) {name : String} {symbol : Symbol}
    (hsome : program.symbols.get? name = some symbol) (hexported : symbol.exported = true) :
    symbol.imported = false ∧
      ∃ known, layout.symbols.get? name = some known ∧ known.imported = false := by
  rw [h.get?_symbols] at hsome
  obtain ⟨known, hknown, rfl⟩ := Option.map_eq_some_iff.mp hsome
  by_cases hname : name ∈ layout.exports.map Prod.snd
  · have hlocal := h.imported_eq_false hname hknown
    rw [marked_eq]
    exact ⟨hlocal, known, hknown, hlocal⟩
  · rw [marked, if_neg hname, (hsound.symbols name known hknown).2] at hexported
    cases hexported

/-- A program's imports are named in a line that they fit, and are imported symbols. -/
theorem Yields.exists_of_mem_imports {layout : Layout} {program : Program}
    (h : layout.Yields program) (hsound : layout.Sound) {site : ImportSite}
    (hsite : site ∈ program.imports) :
    ∃ symbol, program.symbols.get? site.name = some symbol ∧ symbol.imported = true := by
  rw [Program.imports, h.statements] at hsite
  obtain ⟨encoded, hencoded, hsite⟩ := List.mem_flatMap.mp hsite
  obtain ⟨statement, hstatement, rfl⟩ := List.mem_map.mp hencoded
  obtain ⟨_, _, operand, symbol, -, rfl, hsome, himported⟩ :=
    statement.exists_of_mem_imports (hsound.formed statement hstatement)
      (h.encodes statement hstatement) hsite
  exact ⟨symbol, hsome, himported⟩

end Layout

namespace Program

/-- The records of a program behind its header. -/
def body (program : Program) : List Record :=
  program.words.map .text ++ program.symbols.exports.map exportRecord ++
    program.imports.map .imported ++ [.finish program.start]

/-- The records are the header and those behind it. -/
theorem records_eq (program : Program) : program.records = program.header :: program.body := by
  simp [records, body]

/-- The words of a program are those of its statements and the entries of its literal pool. -/
theorem mem_words_iff {program : Program} {word : TaggedWord} :
    word ∈ program.words ↔ (∃ encoded ∈ program.statements, word ∈ encoded.words) ∨
      ∃ entry ∈ program.literals.toList, word = ⟨entry.1, entry.2, none⟩ := by
  rw [words, literalWords, List.mem_append, List.mem_flatMap, List.mem_map]
  simp only [eq_comm]

/-- Whether loading a program's object text gives the program back. -/
structure LoadsAs (program : Program) (module : ObjectModule) : Prop where
  /-- The segment name is that of the program. -/
  segmentName : module.segmentName = program.segmentName
  /-- The module moves if the program does. -/
  relocatable : module.relocatable = program.relocatable
  /-- The origin is that of the program. -/
  origin : module.origin = program.origin
  /-- The length is that of the program. -/
  length : module.length.toNat = program.length
  /-- The start is that of the program. -/
  start : module.start = program.start
  /-- The program's words lie at different addresses. -/
  addresses : (program.words.map TaggedWord.address).Nodup
  /-- The memory consists of the program's words. -/
  memory : ∀ address value, module.memory.get? address = some value ↔
    ∃ word ∈ program.words, word.address = address ∧ word.value = value
  /-- The tags are those of the program's words. -/
  tags : ∀ address tag, module.tag? address = some tag ↔
    ∃ word ∈ program.words, word.address = address ∧ word.relocation = some tag
  /-- The exports are the program's exported symbols, their values cut to words. -/
  exports : ∀ name symbol, module.exports.get? name = some symbol ↔
    ∃ own, program.symbols.get? name = some own ∧ own.exported = true ∧
      symbol = ⟨own.value % addressLimit, own.relocatable, false, true⟩
  /-- The imports are those of the program, in their order. -/
  imports : module.imports = program.imports

end Program

/-- The records of an accepted program behind its header fit their lines and read back. -/
theorem Layout.Yields.body_spec {layout : Layout} {program : Program} (h : layout.Yields program)
    (hsound : layout.Sound) :
    ∀ record ∈ program.body, FitsLine record.toChars ∧ Loader.ReadsBack record := by
  intro record hrecord
  have hreads : record.NameFits → (∀ parsed, Record.ofChars record.toChars = .ok parsed →
      parsed = record) → (∀ name origin length, record ≠ .header name origin length) →
      FitsLine record.toChars ∧ Loader.ReadsBack record := by
    intro hname hparse hheader
    have hfits := Record.fitsLine_toChars hname hheader
    exact ⟨hfits, Record.trim_toChars hfits, hparse⟩
  simp only [Program.body, List.mem_append, List.mem_map, List.mem_singleton] at hrecord
  rcases hrecord with ((⟨word, -, rfl⟩ | ⟨entry, hentry, rfl⟩) | ⟨site, hsite, rfl⟩) | rfl
  · refine hreads trivial (fun parsed hparsed => ?_) (by simp)
    rw [Record.ofChars_text] at hparsed
    exact (Except.ok.inj hparsed).symm
  · have hsome := (SymbolTable.mem_exports_iff.mp hentry).1
    exact hreads (h.fitsLine_of_get? hsound hsome)
      (fun _ hparsed => (Record.ofChars_exported_iff.mp hparsed).2)
      (by simp [Program.exportRecord])
  · obtain ⟨symbol, hsome, -⟩ := h.exists_of_mem_imports hsound hsite
    exact hreads (h.fitsLine_of_get? hsound hsome)
      (fun _ hparsed => (Record.ofChars_imported_iff.mp hparsed).2) (by simp)
  · refine hreads trivial (fun parsed hparsed => ?_) (by simp)
    rw [Record.ofChars_finish] at hparsed
    exact (Except.ok.inj hparsed).symm

namespace Program

/-- The header is the only record of its kind. -/
theorem header_mem_records_iff {program : Program} {name : String} {origin : Option Word}
    {length : Word} :
    .header name origin length ∈ program.records ↔ .header name origin length = program.header := by
  simp [records_eq, body, exportRecord]

/-- The end record is the only one of its kind. -/
theorem finish_mem_records_iff {program : Program} {start : Word} :
    .finish start ∈ program.records ↔ start = program.start := by
  simp [records_eq, body, exportRecord, header]

/-- The text records are the words. -/
theorem text_mem_records_iff {program : Program} {word : TaggedWord} :
    .text word ∈ program.records ↔ word ∈ program.words := by
  simp [records_eq, body, exportRecord, header]

/-- The export records are the exported symbols, their values cut to words. -/
theorem exported_mem_records_iff {program : Program} {name : String} {value : Word}
    {relocatable : Bool} :
    .exported name value relocatable ∈ program.records ↔
      ∃ own, program.symbols.get? name = some own ∧ own.exported = true ∧ own.word = value ∧
        own.relocatable = relocatable := by
  have hmem : .exported name value relocatable ∈ program.records ↔
      .exported name value relocatable ∈ program.symbols.exports.map exportRecord := by
    simp [records_eq, body, header]
  rw [hmem, List.mem_map]
  constructor
  · rintro ⟨⟨own, symbol⟩, hentry, heq⟩
    obtain ⟨rfl, rfl, rfl⟩ := Record.exported.inj heq
    obtain ⟨hsome, hexported⟩ := SymbolTable.mem_exports_iff.mp hentry
    exact ⟨symbol, hsome, hexported, rfl, rfl⟩
  · rintro ⟨own, hsome, hexported, rfl, rfl⟩
    exact ⟨(name, own), SymbolTable.mem_exports_iff.mpr ⟨hsome, hexported⟩, rfl⟩

/-- The words of the records are the words of the program, in their order. -/
theorem words_of_records (program : Program) :
    program.records.filterMap Record.word? = program.words := by
  have hwords : (program.words.map Record.text).filterMap Record.word? = program.words := by
    simp [List.filterMap_map, Function.comp_def, Record.word?]
  have hexports : (program.symbols.exports.map exportRecord).filterMap Record.word? = [] := by
    simp [List.filterMap_map, exportRecord, Record.word?]
  have himports : (program.imports.map Record.imported).filterMap Record.word? = [] := by
    simp [List.filterMap_map, Record.word?]
  simp [records_eq, body, header, List.filterMap_append, List.filterMap_cons, hwords, hexports,
    himports, Record.word?]

/-- The sites of the records are the imports of the program, in their order. -/
theorem sites_of_records (program : Program) :
    program.records.filterMap Record.site? = program.imports := by
  have hwords : (program.words.map Record.text).filterMap Record.site? = [] := by
    simp [List.filterMap_map, Record.site?]
  have hexports : (program.symbols.exports.map exportRecord).filterMap Record.site? = [] := by
    simp [List.filterMap_map, exportRecord, Record.site?]
  have himports : (program.imports.map Record.imported).filterMap Record.site? =
      program.imports := by
    simp [List.filterMap_map, Function.comp_def, Record.site?]
  simp [records_eq, body, header, List.filterMap_append, List.filterMap_cons, hwords, hexports,
    himports, Record.site?]

end Program

/-- The symbol that a loader makes of an export. -/
theorem exportedSymbol_word (symbol : Symbol) :
    Loader.exportedSymbol symbol.word symbol.relocatable =
      ⟨symbol.value % addressLimit, symbol.relocatable, false, true⟩ := by
  have hvalue : ((BitVec.ofInt 16 symbol.value).toNat : Int) = symbol.value % addressLimit := by
    rw [BitVec.toNat_ofInt]
    exact Int.toNat_of_nonneg (Int.emod_nonneg _ (by decide))
  simp only [Loader.exportedSymbol, Symbol.ofValue, Symbol.word, hvalue]

/-- The records of an accepted program fit their lines and read back, if its segment name has no
line feed in it. -/
theorem Layout.Yields.records_spec {layout : Layout} {program : Program}
    (h : layout.Yields program) (hsound : layout.Sound)
    (hname : '\n' ∉ Record.segmentName program.segmentName.toList) :
    ∀ record ∈ program.records, FitsLine record.toChars ∧ Loader.ReadsBack record := by
  have hlength : program.segmentName.toList.length = Record.nameLength := by
    rw [h.segmentName]
    exact hsound.segmentName
  have hfits : FitsLine program.header.toChars := Record.fitsLine_header hname
  rw [Program.records_eq]
  refine List.forall_mem_cons.mpr ⟨⟨hfits, Record.trim_toChars hfits, ?_⟩, h.body_spec hsound⟩
  exact fun parsed hparsed => ((Record.ofChars_header_iff hlength).mp hparsed).2

/-- The object text of an accepted program is loaded record by record, if its segment name has no
line feed in it. -/
theorem load_objectText_eq {hint source : String} {program : Program}
    (hprogram : assemble hint source = .ok program)
    (hname : '\n' ∉ Record.segmentName program.segmentName.toList) :
    load program.objectText =
      (Loader.initial.addLines 1 (program.records.map Record.render)).finish := by
  have hyields := yields_of_assemble hprogram
  have hrecords := hyields.records_spec (Layout.sound_ofSource hyields.errors) hname
  rw [load, Program.objectText,
    Record.lines_fileText fun record hrecord => (hrecords record hrecord).1]

/-- A loaded object text of an accepted program loads as the program. -/
theorem loadsAs_of_load {hint source : String} {program : Program} {module : ObjectModule}
    (hprogram : assemble hint source = .ok program) (h : load program.objectText = .ok module) :
    program.LoadsAs module := by
  have hyields := yields_of_assemble hprogram
  have hsound := Layout.sound_ofSource hyields.errors
  have hname : '\n' ∉ Record.segmentName program.segmentName.toList := by
    rw [Program.objectText, Program.records_eq] at h
    exact newline_not_mem_segmentName h
  have hrecords := hyields.records_spec hsound hname
  obtain ⟨loader, hholds, hfinish⟩ := exists_holds_of_load
    (fun record hrecord => (hrecords record hrecord).1)
    (fun record hrecord => (hrecords record hrecord).2) h
  obtain ⟨-, header, start, hsome, hstart, rfl⟩ := Loader.finish_eq_ok hfinish
  have hown := (hholds.header _ _ _).mp (Program.header_mem_records_iff.mpr rfl)
  obtain rfl := Option.some.inj (hsome.symm.trans hown)
  have hend := Program.finish_mem_records_iff.mp ((hholds.start start).mpr hstart)
  obtain ⟨-, -, hwords, -⟩ := Layout.bounds_of_problems hyields.problems
  exact
    { segmentName := rfl
      relocatable := by cases program.relocatable <;> rfl
      origin := by
        have hzero := hsound.origin_eq
        rw [← hyields.relocatable, ← hyields.origin] at hzero
        cases hmoves : program.relocatable with
        | true => exact (hzero hmoves).symm
        | false => rfl
      length := by
        rw [← hyields.length] at hwords
        have hsmall : program.length < 2 ^ 16 := Nat.lt_of_le_of_lt hwords (by decide)
        exact Nat.mod_eq_of_lt hsmall
      start := hend
      addresses := by
        rw [← Program.words_of_records]
        exact hholds.addresses
      memory := fun address value => by
        simp only [hholds.memory, Program.text_mem_records_iff]
      tags := fun address tag => by
        simp only [ObjectModule.tag?, hholds.relocations, Program.text_mem_records_iff]
      exports := fun name symbol => by
        simp only [hholds.exports, Program.exported_mem_records_iff]
        constructor
        · rintro ⟨_, _, ⟨own, hsome, hexported, rfl, rfl⟩, rfl⟩
          exact ⟨own, hsome, hexported, exportedSymbol_word own⟩
        · rintro ⟨own, hsome, hexported, rfl⟩
          exact ⟨_, _, ⟨own, hsome, hexported, rfl, rfl⟩, (exportedSymbol_word own).symm⟩
      imports := by
        rw [← Program.sites_of_records]
        exact hholds.imports }

namespace Program.LoadsAs

variable {program : Program} {module : ObjectModule}

/-- The memory has a word of the program at its address. -/
theorem get?_of_mem (hloads : program.LoadsAs module) {word : TaggedWord}
    (hword : word ∈ program.words) : module.memory.get? word.address = some word.value :=
  (hloads.memory _ _).mpr ⟨word, hword, rfl, rfl⟩

/-- The tag at the address of a word is that of the word, if it has one. -/
theorem tag?_of_mem (hloads : program.LoadsAs module) {word : TaggedWord}
    (hword : word ∈ program.words) : module.tag? word.address = word.relocation := by
  apply Option.ext
  intro tag
  rw [hloads.tags]
  constructor
  · rintro ⟨other, hother, haddress, htag⟩
    obtain rfl := List.inj_on_of_nodup_map hloads.addresses hother hword haddress
    exact htag
  · intro htag
    exact ⟨word, hword, rfl, htag⟩

/-- A module that can be moved begins at zero. -/
theorem origin_eq_zero (hloads : program.LoadsAs module) {layout : Layout}
    (hyields : layout.Yields program) (hsound : layout.Sound)
    (hmoves : module.relocatable = true) : module.origin = 0 := by
  rw [hloads.relocatable, hyields.relocatable] at hmoves
  rw [hloads.origin, hyields.origin]
  exact hsound.origin_eq hmoves

/-- A module does not export what it imports. -/
theorem get?_exports_of_mem_imports (hloads : program.LoadsAs module) {layout : Layout}
    (hyields : layout.Yields program) (hsound : layout.Sound) {site : ImportSite}
    (hsite : site ∈ module.imports) : module.exports.get? site.name = none := by
  rw [hloads.imports] at hsite
  obtain ⟨symbol, hsome, himported⟩ := hyields.exists_of_mem_imports hsound hsite
  rw [Option.eq_none_iff_forall_ne_some]
  intro exported hexport
  obtain ⟨own, hown, hmarked, -⟩ := (hloads.exports _ _).mp hexport
  obtain rfl := Option.some.inj (hsome.symm.trans hown)
  have hlocal := (hyields.exists_of_exported hsound hsome hmarked).1
  exact Bool.false_ne_true (hlocal.symm.trans himported)

end Program.LoadsAs

/-- A program given by its lines, and the module loaded from its object text, if there are both.
Lines and records are not put together into texts and taken apart again. -/
def build? (hint : String) (lines : List String) : Option (Program × ObjectModule) :=
  if ∀ text ∈ lines, '\n' ∉ text.toList ∧ Text.dropReturn text.toList = text.toList then
    match ((Layout.initial hint).addLines 1 lines).toProgram with
    | .error _ => none
    | .ok program =>
        if '\n' ∈ Record.segmentName program.segmentName.toList then none
        else
          match (Loader.initial.addLines 1 (program.records.map Record.render)).finish with
          | .error _ => none
          | .ok module => some (program, module)
  else none

/-- What is built from lines is assembled and loaded from texts. -/
theorem build?_eq_some {hint : String} {lines : List String} {program : Program}
    {module : ObjectModule} (h : build? hint lines = some (program, module)) :
    Text.lines (Text.unlines lines) = lines ∧ assemble hint (Text.unlines lines) = .ok program ∧
      load program.objectText = .ok module := by
  unfold build? at h
  split at h
  · rename_i hlines
    split at h
    · cases h
    · rename_i assembled hassembled
      split at h
      · cases h
      · rename_i hname
        split at h
        · cases h
        · rename_i loaded hloaded
          obtain ⟨rfl, rfl⟩ := Prod.mk.inj (Option.some.inj h)
          have hprogram := (assemble_unlines hint hlines).trans hassembled
          exact ⟨Text.lines_unlines hlines, hprogram,
            (load_objectText_eq hprogram hname).trans hloaded⟩
  · cases h

/-- The program and the module of lines, where there are both. -/
structure Build (hint : String) (lines : List String) where
  /-- The program of the lines. -/
  program : Program
  /-- The module loaded from its object text. -/
  module : ObjectModule
  /-- The lines are those of their text. -/
  lines_eq : Text.lines (Text.unlines lines) = lines
  /-- Their text is assembled to the program. -/
  assembled : assemble hint (Text.unlines lines) = .ok program
  /-- The program's object text is loaded as the module. -/
  loaded : load program.objectText = .ok module

/-- What is built from lines, where that succeeds. -/
def Build.ofLines {hint : String} {lines : List String} (h : (build? hint lines).isSome = true) :
    Build hint lines where
  program := ((build? hint lines).get h).1
  module := ((build? hint lines).get h).2
  lines_eq := (build?_eq_some (Option.some_get h).symm).1
  assembled := (build?_eq_some (Option.some_get h).symm).2.1
  loaded := (build?_eq_some (Option.some_get h).symm).2.2

/-- The modules of two builds are loaded. -/
theorem Build.loaded_of_mem_pair {hint otherHint : String} {lines otherLines : List String}
    (build : Build hint lines) (other : Build otherHint otherLines) {module : ObjectModule}
    (h : module ∈ [build.module, other.module]) : ∃ text, load text = .ok module := by
  rcases List.mem_pair.mp h with rfl | rfl
  · exact ⟨_, build.loaded⟩
  · exact ⟨_, other.loaded⟩

/-- The memory has the words of the statements and the entries of the literal pool, and no
others. -/
theorem Program.LoadsAs.get?_memory_iff {program : Program} {module : ObjectModule}
    (hloads : program.LoadsAs module) (address value : Word) :
    module.memory.get? address = some value ↔
      (∃ encoded ∈ program.statements, ∃ word ∈ encoded.words,
        word.address = address ∧ word.value = value) ∨
      (address, value) ∈ program.literals.toList := by
  rw [hloads.memory]
  constructor
  · rintro ⟨word, hword, rfl, rfl⟩
    rcases Program.mem_words_iff.mp hword with ⟨encoded, hencoded, hword⟩ | ⟨entry, hentry, rfl⟩
    · exact .inl ⟨encoded, hencoded, word, hword, rfl, rfl⟩
    · exact .inr hentry
  · rintro (⟨encoded, hencoded, word, hword, hplace⟩ | hentry)
    · exact ⟨word, Program.mem_words_iff.mpr (.inl ⟨encoded, hencoded, hword⟩), hplace⟩
    · exact ⟨_, Program.mem_words_iff.mpr (.inr ⟨_, hentry, rfl⟩), rfl, rfl⟩

/-- The tags are those of the words of the statements. Literals have none. -/
theorem Program.LoadsAs.tag?_eq_some_iff {program : Program} {module : ObjectModule}
    (hloads : program.LoadsAs module) (address : Word) (tag : Relocation) :
    module.tag? address = some tag ↔
      ∃ encoded ∈ program.statements, ∃ word ∈ encoded.words,
        word.address = address ∧ word.relocation = some tag := by
  rw [hloads.tags]
  constructor
  · rintro ⟨word, hword, hplace, htag⟩
    rcases Program.mem_words_iff.mp hword with ⟨encoded, hencoded, hword⟩ | ⟨entry, hentry, rfl⟩
    · exact ⟨encoded, hencoded, word, hword, hplace, htag⟩
    · cases htag
  · rintro ⟨encoded, hencoded, word, hword, htagged⟩
    exact ⟨word, Program.mem_words_iff.mpr (.inl ⟨encoded, hencoded, hword⟩), htagged⟩

/-- Loading undoes rendering: a module loaded from the object text of an accepted program has the
program's name, origin, length and start. It consists of the words of the program's statements with
their tags and of the entries of its literal pool, each at an address of its own, and of no others.
It exports the program's exported symbols with their values cut to words, and has the imports of the
statements in their order. -/
theorem load_objectText {hint source : String} {program : Program} {module : ObjectModule}
    (hprogram : assemble hint source = .ok program) (hload : load program.objectText = .ok module) :
    module.segmentName = program.segmentName ∧ module.relocatable = program.relocatable ∧
      module.origin = program.origin ∧ module.length.toNat = program.length ∧
      module.start = program.start ∧
      ((program.statements.flatMap fun encoded => encoded.words.map TaggedWord.address) ++
        program.literals.toList.map Prod.fst).Nodup ∧
      (∀ word, word ∈ program.words ↔ (∃ encoded ∈ program.statements, word ∈ encoded.words) ∨
        ∃ entry ∈ program.literals.toList, word = ⟨entry.1, entry.2, none⟩) ∧
      (∀ address value, module.memory.get? address = some value ↔
        (∃ encoded ∈ program.statements, ∃ word ∈ encoded.words,
          word.address = address ∧ word.value = value) ∨
        (address, value) ∈ program.literals.toList) ∧
      (∀ address tag, module.tag? address = some tag ↔
        ∃ encoded ∈ program.statements, ∃ word ∈ encoded.words,
          word.address = address ∧ word.relocation = some tag) ∧
      (∀ name symbol, module.exports.get? name = some symbol ↔
        ∃ own, program.symbols.get? name = some own ∧ own.exported = true ∧
          symbol = ⟨own.value % addressLimit, own.relocatable, false, true⟩) ∧
      module.imports = program.statements.flatMap EncodedStatement.imports := by
  have hloads := loadsAs_of_load hprogram hload
  have haddresses := hloads.addresses
  rw [Program.words, Program.literalWords, List.map_append, List.map_flatMap,
    List.map_map] at haddresses
  exact ⟨hloads.segmentName, hloads.relocatable, hloads.origin, hloads.length, hloads.start,
    haddresses, fun _ => Program.mem_words_iff, hloads.get?_memory_iff, hloads.tag?_eq_some_iff,
    hloads.exports, hloads.imports⟩

/-- The lines of a relocatable program with a literal, an alias, an export and an import. -/
def roundTripLines : List String :=
  ["Demo     .ORIG", "         .EXT    Print", "         .ENT    Go,Less",
    "Go       LD      R0,=x-2", "         JSR     Print", "Less     .EQU    #-1",
    "Again    .EQU    Go", "         .FILL   Again", "         .END    Again"]

/-- The program with a literal, an alias, an export and an import, and its module. -/
def roundTrip : Build "main" roundTripLines :=
  .ofLines (by decide +kernel)

/-- The module of `roundTrip` has the instruction that takes the literal, tagged to move, and the
literal behind the statements. It has no word behind the literal, exports the constant as a word,
and imports what the call goes to. -/
theorem load_objectText_roundTripLines :
    ∃ program module, assemble "main" (Text.unlines roundTripLines) = .ok program ∧
      load program.objectText = .ok module ∧ module.length = 4 ∧
      module.memory.get? 0 = some 0x2003 ∧ module.tag? 0 = some .pageOffset ∧
      module.memory.get? 3 = some 0xFFFE ∧ module.tag? 3 = none ∧
      module.memory.get? 4 = none ∧
      module.exports.get? "Less" = some ⟨0xFFFF, false, false, true⟩ ∧
      module.imports = [⟨1, .pageOffset, "Print"⟩] := by
  obtain ⟨-, -, -, hlength, -, -, -, hmemory, htags, hexports, himports⟩ :=
    load_objectText roundTrip.assembled roundTrip.loaded
  obtain ⟨encoded, hencoded, hword⟩ : ∃ encoded ∈ roundTrip.program.statements,
      ⟨0, 0x2003, some .pageOffset⟩ ∈ encoded.words := by
    decide +kernel
  have hbelow : ∀ encoded ∈ roundTrip.program.statements, ∀ word ∈ encoded.words,
      word.address < 3 := by
    decide +kernel
  have hpool : roundTrip.program.literals.toList = [(3, 0xFFFE)] := by decide +kernel
  refine ⟨_, _, roundTrip.assembled, roundTrip.loaded,
    BitVec.eq_of_toNat_eq (hlength.trans (by decide +kernel)),
    (hmemory _ _).mpr (.inl ⟨encoded, hencoded, _, hword, rfl, rfl⟩),
    (htags _ _).mpr ⟨encoded, hencoded, _, hword, rfl, rfl⟩,
    (hmemory _ _).mpr (.inr (hpool ▸ List.mem_singleton_self _)), ?_, ?_,
    (hexports _ _).mpr ⟨⟨-1, false, false, true⟩, by decide +kernel⟩,
    himports.trans (by decide +kernel)⟩
  · refine Option.eq_none_iff_forall_ne_some.mpr fun tag htag => ?_
    obtain ⟨other, hother, word, hmem, hplace, -⟩ := (htags _ _).mp htag
    exact absurd hplace (BitVec.ne_of_lt (hbelow other hother word hmem))
  · refine Option.eq_none_iff_forall_ne_some.mpr fun value hvalue => ?_
    rcases (hmemory _ _).mp hvalue with ⟨other, hother, word, hmem, hplace, -⟩ | hentry
    · have hlast : (4 : Word) < 3 := hplace ▸ hbelow other hother word hmem
      exact absurd hlast (by decide)
    · rw [hpool, List.mem_singleton] at hentry
      cases hentry

end PageMachine
