import PageMachine.ObjectModule.Load
import PageMachine.Proofs.RecordText

/-!
# What a loader has read

`Accepts` says, once for all, what taking a record does when it is no error: the guards that held
and the loader afterwards; `Takes` is a run of such records. `Holds` relates a loader to the records
taken so far. Every accepted record preserves it, so that a file without errors leaves a loader that
holds exactly the file's records. What a rejected record does is not described here beyond the error
that it leaves.

Of a text only the lines count that are not blank, trimmed: `contentLines` are these with their
numbers, and `ReadAs` says which records they are read as.
-/

namespace PageMachine

namespace Loader

/-- Taking a record that is no error. -/
inductive Accepts (loader : Loader) : Record → Loader → Prop
  | header (name : String) (origin : Option Word) (length : Word)
      (hstart : loader.start = none) (hnone : loader.header = none)
      (hfit : (Header.mk name origin length).first.toNat + length.toNat ≤ addressLimit) :
      Accepts loader (.header name origin length)
        { loader with header := some ⟨name, origin, length⟩ }
  | text (word : TaggedWord) (header : Header)
      (hstart : loader.start = none) (hsome : loader.header = some header)
      (hinside : header.Contains word.address)
      (hnew : loader.memory.get? word.address = none) :
      Accepts loader (.text word)
        { loader with
          memory := loader.memory.write word.address word.value
          relocations :=
            match word.relocation with
            | some tag => loader.relocations.insert word.address tag
            | none => loader.relocations }
  | exported (name : String) (value : Word) (relocatable : Bool) (header : Header)
      (exports : SymbolTable) (hstart : loader.start = none) (hsome : loader.header = some header)
      (hdefine : loader.exports.define name (exportedSymbol value relocatable) = .ok exports) :
      Accepts loader (.exported name value relocatable) { loader with exports := exports }
  | imported (site : ImportSite) (header : Header)
      (hstart : loader.start = none) (hsome : loader.header = some header)
      (hinside : header.Contains site.address) :
      Accepts loader (.imported site) { loader with imports := loader.imports ++ [site] }
  | finish (start : Word) (header : Header)
      (hnone : loader.start = none) (hsome : loader.header = some header)
      (hinside : header.AllowsStart start) :
      Accepts loader (.finish start) { loader with start := some start }

/-- Noting an error leaves an error. -/
theorem errors_report_ne_nil (loader : Loader) (line : Nat) (fault : LoadFault) :
    (loader.report line fault).errors ≠ [] := by
  simp [report]

/-- A record that leaves no error was accepted. -/
theorem accepts_of_add {loader : Loader} {line : Nat} {record : Record}
    (h : (loader.add line record).errors = []) :
    loader.Accepts record (loader.add line record) := by
  unfold add at h ⊢
  split at h
  · exact absurd h (errors_report_ne_nil _ _ _)
  · rename_i hstart
    simp only [Option.isSome_iff_ne_none, ne_eq, Decidable.not_not] at hstart
    simp only [hstart, Option.isSome_none, Bool.false_eq_true, ↓reduceIte]
    split at h
    · rename_i name origin length hnone
      by_cases hfit : addressLimit < (Header.mk name origin length).first.toNat + length.toNat
      · simp [addHeader, hfit, report] at h
      · simp only [addHeader, hfit, ↓reduceIte]
        exact .header name origin length hstart hnone (Nat.le_of_not_lt hfit)
    · exact absurd h (errors_report_ne_nil _ _ _)
    · exact absurd h (errors_report_ne_nil _ _ _)
    · rename_i word header hsome
      by_cases hinside : header.Contains word.address
      · by_cases hold : loader.memory.contains word.address
        · simp [addText, hinside, hold, report] at h
        · simp only [addText, hinside, hold, not_true_eq_false, ↓reduceIte, Bool.false_eq_true]
          refine .text word header hstart hsome hinside ?_
          simpa [Memory.contains, Memory.get?] using hold
      · simp [addText, hinside, report] at h
    · rename_i name value relocatable header hsome
      cases hdefine : loader.exports.define name (exportedSymbol value relocatable) with
      | error error => simp [addExport, hdefine, report] at h
      | ok exports =>
        simp only [addExport, hdefine]
        exact .exported name value relocatable header exports hstart hsome hdefine
    · rename_i site header hsome
      by_cases hinside : header.Contains site.address
      · simp only [addImport, hinside, ↓reduceIte]
        exact .imported site header hstart hsome hinside
      · simp [addImport, hinside, report] at h
    · rename_i start header hsome
      by_cases hinside : header.AllowsStart start
      · simp only [addFinish, hinside, ↓reduceIte]
        exact .finish start header hstart hsome hinside
      · simp [addFinish, hinside, report] at h

/-- An accepted record finds no errors and leaves none. -/
theorem Accepts.errors_eq {loader next : Loader} {record : Record}
    (h : loader.Accepts record next) : next.errors = loader.errors := by
  cases h <;> rfl

end Loader

namespace Record

/-- The word of a text record. -/
def word? : Record → Option TaggedWord
  | .text word => some word
  | _ => none

/-- The site of an import record. -/
def site? : Record → Option ImportSite
  | .imported site => some site
  | _ => none

end Record

namespace Loader

/-- Whether a loader has taken exactly the given records, each of them without an error. -/
structure Holds (loader : Loader) (records : List Record) : Prop where
  /-- The header is the one header record. -/
  header : ∀ name origin length,
    .header name origin length ∈ records ↔ loader.header = some ⟨name, origin, length⟩
  /-- The start is that of the one end record. -/
  start : ∀ start, .finish start ∈ records ↔ loader.start = some start
  /-- No address is written twice. -/
  addresses : ((records.filterMap Record.word?).map TaggedWord.address).Nodup
  /-- The memory consists of the words. -/
  memory : ∀ address value, loader.memory.get? address = some value ↔
    ∃ word, .text word ∈ records ∧ word.address = address ∧ word.value = value
  /-- The tags are those of the words. -/
  relocations : ∀ address (tag : Relocation), loader.relocations[address]? = some tag ↔
    ∃ word, .text word ∈ records ∧ word.address = address ∧ word.relocation = some tag
  /-- The exports are those of the export records. -/
  exports : ∀ name symbol, loader.exports.get? name = some symbol ↔
    ∃ value relocatable, .exported name value relocatable ∈ records ∧
      symbol = exportedSymbol value relocatable
  /-- The imports are those of the import records, in their order. -/
  imports : loader.imports = records.filterMap Record.site?

/-- Before the first line a loader holds nothing. -/
theorem holds_initial : initial.Holds [] where
  header := by simp [initial]
  start := by simp [initial]
  addresses := by simp
  memory := by simp [initial, Memory.get?, Memory.empty]
  relocations := by simp [initial]
  exports := by simp [initial, SymbolTable.get?, SymbolTable.empty]
  imports := by simp [initial]

/-- An address without a word has no text record. -/
theorem Holds.address_ne {loader : Loader} {records : List Record} (hholds : loader.Holds records)
    {address : Word} (hnew : loader.memory.get? address = none) {word : TaggedWord}
    (hword : .text word ∈ records) : word.address ≠ address := by
  rintro rfl
  have := (hholds.memory word.address word.value).mpr ⟨word, hword, rfl, rfl⟩
  rw [hnew] at this
  cases this

/-- The words of records with one more word behind them are theirs and that word. -/
theorem exists_text_append {records : List Record} {word : TaggedWord} {P : TaggedWord → Prop} :
    (∃ other, .text other ∈ records ++ [.text word] ∧ P other) ↔
      (∃ other, .text other ∈ records ∧ P other) ∨ P word := by
  simp only [List.mem_append, List.mem_singleton, Record.text.injEq, or_and_right, exists_or,
    exists_eq_left]

/-- Writing a new word keeps the addresses different. -/
theorem Holds.addresses_text {loader : Loader} {records : List Record}
    (hholds : loader.Holds records) {word : TaggedWord}
    (hnew : loader.memory.get? word.address = none) :
    (((records ++ [Record.text word]).filterMap Record.word?).map TaggedWord.address).Nodup := by
  rw [List.filterMap_append, List.map_append, List.nodup_append]
  refine ⟨hholds.addresses, by simp [Record.word?], ?_⟩
  intro address hold other hother heq
  obtain rfl : other = word.address := by
    simpa [List.filterMap_cons, Record.word?] using hother
  obtain ⟨kept, hkept, rfl⟩ := List.mem_map.mp hold
  obtain ⟨record, hrecord, hsome⟩ := List.mem_filterMap.mp hkept
  cases record <;> cases hsome
  exact hholds.address_ne hnew hrecord heq

/-- Writing a new word adds it to the memory. -/
theorem Holds.memory_text {loader : Loader} {records : List Record}
    (hholds : loader.Holds records) {word : TaggedWord}
    (hnew : loader.memory.get? word.address = none) (address value : Word) :
    (loader.memory.write word.address word.value).get? address = some value ↔
      ∃ other, .text other ∈ records ++ [.text word] ∧ other.address = address ∧
        other.value = value := by
  rw [exists_text_append, ← hholds.memory, Memory.get?_write]
  by_cases haddress : address = word.address
  · subst haddress
    simp [hnew]
  · simp [haddress, Ne.symm haddress]

/-- Tagging a new word adds its tag, if it has one. -/
theorem Holds.relocations_text {loader : Loader} {records : List Record}
    (hholds : loader.Holds records) {word : TaggedWord}
    (hnew : loader.memory.get? word.address = none) (address : Word) (tag : Relocation) :
    (match word.relocation with
      | some own => loader.relocations.insert word.address own
      | none => loader.relocations)[address]? = some tag ↔
      ∃ other, .text other ∈ records ++ [.text word] ∧ other.address = address ∧
        other.relocation = some tag := by
  rw [exists_text_append, ← hholds.relocations]
  cases hrelocation : word.relocation with
  | none => simp
  | some own =>
    dsimp only
    rw [Std.ExtTreeMap.getElem?_insert]
    by_cases haddress : word.address = address
    · subst haddress
      have hold : loader.relocations[word.address]? ≠ some tag := by
        rw [ne_eq, hholds.relocations]
        rintro ⟨other, hother, heq, -⟩
        exact hholds.address_ne hnew hother heq
      simp [hold]
    · simp [haddress]

/-- Taking a word adds it to the words held. -/
theorem Holds.text {loader : Loader} {records : List Record} (hholds : loader.Holds records)
    {word : TaggedWord} (hnew : loader.memory.get? word.address = none) :
    Holds
      { loader with
        memory := loader.memory.write word.address word.value
        relocations :=
          match word.relocation with
          | some tag => loader.relocations.insert word.address tag
          | none => loader.relocations }
      (records ++ [.text word]) where
  header := by simpa using hholds.header
  start := by simpa using hholds.start
  addresses := hholds.addresses_text hnew
  memory := hholds.memory_text hnew
  relocations := hholds.relocations_text hnew
  exports := by simpa using hholds.exports
  imports := by simpa [List.filterMap_cons, Record.site?] using hholds.imports

/-- Taking the first header makes it the header held. -/
theorem Holds.withHeader {loader : Loader} {records : List Record} (hholds : loader.Holds records)
    (hnone : loader.header = none) (name : String) (origin : Option Word) (length : Word) :
    Holds { loader with header := some ⟨name, origin, length⟩ }
      (records ++ [.header name origin length]) where
  header := by
    have hother : ∀ other place size, .header other place size ∉ records := by
      intro other place size hmem
      rw [(hholds.header other place size).mp hmem] at hnone
      cases hnone
    intro other place size
    simp only [List.mem_append, hother, List.mem_singleton, Record.header.injEq, false_or,
      Option.some.injEq, Header.mk.injEq]
    exact ⟨fun h => ⟨h.1.symm, h.2.1.symm, h.2.2.symm⟩,
      fun h => ⟨h.1.symm, h.2.1.symm, h.2.2.symm⟩⟩
  start := by simpa using hholds.start
  addresses := by simpa [List.filterMap_cons, Record.word?] using hholds.addresses
  memory := by simpa using hholds.memory
  relocations := by simpa using hholds.relocations
  exports := by simpa using hholds.exports
  imports := by simpa [List.filterMap_cons, Record.site?] using hholds.imports

/-- Taking a new name adds it to the exports held. -/
theorem Holds.withExport {loader : Loader} {records : List Record} (hholds : loader.Holds records)
    {name : String} {value : Word} {relocatable : Bool} {exports : SymbolTable}
    (hdefine : loader.exports.define name (exportedSymbol value relocatable) = .ok exports) :
    Holds { loader with exports := exports } (records ++ [.exported name value relocatable]) where
  header := by simpa using hholds.header
  start := by simpa using hholds.start
  addresses := by simpa [List.filterMap_cons, Record.word?] using hholds.addresses
  memory := by simpa using hholds.memory
  relocations := by simpa using hholds.relocations
  exports := by
    intro other symbol
    dsimp only
    rw [SymbolTable.get?_define hdefine]
    have hnew := SymbolTable.get?_eq_none_of_define hdefine
    by_cases hname : other = name
    · subst hname
      have hold : ∀ value relocatable, .exported other value relocatable ∉ records := by
        intro value relocatable hmem
        rw [(hholds.exports _ _).mpr ⟨value, relocatable, hmem, rfl⟩] at hnew
        cases hnew
      simp only [↓reduceIte, Option.some.injEq, List.mem_append, hold, List.mem_singleton,
        Record.exported.injEq, true_and, false_or]
      constructor
      · rintro rfl
        exact ⟨value, relocatable, ⟨rfl, rfl⟩, rfl⟩
      · rintro ⟨-, -, ⟨rfl, rfl⟩, rfl⟩
        rfl
    · rw [if_neg hname, hholds.exports]
      simp only [List.mem_append, List.mem_singleton, Record.exported.injEq, hname,
        false_and, or_false]
  imports := by simpa [List.filterMap_cons, Record.site?] using hholds.imports

/-- Taking a field that others fill adds it to the imports held. -/
theorem Holds.withImport {loader : Loader} {records : List Record} (hholds : loader.Holds records)
    (site : ImportSite) :
    Holds { loader with imports := loader.imports ++ [site] } (records ++ [.imported site]) where
  header := by simpa using hholds.header
  start := by simpa using hholds.start
  addresses := by simpa [List.filterMap_cons, Record.word?] using hholds.addresses
  memory := by simpa using hholds.memory
  relocations := by simpa using hholds.relocations
  exports := by simpa using hholds.exports
  imports := by simp [Record.site?, hholds.imports]

/-- Taking the first end makes its start the start held. -/
theorem Holds.withStart {loader : Loader} {records : List Record} (hholds : loader.Holds records)
    (hnone : loader.start = none) (start : Word) :
    Holds { loader with start := some start } (records ++ [.finish start]) where
  header := by simpa using hholds.header
  start := by
    have hother : ∀ other, .finish other ∉ records := by
      intro other hmem
      rw [(hholds.start other).mp hmem] at hnone
      cases hnone
    simp [hother, eq_comm]
  addresses := by simpa [List.filterMap_cons, Record.word?] using hholds.addresses
  memory := by simpa using hholds.memory
  relocations := by simpa using hholds.relocations
  exports := by simpa using hholds.exports
  imports := by simpa [List.filterMap_cons, Record.site?] using hholds.imports

/-- An accepted record is added to the records held. -/
theorem Holds.accepts {loader next : Loader} {records : List Record} {record : Record}
    (hholds : loader.Holds records) (haccepts : loader.Accepts record next) :
    next.Holds (records ++ [record]) := by
  cases haccepts with
  | header name origin length _ hnone => exact hholds.withHeader hnone name origin length
  | text word header _ _ _ hnew => exact hholds.text hnew
  | exported name value relocatable header exports _ _ hdefine => exact hholds.withExport hdefine
  | imported site => exact hholds.withImport site
  | finish start _ hnone => exact hholds.withStart hnone start

/-- Whether a loader comes to another by taking records one after the other, each of them without an
error. -/
inductive Takes : Loader → List Record → Loader → Prop
  | nil (loader : Loader) : Takes loader [] loader
  | cons {loader next after : Loader} {record : Record} {rest : List Record}
      (hfirst : loader.Accepts record next) (hrest : Takes next rest after) :
      Takes loader (record :: rest) after

/-- Records taken one after the other are added to the records held. -/
theorem Holds.takes {loader after : Loader} {taken records : List Record}
    (hholds : loader.Holds taken) (h : loader.Takes records after) :
    after.Holds (taken ++ records) := by
  induction h generalizing taken with
  | nil => simpa using hholds
  | cons hfirst _ ih => simpa using ih (hholds.accepts hfirst)

end Loader

namespace Text

/-- The lines that are not blank, trimmed, each with its number, the first line having the given
one. -/
def contentFrom (first : Nat) (lines : List String) : List (Nat × List Char) :=
  ((lines.zipIdx first).map fun line => (line.2, trim line.1.toList)).filter (·.2 ≠ [])

/-- The lines of a text that are not blank, trimmed, with their numbers counted from one. -/
def contentLines (text : String) : List (Nat × List Char) :=
  contentFrom 1 (lines text)

/-- A line in front of others is left out if it is blank. -/
theorem contentFrom_cons (first : Nat) (line : String) (rest : List String) :
    contentFrom first (line :: rest) =
      if trim line.toList = [] then contentFrom (first + 1) rest
      else (first, trim line.toList) :: contentFrom (first + 1) rest := by
  rw [contentFrom, List.zipIdx_cons, List.map_cons, List.filter_cons]
  by_cases hblank : trim line.toList = [] <;> simp [hblank, contentFrom]

/-- No line has a line feed in it. -/
theorem newline_not_mem_contentLines {text : String} {line : Nat × List Char}
    (h : line ∈ contentLines text) : '\n' ∉ line.2 := by
  obtain ⟨⟨whole, number⟩, hwhole, rfl⟩ := List.mem_map.mp (List.mem_of_mem_filter h)
  obtain ⟨chars, hchars, rfl⟩ := List.mem_map.mp (List.fst_mem_of_mem_zipIdx hwhole)
  intro hmem
  have hmem := mem_of_mem_trim hmem
  rw [String.toList_ofList] at hmem
  exact newline_not_mem_splitLines hchars hmem

end Text

open Text (contentLines contentFrom)

/-- Whether numbered lines are read as the records, one for one. -/
def ReadAs (lines : List (Nat × List Char)) (records : List Record) : Prop :=
  lines.map (fun line => Record.ofChars line.2) = records.map .ok

namespace Loader

/-- Take a numbered line that is not blank. -/
def read (loader : Loader) (line : Nat × List Char) : Loader :=
  match Record.ofChars line.2 with
  | .ok record => loader.add line.1 record
  | .error error => loader.report line.1 (.record error)

/-- Blank lines are passed over, and blanks around the others. -/
theorem addLines_eq_foldl_read (loader : Loader) (first : Nat) (lines : List String) :
    loader.addLines first lines = (contentFrom first lines).foldl read loader := by
  induction lines generalizing loader first with
  | nil => rfl
  | cons text rest ih =>
    rw [addLines, ih, Text.contentFrom_cons, addLine]
    cases htrim : Text.trim text.toList with
    | nil => simp
    | cons c line =>
      rw [if_neg (List.cons_ne_nil c line)]
      rfl

/-- An error once noted stays, whatever the next line is. -/
theorem errors_eq_nil_of_read {loader : Loader} {line : Nat × List Char}
    (h : (loader.read line).errors = []) : loader.errors = [] := by
  unfold read at h
  split at h
  · rw [← (accepts_of_add h).errors_eq]
    exact h
  · exact absurd h (errors_report_ne_nil _ _ _)

/-- An error once noted stays, whatever lines follow. -/
theorem errors_eq_nil_of_foldl_read {loader : Loader} {lines : List (Nat × List Char)}
    (h : (lines.foldl read loader).errors = []) : loader.errors = [] := by
  induction lines generalizing loader with
  | nil => exact h
  | cons line rest ih => exact errors_eq_nil_of_read (ih h)

/-- Lines that leave no error are read as records, and these are taken. -/
theorem exists_takes_of_read {loader : Loader} {lines : List (Nat × List Char)}
    (h : (lines.foldl read loader).errors = []) :
    ∃ records, ReadAs lines records ∧ loader.Takes records (lines.foldl read loader) := by
  induction lines generalizing loader with
  | nil => exact ⟨[], rfl, .nil loader⟩
  | cons line rest ih =>
    rw [List.foldl_cons] at h ⊢
    obtain ⟨records, hrecords, htakes⟩ := ih h
    have hclean := errors_eq_nil_of_foldl_read h
    cases hline : Record.ofChars line.2 with
    | error error =>
      rw [read, hline] at hclean
      exact absurd hclean (errors_report_ne_nil _ _ _)
    | ok record =>
      have hread : loader.read line = loader.add line.1 record := by rw [read, hline]
      refine ⟨record :: records, ?_, .cons (hread ▸ accepts_of_add (hread ▸ hclean)) htakes⟩
      rw [ReadAs, List.map_cons, List.map_cons, hline, hrecords]

/-- Whether a record's line is left alone by trimming and read back as the record, if at all. -/
def ReadsBack (record : Record) : Prop :=
  Text.trim record.toChars = record.toChars ∧
    ∀ parsed, Record.ofChars record.toChars = .ok parsed → parsed = record

/-- A loader that gives a module has found no error, and the module is what it has read. -/
theorem finish_eq_ok {loader : Loader} {module : ObjectModule}
    (h : loader.finish = .ok module) :
    loader.errors = [] ∧ ∃ header start, loader.header = some header ∧
      loader.start = some start ∧
      module =
        { segmentName := header.segmentName
          origin := header.first
          length := header.length
          relocatable := header.origin.isNone
          start := start
          memory := loader.memory
          relocations := loader.relocations
          exports := loader.exports
          imports := loader.imports } := by
  unfold finish at h
  split at h
  · rename_i header start hheader hstart herrors
    exact ⟨herrors, header, start, hheader, hstart, (Except.ok.inj h).symm⟩
  · cases h

end Loader

namespace Record

/-- The text of an object file, as characters. -/
theorem toList_fileText (records : List Record) :
    (fileText records).toList = records.flatMap fun record => record.toChars ++ ['\n'] := by
  simp [fileText, String.toList_join, List.flatMap_map, render]

/-- Records that fit their lines make up these lines. -/
theorem lines_fileText {records : List Record}
    (hfits : ∀ record ∈ records, FitsLine record.toChars) :
    Text.lines (fileText records) = records.map render := by
  have hunlines : fileText records = Text.unlines (records.map render) := by
    simp [fileText, Text.unlines, Function.comp_def]
  rw [hunlines]
  refine Text.lines_unlines fun text htext => ?_
  obtain ⟨record, hrecord, rfl⟩ := List.mem_map.mp htext
  rw [render, String.toList_ofList]
  exact ⟨(hfits record hrecord).1, dropReturn_of_fitsLine (hfits record hrecord)⟩

end Record

/-- A text is loaded through its lines that are not blank. -/
theorem load_eq_finish (text : String) :
    load text = ((contentLines text).foldl Loader.read Loader.initial).finish := by
  rw [load, Loader.addLines_eq_foldl_read, contentLines]

/-- The lines of fitting records are these records, if trimming leaves them. -/
theorem contentFrom_render {records : List Record}
    (htrim : ∀ record ∈ records, Text.trim record.toChars = record.toChars) (first : Nat) :
    (contentFrom first (records.map Record.render)).map Prod.snd = records.map Record.toChars := by
  induction records generalizing first with
  | nil => rfl
  | cons record rest ih =>
    rw [List.forall_mem_cons] at htrim
    obtain ⟨c, line, hline, -⟩ := Record.exists_toChars_eq_cons record
    have hne : record.toChars ≠ [] := by simp [hline]
    rw [List.map_cons, List.map_cons, Text.contentFrom_cons, Record.render, String.toList_ofList,
      htrim.1, if_neg hne, List.map_cons, ih htrim.2]

/-- A file of fitting records is read as the records that its lines give. -/
theorem readAs_fileText_iff {records others : List Record}
    (hfits : ∀ record ∈ records, Record.FitsLine record.toChars)
    (htrim : ∀ record ∈ records, Text.trim record.toChars = record.toChars) :
    ReadAs (contentLines (Record.fileText records)) others ↔
      records.map (fun record => Record.ofChars record.toChars) = others.map .ok := by
  have hlines := contentFrom_render htrim 1
  rw [← Record.lines_fileText hfits, ← contentLines] at hlines
  have hread := congrArg (List.map Record.ofChars) hlines
  rw [List.map_map, List.map_map] at hread
  change List.map (Record.ofChars ∘ Prod.snd) _ = _ ↔
    List.map (Record.ofChars ∘ Record.toChars) _ = _
  rw [hread]

/-- Records that read back are read as themselves, if at all. -/
theorem eq_of_readsBack {records others : List Record}
    (hreads : ∀ record ∈ records, Loader.ReadsBack record)
    (h : records.map (fun record => Record.ofChars record.toChars) = others.map .ok) :
    others = records := by
  induction records generalizing others with
  | nil => exact List.map_eq_nil_iff.mp h.symm
  | cons record rest ih =>
    rw [List.forall_mem_cons] at hreads
    obtain ⟨other, back, rfl, hother, hback⟩ := List.map_eq_cons_iff.mp h.symm
    rw [hreads.1.2 other hother.symm, ih hreads.2 hback.symm]

/-- A file of fitting records, from which a module can be loaded, has its records taken, and the
module is what the loader has read. -/
theorem exists_takes_of_load {records : List Record} {module : ObjectModule}
    (hfits : ∀ record ∈ records, Record.FitsLine record.toChars)
    (hreads : ∀ record ∈ records, Loader.ReadsBack record)
    (h : load (Record.fileText records) = .ok module) :
    ∃ loader, Loader.initial.Takes records loader ∧ loader.finish = .ok module := by
  rw [load_eq_finish] at h
  obtain ⟨others, hothers, htakes⟩ := Loader.exists_takes_of_read (Loader.finish_eq_ok h).1
  rw [readAs_fileText_iff hfits fun record hrecord => (hreads record hrecord).1] at hothers
  obtain rfl := eq_of_readsBack hreads hothers
  exact ⟨_, htakes, h⟩

/-- Records whose text is loaded as a file leave a loader that holds them. -/
theorem exists_holds_of_load {records : List Record} {module : ObjectModule}
    (hfits : ∀ record ∈ records, Record.FitsLine record.toChars)
    (hreads : ∀ record ∈ records, Loader.ReadsBack record)
    (h : load (Record.fileText records) = .ok module) :
    ∃ loader : Loader, loader.Holds records ∧ loader.finish = .ok module := by
  obtain ⟨loader, htakes, hfinish⟩ := exists_takes_of_load hfits hreads h
  exact ⟨loader, by simpa using Loader.holds_initial.takes htakes, hfinish⟩

end PageMachine
