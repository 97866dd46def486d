import Mathlib
import PageMachine.Proofs.AcceptedFile
import PageMachine.Proofs.Result

/-!
# The errors of a file that is refused

A line is at fault if it is no record, or if its record breaks a rule given the records in front of
it. `Violates` has the rules, in terms of these records alone, rejected ones included: reading goes
on behind an error, and what a rejected record said still counts against the lines that follow.
Exactly the lines at fault have an error, one each and in the order of the file, and what the whole
file lacks comes last.

`Tracks` relates a loader to all records in front of the next line, where `Holds` relates it to the
records taken. The wording of an error is not described here.
-/

namespace PageMachine

namespace Record

/-- The header that a record is. -/
def header? : Record → Option Header
  | .header name origin length => some ⟨name, origin, length⟩
  | _ => none

/-- The header that is in force behind records, which is the first. -/
def announced? (records : List Record) : Option Header :=
  records.findSome? header?

/-- The records from the first header on. -/
def sinceHeader (records : List Record) : List Record :=
  records.dropWhile fun record => record.header?.isNone

/-- Whether there is an end record behind the header. -/
def Ended (records : List Record) : Prop :=
  ∃ start, .finish start ∈ sinceHeader records

/-- A record breaks a rule, given all records in front of it. -/
inductive Violates (before : List Record) : Record → LoadFault → Prop
  /-- Nothing follows the end. -/
  | afterEnd (record : Record) (hended : Ended before) : Violates before record .afterEnd
  /-- There is one header. -/
  | secondHeader (name : String) (origin : Option Word) (length : Word) (header : Header)
      (hopen : ¬Ended before) (hheader : announced? before = some header) :
      Violates before (.header name origin length) .secondHeader
  /-- The segment fits memory. -/
  | segmentTooLong (name : String) (origin : Option Word) (length : Word)
      (hnone : announced? before = none)
      (hlong : addressLimit < (Header.mk name origin length).first.toNat + length.toNat) :
      Violates before (.header name origin length) .segmentTooLong
  /-- Nothing else comes before the header. -/
  | beforeHeader (record : Record) (hnone : announced? before = none)
      (hkind : record.header? = none) : Violates before record .beforeHeader
  /-- Words lie in the segment. -/
  | textOutside (word : TaggedWord) (header : Header) (hopen : ¬Ended before)
      (hheader : announced? before = some header) (houtside : ¬header.Contains word.address) :
      Violates before (.text word) (.textOutside word.address)
  /-- No address is written twice. -/
  | textRepeated (word other : TaggedWord) (header : Header) (hopen : ¬Ended before)
      (hheader : announced? before = some header) (hinside : header.Contains word.address)
      (hother : .text other ∈ sinceHeader before) (hsame : other.address = word.address) :
      Violates before (.text word) (.textRepeated word.address)
  /-- No name is exported twice. -/
  | exportRepeated (name : String) (value other : Word) (relocatable move : Bool)
      (hopen : ¬Ended before) (hother : .exported name other move ∈ sinceHeader before) :
      Violates before (.exported name value relocatable) (.symbol (.redefinition name))
  /-- Fields to be filled lie in the segment. -/
  | importOutside (site : ImportSite) (header : Header) (hopen : ¬Ended before)
      (hheader : announced? before = some header) (houtside : ¬header.Contains site.address) :
      Violates before (.imported site) (.importOutside site.address)
  /-- Execution starts in the segment. -/
  | startOutside (start : Word) (header : Header) (hopen : ¬Ended before)
      (hheader : announced? before = some header) (houtside : ¬header.AllowsStart start) :
      Violates before (.finish start) (.startOutside start)

/-- A header stays in force. -/
theorem announced?_append {records : List Record} {header : Header}
    (h : announced? records = some header) (rest : List Record) :
    announced? (records ++ rest) = some header := by
  rw [announced?, List.findSome?_append, ← announced?, h, Option.some_or]

/-- A record behind others is in force if it is the first header. -/
theorem announced?_append_of_none {records : List Record} (h : announced? records = none)
    (record : Record) : announced? (records ++ [record]) = record.header? := by
  rw [announced?, List.findSome?_append, ← announced?, h, Option.none_or]
  simp

/-- Without a header there are no records from it on. -/
theorem sinceHeader_eq_nil_iff {records : List Record} :
    sinceHeader records = [] ↔ announced? records = none := by
  rw [sinceHeader, announced?, List.findSome?_eq_none_iff]
  induction records with
  | nil => simp
  | cons record rest ih => cases h : record.header? <;> simp [h, ih]

/-- A record behind a header is behind the first. -/
theorem sinceHeader_append {records : List Record} {header : Header}
    (h : announced? records = some header) (record : Record) :
    sinceHeader (records ++ [record]) = sinceHeader records ++ [record] := by
  have hne : sinceHeader records ≠ [] := by
    intro hnil
    rw [sinceHeader_eq_nil_iff.mp hnil] at h
    cases h
  have hnonempty : ¬(sinceHeader records).isEmpty = true := by simpa using hne
  rw [sinceHeader, List.dropWhile_append, ← sinceHeader, if_neg hnonempty]

/-- A record behind others that are no headers counts if it is one. -/
theorem sinceHeader_append_of_none {records : List Record} (h : announced? records = none)
    (record : Record) :
    sinceHeader (records ++ [record]) = if record.header?.isNone then [] else [record] := by
  have hempty : (sinceHeader records).isEmpty = true := by
    simpa using sinceHeader_eq_nil_iff.mpr h
  rw [sinceHeader, List.dropWhile_append, ← sinceHeader, if_pos hempty]
  cases hkind : record.header? <;> simp [hkind]

/-- Without a header there is no end. -/
theorem not_ended_of_none {records : List Record} (h : announced? records = none) :
    ¬Ended records := by
  rintro ⟨start, hstart⟩
  rw [sinceHeader_eq_nil_iff.mpr h] at hstart
  cases hstart

/-- Records behind a header end with the first end. -/
theorem ended_append {records : List Record} {header : Header}
    (h : announced? records = some header) (record : Record) :
    Ended (records ++ [record]) ↔ Ended records ∨ ∃ start, record = .finish start := by
  simp only [Ended, sinceHeader_append h, List.mem_append, List.mem_singleton, exists_or, eq_comm]

/-- Behind the end there is one error for every record. -/
theorem violates_iff_of_ended {before : List Record} (hended : Ended before) {record : Record}
    {fault : LoadFault} : Violates before record fault ↔ fault = .afterEnd := by
  constructor
  · intro h
    cases h with
    | afterEnd => rfl
    | segmentTooLong _ _ _ hnone | beforeHeader _ hnone =>
      exact absurd hended (not_ended_of_none hnone)
    | _ => contradiction
  · rintro rfl
    exact .afterEnd record hended

/-- The first header breaks one rule at most. -/
theorem violates_header_iff {before : List Record} (hnone : announced? before = none)
    {name : String} {origin : Option Word} {length : Word} {fault : LoadFault} :
    Violates before (.header name origin length) fault ↔
      addressLimit < (Header.mk name origin length).first.toNat + length.toNat ∧
        fault = .segmentTooLong := by
  constructor
  · intro h
    cases h with
    | segmentTooLong _ _ _ _ hlong => exact ⟨hlong, rfl⟩
    | afterEnd _ hended => exact absurd hended (not_ended_of_none hnone)
    | secondHeader _ _ _ _ _ hheader => simp [hnone] at hheader
    | beforeHeader _ _ hkind => cases hkind
  · rintro ⟨hlong, rfl⟩
    exact .segmentTooLong name origin length hnone hlong

/-- A record in front of the header breaks the rule that the header comes first. -/
theorem violates_iff_of_none {before : List Record} (hnone : announced? before = none)
    {record : Record} (hkind : record.header? = none) {fault : LoadFault} :
    Violates before record fault ↔ fault = .beforeHeader := by
  constructor
  · intro h
    cases h with
    | beforeHeader => rfl
    | afterEnd _ hended => exact absurd hended (not_ended_of_none hnone)
    | secondHeader | segmentTooLong => cases hkind
    | exportRepeated _ _ _ _ _ _ hother =>
      rw [sinceHeader_eq_nil_iff.mpr hnone] at hother
      cases hother
    | _ => simp_all
  · rintro rfl
    exact .beforeHeader record hnone hkind

section Behind

variable {before : List Record} {header : Header} {fault : LoadFault}

/-- A header behind another is an error. -/
theorem violates_secondHeader_iff (hopen : ¬Ended before)
    (hheader : announced? before = some header) {name : String} {origin : Option Word}
    {length : Word} :
    Violates before (.header name origin length) fault ↔ fault = .secondHeader := by
  constructor
  · intro h
    cases h with
    | secondHeader => rfl
    | _ => simp_all
  · rintro rfl
    exact .secondHeader name origin length header hopen hheader

/-- A word is an error outside the segment, and at an address that is taken. -/
theorem violates_text_iff (hopen : ¬Ended before) (hheader : announced? before = some header)
    {word : TaggedWord} :
    Violates before (.text word) fault ↔
      ¬header.Contains word.address ∧ fault = .textOutside word.address ∨
      (header.Contains word.address ∧ ∃ other, .text other ∈ sinceHeader before ∧
        other.address = word.address) ∧ fault = .textRepeated word.address := by
  constructor
  · intro h
    cases h with
    | textOutside _ _ _ hother houtside =>
      obtain rfl := Option.some.inj (hheader.symm.trans hother)
      exact .inl ⟨houtside, rfl⟩
    | textRepeated _ other _ _ hsame hinside hmem heq =>
      obtain rfl := Option.some.inj (hheader.symm.trans hsame)
      exact .inr ⟨⟨hinside, other, hmem, heq⟩, rfl⟩
    | _ => simp_all
  · rintro (⟨houtside, rfl⟩ | ⟨⟨hinside, other, hother, hsame⟩, rfl⟩)
    · exact .textOutside word header hopen hheader houtside
    · exact .textRepeated word other header hopen hheader hinside hother hsame

/-- An export is an error if its name is taken. -/
theorem violates_exported_iff (hopen : ¬Ended before) (hheader : announced? before = some header)
    {name : String} {value : Word} {relocatable : Bool} :
    Violates before (.exported name value relocatable) fault ↔
      (∃ other move, .exported name other move ∈ sinceHeader before) ∧
        fault = .symbol (.redefinition name) := by
  constructor
  · intro h
    cases h with
    | exportRepeated _ _ other _ move _ hother => exact ⟨⟨other, move, hother⟩, rfl⟩
    | _ => simp_all
  · rintro ⟨⟨other, move, hother⟩, rfl⟩
    exact .exportRepeated name value other relocatable move hopen hother

/-- A field to be filled is an error outside the segment. -/
theorem violates_imported_iff (hopen : ¬Ended before) (hheader : announced? before = some header)
    {site : ImportSite} :
    Violates before (.imported site) fault ↔
      ¬header.Contains site.address ∧ fault = .importOutside site.address := by
  constructor
  · intro h
    cases h <;> simp_all
  · rintro ⟨houtside, rfl⟩
    exact .importOutside site header hopen hheader houtside

/-- An end is an error if execution may not start there. -/
theorem violates_finish_iff (hopen : ¬Ended before) (hheader : announced? before = some header)
    {start : Word} :
    Violates before (.finish start) fault ↔
      ¬header.AllowsStart start ∧ fault = .startOutside start := by
  constructor
  · intro h
    cases h <;> simp_all
  · rintro ⟨houtside, rfl⟩
    exact .startOutside start header hopen hheader houtside

end Behind

end Record

open Record (announced? sinceHeader Ended Violates)
open Text (contentLines contentFrom)

namespace Loader

/-- What a loader keeps of the records in front of the next line. -/
structure Tracks (loader : Loader) (before : List Record) : Prop where
  /-- It has the header in force. -/
  header : loader.header = announced? before
  /-- It has a start if the end was reached. -/
  start : loader.start.isSome ↔ Ended before
  /-- Before the end, the addresses taken are those of the words that lie in the segment. -/
  memory : ¬Ended before → ∀ address, loader.memory.contains address ↔
    ∃ header, announced? before = some header ∧ header.Contains address ∧
      ∃ word, .text word ∈ sinceHeader before ∧ word.address = address
  /-- Before the end, the names taken are those exported. -/
  exports : ¬Ended before → ∀ name, loader.exports.contains name ↔
    ∃ value relocatable, .exported name value relocatable ∈ sinceHeader before

/-- Before the first line there is nothing to keep. -/
theorem tracks_initial : initial.Tracks [] where
  header := rfl
  start := by simp [initial, Ended, sinceHeader]
  memory := by simp [initial, announced?, Memory.contains, Memory.empty]
  exports := by simp [initial, sinceHeader, SymbolTable.contains, SymbolTable.empty]

/-- A record behind the header is kept track of by what it adds to the addresses, the names and the
end. -/
theorem Tracks.append {loader next : Loader} {before : List Record} {header : Header}
    {record : Record} (h : loader.Tracks before) (hheader : announced? before = some header)
    (hsame : next.header = loader.header)
    (hstart : next.start.isSome ↔ loader.start.isSome ∨ ∃ start, record = .finish start)
    (hmemory : ¬Ended before → ∀ address, next.memory.contains address ↔
      loader.memory.contains address ∨
        header.Contains address ∧ ∃ word, record = .text word ∧ word.address = address)
    (hexports : ¬Ended before → ∀ name, next.exports.contains name ↔
      loader.exports.contains name ∨
        ∃ value relocatable, record = .exported name value relocatable) :
    next.Tracks (before ++ [record]) where
  header := by rw [hsame, h.header, hheader, Record.announced?_append hheader]
  start := by rw [hstart, h.start, Record.ended_append hheader]
  memory hopen address := by
    have hbefore : ¬Ended before := fun hended =>
      hopen ((Record.ended_append hheader record).mpr (.inl hended))
    rw [hmemory hbefore, h.memory hbefore, Record.announced?_append hheader,
      Record.sinceHeader_append hheader, hheader]
    simp only [Option.some.injEq, exists_eq_left', List.mem_append, List.mem_singleton,
      or_and_right, exists_or, and_or_left, eq_comm]
  exports hopen name := by
    have hbefore : ¬Ended before := fun hended =>
      hopen ((Record.ended_append hheader record).mpr (.inl hended))
    rw [hexports hbefore, h.exports hbefore, Record.sinceHeader_append hheader]
    simp only [List.mem_append, List.mem_singleton, exists_or, eq_comm]

/-- What a line leaves: the loader keeps track of its record, and there is one error more if the
record breaks a rule. -/
structure Judges (loader : Loader) (before : List Record) (line : Nat) (record : Record)
    (next : Loader) : Prop where
  /-- The record is kept track of. -/
  tracks : next.Tracks (before ++ [record])
  /-- A record breaks one rule at most, and the error says which. -/
  errors : ∃ fault? : Option LoadFault,
    next.errors = loader.errors ++ fault?.toList.map (LoadError.mk (some line)) ∧
      ∀ fault, Violates before record fault ↔ fault? = some fault

/-- A record that no header precedes is kept track of if it is one, and left out if not. -/
theorem Tracks.begin {loader next : Loader} {before : List Record} {record : Record}
    (h : loader.Tracks before) (hnone : announced? before = none)
    (hheader : next.header = record.header?) (hstart : next.start = loader.start)
    (hmemory : next.memory = loader.memory) (hexports : next.exports = loader.exports) :
    next.Tracks (before ++ [record]) := by
  have hopen := Record.not_ended_of_none hnone
  have hempty := Record.sinceHeader_eq_nil_iff.mpr hnone
  -- Nothing counts so far, and of the record only that it is a header.
  have hkinds (other : Record) (hother : other ∈ sinceHeader (before ++ [record])) :
      other.header? ≠ none := by
    rw [Record.sinceHeader_append_of_none hnone] at hother
    split at hother
    · cases hother
    · rename_i hkind
      rw [List.mem_singleton.mp hother]
      simpa using hkind
  have hfinish (start : Word) : .finish start ∉ sinceHeader (before ++ [record]) :=
    fun hmem => hkinds _ hmem rfl
  have htext (word : TaggedWord) : .text word ∉ sinceHeader (before ++ [record]) :=
    fun hmem => hkinds _ hmem rfl
  have hexported (name : String) (value : Word) (relocatable : Bool) :
      .exported name value relocatable ∉ sinceHeader (before ++ [record]) :=
    fun hmem => hkinds _ hmem rfl
  exact
    { header := by rw [hheader, Record.announced?_append_of_none hnone]
      start := by simp [hstart, h.start, Ended, hempty, hfinish]
      memory := by simp [hmemory, h.memory hopen, hnone, htext]
      exports := by simp [hexports, h.exports hopen, hempty, hexported] }

/-- The first header is taken, and noted if its segment does not fit memory. -/
theorem Tracks.judges_header {loader : Loader} {before : List Record} (h : loader.Tracks before)
    (hnone : announced? before = none) (line : Nat) (name : String) (origin : Option Word)
    (length : Word) :
    loader.Judges before line (.header name origin length)
      (loader.addHeader line ⟨name, origin, length⟩) := by
  unfold addHeader
  split
  · rename_i hlong
    refine ⟨h.begin hnone rfl rfl rfl rfl, some .segmentTooLong, rfl, fun fault => ?_⟩
    rw [Record.violates_header_iff hnone]
    simp [hlong, eq_comm]
  · rename_i hfits
    refine ⟨h.begin hnone rfl rfl rfl rfl, none, by simp, fun fault => ?_⟩
    rw [Record.violates_header_iff hnone]
    simp [hfits]

/-- A record that is no header is reported in front of the header. -/
theorem Tracks.judges_beforeHeader {loader : Loader} {before : List Record} {record : Record}
    (h : loader.Tracks before) (hnone : announced? before = none)
    (hkind : record.header? = none) (line : Nat) :
    loader.Judges before line record (loader.report line .beforeHeader) := by
  refine ⟨h.begin hnone ?_ rfl rfl rfl, some .beforeHeader, rfl, fun fault => ?_⟩
  · rw [hkind, ← hnone, ← h.header, report]
  · rw [Record.violates_iff_of_none hnone hkind]
    simp [eq_comm]

/-- Behind the end every record is an error. -/
theorem Tracks.judges_afterEnd {loader : Loader} {before : List Record} (h : loader.Tracks before)
    (hended : Ended before) (line : Nat) (record : Record) :
    loader.Judges before line record (loader.report line .afterEnd) := by
  obtain ⟨header, hheader⟩ := Option.ne_none_iff_exists'.mp fun hnone =>
    Record.not_ended_of_none hnone hended
  refine ⟨h.append hheader rfl ?_ (absurd hended) (absurd hended), some .afterEnd, rfl,
    fun fault => ?_⟩
  · simp [report, h.start.mpr hended]
  · rw [Record.violates_iff_of_ended hended]
    simp [eq_comm]

section Behind

variable {loader : Loader} {before : List Record} {header : Header}

/-- A header behind another is reported. -/
theorem Tracks.judges_secondHeader (h : loader.Tracks before) (hopen : ¬Ended before)
    (hheader : announced? before = some header) (line : Nat) (name : String)
    (origin : Option Word) (length : Word) :
    loader.Judges before line (.header name origin length) (loader.report line .secondHeader) := by
  refine ⟨h.append hheader rfl ?_ ?_ ?_, some .secondHeader, rfl, fun fault => ?_⟩
  · simp [report]
  · simp [report]
  · simp [report]
  · rw [Record.violates_secondHeader_iff hopen hheader]
    simp [eq_comm]

/-- A word is taken, or noted if it lies outside the segment or its address is taken. -/
theorem Tracks.judges_text (h : loader.Tracks before) (hopen : ¬Ended before)
    (hheader : announced? before = some header) (line : Nat) (word : TaggedWord) :
    loader.Judges before line (.text word) (loader.addText line header word) := by
  have htaken := h.memory hopen word.address
  simp only [hheader, Option.some.injEq, exists_eq_left'] at htaken
  unfold addText
  split
  · rename_i houtside
    refine ⟨h.append hheader rfl ?_ ?_ ?_, some (.textOutside word.address), rfl, fun fault => ?_⟩
    · simp [report]
    · rintro - address
      simp only [report, Record.text.injEq, exists_eq_left']
      exact ⟨.inl, fun hor => hor.resolve_right fun hinside => houtside (hinside.2 ▸ hinside.1)⟩
    · simp [report]
    · rw [Record.violates_text_iff hopen hheader]
      simp [houtside, eq_comm]
  · rename_i hinside
    rw [not_not] at hinside
    split
    · rename_i hrepeated
      refine ⟨h.append hheader rfl ?_ ?_ ?_, some (.textRepeated word.address), rfl,
        fun fault => ?_⟩
      · simp [report]
      · rintro - address
        simp only [report, Record.text.injEq, exists_eq_left']
        exact ⟨.inl, fun hor => hor.elim id fun hsame => hsame.2 ▸ hrepeated⟩
      · simp [report]
      · rw [Record.violates_text_iff hopen hheader, ← htaken]
        simp [hinside, hrepeated, eq_comm]
    · rename_i hnew
      refine ⟨h.append hheader rfl ?_ ?_ ?_, none, by simp, fun fault => ?_⟩
      · simp
      · rintro - address
        simp only [Memory.contains, Memory.write, Std.ExtTreeMap.contains_insert, Bool.or_eq_true,
          Std.LawfulEqCmp.compare_beq_iff_eq, Record.text.injEq, exists_eq_left']
        rw [or_comm, and_iff_right_of_imp]
        rintro rfl
        exact hinside
      · simp
      · rw [Record.violates_text_iff hopen hheader, ← htaken]
        simp [hinside, hnew]

/-- An export is taken, or noted if its name is taken. -/
theorem Tracks.judges_exported (h : loader.Tracks before) (hopen : ¬Ended before)
    (hheader : announced? before = some header) (line : Nat) (name : String) (value : Word)
    (relocatable : Bool) :
    loader.Judges before line (.exported name value relocatable)
      (loader.addExport line name (exportedSymbol value relocatable)) := by
  have htaken := h.exports hopen name
  by_cases hrepeated : loader.exports.contains name
  · have hadd : loader.addExport line name (exportedSymbol value relocatable) =
        loader.report line (.symbol (.redefinition name)) := by
      rw [addExport, SymbolTable.define, if_pos hrepeated]
    rw [hadd]
    refine ⟨h.append hheader rfl ?_ ?_ ?_, some (.symbol (.redefinition name)), rfl,
      fun fault => ?_⟩
    · simp [report]
    · simp [report]
    · rintro - other
      simp only [report, Record.exported.injEq, exists_and_left, exists_eq', and_true]
      exact ⟨.inl, fun hor => hor.elim id fun hsame => hsame ▸ hrepeated⟩
    · rw [Record.violates_exported_iff hopen hheader, ← htaken]
      simp [hrepeated, eq_comm]
  · obtain ⟨grown, hdefine⟩ := SymbolTable.exists_define_eq_ok (exportedSymbol value relocatable)
      (not_not.mp fun hknown => hrepeated (SymbolTable.contains_iff.mpr hknown))
    have hadd : loader.addExport line name (exportedSymbol value relocatable) =
        { loader with exports := grown } := by
      rw [addExport, hdefine]
    rw [hadd]
    refine ⟨h.append hheader rfl ?_ ?_ ?_, none, by simp, fun fault => ?_⟩
    · simp
    · simp
    · rintro - other
      simp only [SymbolTable.contains_define_iff hdefine, Record.exported.injEq, exists_and_left,
        exists_eq', and_true, eq_comm (a := name)]
    · rw [Record.violates_exported_iff hopen hheader, ← htaken]
      simp [hrepeated]

/-- A field to be filled is taken, or noted if it lies outside the segment. -/
theorem Tracks.judges_imported (h : loader.Tracks before) (hopen : ¬Ended before)
    (hheader : announced? before = some header) (line : Nat) (site : ImportSite) :
    loader.Judges before line (.imported site) (loader.addImport line header site) := by
  unfold addImport
  split
  · rename_i hinside
    refine ⟨h.append hheader rfl ?_ ?_ ?_, none, by simp, fun fault => ?_⟩
    · simp
    · simp
    · simp
    · rw [Record.violates_imported_iff hopen hheader]
      simp [hinside]
  · rename_i houtside
    refine ⟨h.append hheader rfl ?_ ?_ ?_, some (.importOutside site.address), rfl,
      fun fault => ?_⟩
    · simp [report]
    · simp [report]
    · simp [report]
    · rw [Record.violates_imported_iff hopen hheader]
      simp [houtside, eq_comm]

/-- The end is taken, and noted if execution may not start there. -/
theorem Tracks.judges_finish (h : loader.Tracks before) (hopen : ¬Ended before)
    (hheader : announced? before = some header) (line : Nat) (start : Word) :
    loader.Judges before line (.finish start) (loader.addFinish line header start) := by
  unfold addFinish
  split
  · rename_i hallowed
    refine ⟨h.append hheader rfl ?_ ?_ ?_, none, by simp, fun fault => ?_⟩
    · simp
    · simp
    · simp
    · rw [Record.violates_finish_iff hopen hheader]
      simp [hallowed]
  · rename_i houtside
    refine ⟨h.append hheader rfl ?_ ?_ ?_, some (.startOutside start), rfl, fun fault => ?_⟩
    · simp
    · simp [report]
    · simp [report]
    · rw [Record.violates_finish_iff hopen hheader]
      simp [houtside, eq_comm]

end Behind

/-- Every record is judged by the records in front of it. -/
theorem Tracks.judges_add {loader : Loader} {before : List Record} (h : loader.Tracks before)
    (line : Nat) (record : Record) :
    loader.Judges before line record (loader.add line record) := by
  by_cases hstart : loader.start.isSome
  · unfold add
    rw [if_pos hstart]
    exact h.judges_afterEnd (h.start.mp hstart) line record
  · unfold add
    rw [if_neg hstart]
    have hopen : ¬Ended before := fun hended => hstart (h.start.mpr hended)
    cases hloader : loader.header with
    | none =>
      have hnone : announced? before = none := h.header.symm.trans hloader
      cases record with
      | header name origin length => exact h.judges_header hnone line name origin length
      | text | exported | imported | finish => exact h.judges_beforeHeader hnone rfl line
    | some header =>
      have hheader : announced? before = some header := h.header.symm.trans hloader
      cases record with
      | header name origin length =>
        exact h.judges_secondHeader hopen hheader line name origin length
      | text word => exact h.judges_text hopen hheader line word
      | exported name value relocatable =>
        exact h.judges_exported hopen hheader line name value relocatable
      | imported site => exact h.judges_imported hopen hheader line site
      | finish start => exact h.judges_finish hopen hheader line start

end Loader

/-- The records read from lines, those that are none left out. -/
def recordsRead (lines : List (Nat × List Char)) : List Record :=
  lines.filterMap fun line => (Record.ofChars line.2).toOption

/-- A line is at fault, given all records in front of it. -/
inductive Rejects (before : List Record) (line : List Char) : LoadFault → Prop
  /-- It is no record. -/
  | unreadable (error : RecordError) (hread : Record.ofChars line = .error error) :
      Rejects before line (.record error)
  /-- Its record breaks a rule. -/
  | violates (record : Record) (fault : LoadFault) (hread : Record.ofChars line = .ok record)
      (hviolates : Violates before record fault) : Rejects before line fault

/-- Whether the line of a number is at fault among lines. -/
def FaultAt (lines : List (Nat × List Char)) (number : Nat) (fault : LoadFault) : Prop :=
  ∃ front line back, lines = front ++ (number, line) :: back ∧
    Rejects (recordsRead front) line fault

/-- What a file as a whole lacks. -/
inductive Lacks (records : List Record) : LoadFault → Prop
  /-- There is no header. -/
  | noHeader (hnone : announced? records = none) : Lacks records .noHeader
  /-- There is no end behind a header. -/
  | noEnd (hopen : ¬Ended records) : Lacks records .noEnd

/-- A line behind others is judged by them, and leaves them alone. -/
theorem faultAt_append {lines : List (Nat × List Char)} {line : Nat × List Char} {number : Nat}
    {fault : LoadFault} :
    FaultAt (lines ++ [line]) number fault ↔
      FaultAt lines number fault ∨ line.1 = number ∧ Rejects (recordsRead lines) line.2 fault := by
  constructor
  · rintro ⟨front, text, back, heq, hrejects⟩
    rcases back.eq_nil_or_concat with rfl | ⟨rest, last, rfl⟩
    · obtain ⟨rfl, hline⟩ := List.append_inj' heq rfl
      obtain rfl : line = (number, text) := by simpa using hline
      exact .inr ⟨rfl, hrejects⟩
    · rw [List.concat_eq_append, ← List.cons_append, ← List.append_assoc] at heq
      exact .inl ⟨front, text, rest, (List.append_inj' heq rfl).1, hrejects⟩
  · rintro (⟨front, text, back, rfl, hrejects⟩ | ⟨rfl, hrejects⟩)
    · exact ⟨front, text, back ++ [line], by simp, hrejects⟩
    · exact ⟨lines, line.2, [], rfl, hrejects⟩

namespace Loader

/-- An error in a line. -/
def located (found : Nat × LoadFault) : LoadError :=
  ⟨some found.1, found.2⟩

/-- A line is judged by the records read in front of it. -/
theorem Tracks.judges_read {loader : Loader} {before : List Record} (h : loader.Tracks before)
    (line : Nat × List Char) :
    (loader.read line).Tracks (before ++ recordsRead [line]) ∧
      ∃ fault? : Option LoadFault,
        (loader.read line).errors =
            loader.errors ++ fault?.toList.map (LoadError.mk (some line.1)) ∧
          ∀ fault, Rejects before line.2 fault ↔ fault? = some fault := by
  unfold Loader.read
  cases hread : Record.ofChars line.2 with
  | error error =>
    have hnone : recordsRead [line] = [] := by simp [recordsRead, hread, Except.toOption]
    rw [hnone, List.append_nil]
    refine ⟨⟨h.header, h.start, h.memory, h.exports⟩, some (.record error), rfl, fun fault => ?_⟩
    constructor
    · intro hrejects
      cases hrejects with
      | unreadable other hother =>
        rw [Except.error.inj (hread.symm.trans hother)]
      | violates record _ hother =>
        cases hread.symm.trans hother
    · rintro ⟨⟩
      exact .unreadable error hread
  | ok record =>
    have hsome : recordsRead [line] = [record] := by simp [recordsRead, hread, Except.toOption]
    obtain ⟨htracks, fault?, herrors, hfault⟩ := h.judges_add line.1 record
    rw [hsome]
    refine ⟨htracks, fault?, herrors, fun fault => ?_⟩
    rw [← hfault]
    constructor
    · intro hrejects
      cases hrejects with
      | unreadable other hother => cases hread.symm.trans hother
      | violates other _ hother hviolates =>
        rwa [Except.ok.inj (hread.symm.trans hother)]
    · exact .violates record fault hread

/-- Behind lines the loader keeps track of their records, and has one error for each line at fault,
in their order. -/
theorem foldl_read_spec (lines : List (Nat × List Char)) :
    (lines.foldl Loader.read initial).Tracks (recordsRead lines) ∧
      ∃ found : List (Nat × LoadFault),
        (lines.foldl Loader.read initial).errors = found.map located ∧
        (found.map Prod.fst).Sublist (lines.map Prod.fst) ∧
        ∀ number fault, (number, fault) ∈ found ↔ FaultAt lines number fault := by
  -- From the end of the list, since a line is judged by those in front of it.
  induction lines using List.reverseRecOn with
  | nil => exact ⟨tracks_initial, [], rfl, by simp, by simp [FaultAt]⟩
  | append_singleton lines line ih =>
    obtain ⟨htracks, found, herrors, horder, hfound⟩ := ih
    obtain ⟨hnext, fault?, hmore, hfault⟩ := htracks.judges_read line
    rw [List.foldl_append, List.foldl_cons, List.foldl_nil]
    refine ⟨?_, found ++ fault?.toList.map (Prod.mk line.1), ?_, ?_, fun number fault => ?_⟩
    · rw [recordsRead, List.filterMap_append]
      exact hnext
    · rw [hmore, herrors, List.map_append, List.map_map]
      rfl
    · rw [List.map_append, List.map_append]
      refine horder.append ?_
      cases fault? <;> simp
    · rw [faultAt_append, ← hfound, hfault, List.mem_append]
      simp [eq_comm, and_comm]

/-- A loader gives a module exactly if there is no error. -/
theorem exists_finish_iff (loader : Loader) :
    (∃ module, loader.finish = .ok module) ↔ loader.allErrors = [] := by
  simp only [allErrors, List.append_eq_nil_iff, ite_eq_right_iff, List.cons_ne_nil, imp_false,
    Bool.not_eq_true, Option.isNone_eq_false_iff, Option.isSome_iff_exists]
  constructor
  · rintro ⟨module, hmodule⟩
    obtain ⟨hclean, header, start, hheader, hstart, -⟩ := finish_eq_ok hmodule
    exact ⟨⟨hclean, header, hheader⟩, start, hstart⟩
  · rintro ⟨⟨hclean, header, hheader⟩, start, hstart⟩
    exact ⟨_, by rw [finish, hheader, hstart, hclean]⟩

end Loader

/-- The numbers of the lines of a text increase. -/
theorem pairwise_contentLines (text : String) :
    ((contentLines text).map Prod.fst).Pairwise (· < ·) := by
  have hnumbers : ((contentLines text).map Prod.fst).Sublist
      (List.range' 1 (Text.lines text).length) := by
    rw [← List.zipIdx_map_snd 1 (Text.lines text), contentLines, contentFrom]
    refine (List.filter_sublist.map Prod.fst).trans ?_
    rw [List.map_map]
    exact .refl _
  exact List.Pairwise.sublist hnumbers List.pairwise_lt_range'

/-- What a file lacks is a header or an end. -/
theorem lacks_iff {records : List Record} {fault : LoadFault} :
    Lacks records fault ↔
      announced? records = none ∧ fault = .noHeader ∨ ¬Ended records ∧ fault = .noEnd := by
  constructor
  · intro h
    cases h with
    | noHeader hnone => exact .inl ⟨hnone, rfl⟩
    | noEnd hopen => exact .inr ⟨hopen, rfl⟩
  · rintro (⟨hnone, rfl⟩ | ⟨hopen, rfl⟩)
    · exact .noHeader hnone
    · exact .noEnd hopen

/-- Behind the errors of the lines come those of the whole file. -/
theorem Loader.Tracks.exists_whole {loader : Loader} {records : List Record}
    (h : loader.Tracks records) : ∃ whole : List LoadFault,
      loader.allErrors = loader.errors ++ whole.map (LoadError.mk none) ∧
        whole.Sublist [.noHeader, .noEnd] ∧ ∀ fault, fault ∈ whole ↔ Lacks records fault := by
  have hlacks (fault : LoadFault) : Lacks records fault ↔
      loader.header = none ∧ fault = .noHeader ∨ ¬loader.start.isSome ∧ fault = .noEnd := by
    rw [lacks_iff, h.header, h.start]
  refine ⟨(if loader.header.isNone then [.noHeader] else []) ++
    (if loader.start.isNone then [.noEnd] else []), ?_, ?_, fun fault => ?_⟩
  · cases hheader : loader.header <;> cases hstart : loader.start <;>
      simp [allErrors, hheader, hstart]
  · cases loader.header <;> cases loader.start <;> simp
  · rw [hlacks]
    cases loader.header <;> cases loader.start <;> simp

/-- The errors behind the last line are those of the lines at fault, in their order, and behind
them what the whole file lacks. -/
theorem exists_allErrors (text : String) :
    ∃ (found : List (Nat × LoadFault)) (whole : List LoadFault),
      ((contentLines text).foldl Loader.read Loader.initial).allErrors =
        found.map Loader.located ++ whole.map (LoadError.mk none) ∧
      (found.map Prod.fst).Pairwise (· < ·) ∧
      (∀ number fault, (number, fault) ∈ found ↔ FaultAt (contentLines text) number fault) ∧
      whole.Sublist [.noHeader, .noEnd] ∧
      ∀ fault, fault ∈ whole ↔ Lacks (recordsRead (contentLines text)) fault := by
  obtain ⟨htracks, found, herrors, horder, hfound⟩ := Loader.foldl_read_spec (contentLines text)
  obtain ⟨whole, hsplit, hwhole⟩ := htracks.exists_whole
  rw [herrors] at hsplit
  exact ⟨found, whole, hsplit, (pairwise_contentLines text).sublist horder, hfound, hwhole⟩

/-- A text is loaded exactly if no line is at fault and nothing is lacking. -/
theorem exists_load_iff_faultless (text : String) :
    (∃ module, load text = .ok module) ↔
      (∀ number fault, ¬FaultAt (contentLines text) number fault) ∧
        ∀ fault, ¬Lacks (recordsRead (contentLines text)) fault := by
  obtain ⟨found, whole, hsplit, -, hfound, -, hwhole⟩ := exists_allErrors text
  rw [load_eq_finish, Loader.exists_finish_iff, hsplit, List.append_eq_nil_iff, List.map_eq_nil_iff,
    List.map_eq_nil_iff, List.eq_nil_iff_forall_not_mem, List.eq_nil_iff_forall_not_mem]
  simp only [Prod.forall, hfound, hwhole]

end PageMachine
