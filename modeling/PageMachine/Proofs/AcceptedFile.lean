import PageMachine.Proofs.Acceptance
import PageMachine.Proofs.Moving

/-!
# The files that are accepted

A text is loaded exactly when its lines, blank ones left out, are a header, a body that the header
admits, and an end, in a segment that fits memory; and the module is then what these records say and
nothing else. This holds of every text, however its lines were written: blanks around a record and
the case of digits do not matter, since only what the lines are read as counts.

The two halves meet in a run of accepted records. That such records make up a run is known; here a
run is taken apart, which ends where the end record was taken and begins with the header.
-/

namespace PageMachine

open Text (contentLines)

namespace Header

/-- The records of an object file. -/
def file (header : Header) (body : List Record) (start : Word) : List Record :=
  header.record :: body ++ [.finish start]

/-- Whether a record may stand in the body behind a header. -/
def Covers (header : Header) : Record → Prop
  | .text word => header.Contains word.address
  | .imported site => header.Contains site.address
  | .exported _ _ _ => True
  | .header _ _ _ | .finish _ => False

/-- A header admits the bodies whose records it covers and that name no address and no export
twice. -/
theorem admits_iff {header : Header} {body : List Record} :
    header.Admits body ↔ (∀ record ∈ body, header.Covers record) ∧
      ((body.filterMap Record.word?).map TaggedWord.address).Nodup ∧
      (body.filterMap Record.exportName?).Nodup := by
  constructor
  · intro h
    refine ⟨fun record hrecord => ?_, h.addresses, h.names⟩
    cases record with
    | text word => exact h.words word hrecord
    | imported site => exact h.sites site hrecord
    | exported => trivial
    | header => exact h.kinds _ hrecord
    | finish => exact h.kinds _ hrecord
  · rintro ⟨hcovers, haddresses, hnames⟩
    refine ⟨fun record hrecord => ?_, fun word hword => hcovers _ hword,
      fun site hsite => hcovers _ hsite, haddresses, hnames⟩
    cases record with
    | text | imported | exported => trivial
    | header => exact hcovers _ hrecord
    | finish => exact hcovers _ hrecord

/-- Whether a header, a body and a start make up an object file. -/
structure Heads (header : Header) (body : List Record) (start : Word) : Prop where
  /-- The segment fits memory. -/
  fits : header.first.toNat + header.length.toNat ≤ addressLimit
  /-- The body fits the header. -/
  admits : header.Admits body
  /-- Execution may start there. -/
  start : header.AllowsStart start

end Header

namespace Loader

/-- A record is taken before the end, and only an end record makes the end. -/
theorem Accepts.start_spec {loader next : Loader} {record : Record}
    (h : loader.Accepts record next) :
    loader.start = none ∧
      ((∃ start, record = .finish start ∧ next.start = some start) ∨ next.start = none) := by
  cases h with
  | header _ _ _ hstart => exact ⟨hstart, .inr hstart⟩
  | text _ _ hstart => exact ⟨hstart, .inr hstart⟩
  | exported _ _ _ _ _ hstart => exact ⟨hstart, .inr hstart⟩
  | imported _ _ hstart => exact ⟨hstart, .inr hstart⟩
  | finish start _ hstart => exact ⟨hstart, .inl ⟨start, rfl, rfl⟩⟩

/-- Nothing is taken behind the end. -/
theorem Takes.eq_nil {loader after : Loader} {records : List Record}
    (h : loader.Takes records after) (hstart : loader.start ≠ none) :
    records = [] ∧ after = loader := by
  cases h with
  | nil => exact ⟨rfl, rfl⟩
  | cons hfirst => exact absurd hfirst.start_spec.1 hstart

/-- A run that comes to an end has the end record last. -/
theorem Takes.exists_finish {loader after : Loader} {records : List Record} {start : Word}
    (h : loader.Takes records after) (hbefore : loader.start = none)
    (hafter : after.start = some start) :
    ∃ front last, records = front ++ [.finish start] ∧ loader.Takes front last ∧
      last.Accepts (.finish start) after := by
  induction h with
  | nil loader =>
    rw [hbefore] at hafter
    cases hafter
  | @cons loader next after record rest hfirst hrest ih =>
    obtain ⟨-, ⟨first, rfl, hnext⟩ | hnext⟩ := hfirst.start_spec
    · obtain ⟨rfl, rfl⟩ := hrest.eq_nil (by simp [hnext])
      obtain rfl : first = start := Option.some.inj (hnext.symm.trans hafter)
      exact ⟨[], loader, rfl, .nil loader, hfirst⟩
    · obtain ⟨front, last, rfl, hfront, hlast⟩ := ih hnext hafter
      exact ⟨record :: front, last, rfl, .cons hfirst hfront, hlast⟩

/-- Records taken behind a header and before the end are covered by the header. -/
theorem Takes.covers {loader after : Loader} {records : List Record} {header : Header}
    (h : loader.Takes records after) (hheader : loader.header = some header)
    (hafter : after.start = none) :
    after.header = some header ∧ ∀ record ∈ records, header.Covers record := by
  induction h with
  | nil => exact ⟨hheader, by simp⟩
  | cons hfirst hrest ih =>
    rw [List.forall_mem_cons]
    cases hfirst with
    | header _ _ _ _ hnone =>
      rw [hheader] at hnone
      cases hnone
    | text _ other _ hsome hinside =>
      obtain rfl : other = header := Option.some.inj (hsome.symm.trans hheader)
      obtain ⟨hlast, hcovers⟩ := ih hheader hafter
      exact ⟨hlast, hinside, hcovers⟩
    | exported =>
      obtain ⟨hlast, hcovers⟩ := ih hheader hafter
      exact ⟨hlast, trivial, hcovers⟩
    | imported _ other _ hsome hinside =>
      obtain rfl : other = header := Option.some.inj (hsome.symm.trans hheader)
      obtain ⟨hlast, hcovers⟩ := ih hheader hafter
      exact ⟨hlast, hinside, hcovers⟩
    | finish =>
      obtain ⟨-, rfl⟩ := hrest.eq_nil (by simp)
      cases hafter

/-- An export is taken if its name is new, and other records leave the exports alone. -/
theorem Accepts.exports_spec {loader next : Loader} {record : Record}
    (h : loader.Accepts record next) (name : String) :
    (record.exportName? = some name → loader.exports.get? name = none) ∧
      (next.exports.get? name = none ↔
        record.exportName? ≠ some name ∧ loader.exports.get? name = none) := by
  cases h with
  | exported other value relocatable header exports _ _ hdefine =>
    have hnew := SymbolTable.get?_eq_none_of_define hdefine
    simp only [Record.exportName?, Option.some.injEq, SymbolTable.get?_define hdefine, ne_eq]
    refine ⟨fun h => h ▸ hnew, ?_⟩
    by_cases hname : name = other
    · simp [hname]
    · simp [hname, eq_comm]
  | header | text | imported | finish => simp [Record.exportName?]

/-- No name is exported twice in a run, nor one that was exported before. -/
theorem Takes.names {loader after : Loader} {records : List Record}
    (h : loader.Takes records after) :
    (records.filterMap Record.exportName?).Nodup ∧
      ∀ name ∈ records.filterMap Record.exportName?, loader.exports.get? name = none := by
  induction h with
  | nil => simp
  | @cons loader next after record rest hfirst _ ih =>
    obtain ⟨hnodup, hfree⟩ := ih
    have hrest : ∀ name ∈ rest.filterMap Record.exportName?,
        record.exportName? ≠ some name ∧ loader.exports.get? name = none :=
      fun name hname => (hfirst.exports_spec name).2.mp (hfree name hname)
    cases hname : record.exportName? with
    | none =>
      rw [List.filterMap_cons_none hname]
      exact ⟨hnodup, fun name hmem => (hrest name hmem).2⟩
    | some name =>
      rw [List.filterMap_cons_some hname, List.nodup_cons, List.forall_mem_cons]
      exact ⟨⟨fun hmem => (hrest name hmem).1 hname, hnodup⟩,
        (hfirst.exports_spec name).1 hname, fun other hmem => (hrest other hmem).2⟩

/-- A run from the beginning to an end takes an object file. -/
theorem exists_heads_of_takes {after : Loader} {records : List Record} {header : Header}
    {start : Word} (h : initial.Takes records after) (hheader : after.header = some header)
    (hstart : after.start = some start) :
    ∃ body, records = header.file body start ∧ header.Heads body start := by
  have hholds := holds_initial.takes h
  have hnames := h.names.1
  obtain ⟨front, last, rfl, hfront, hlast⟩ := h.exists_finish rfl hstart
  cases hlast with
  | finish _ other hopen hsome hinside =>
    obtain rfl : other = header := Option.some.inj (hsome.symm.trans hheader)
    cases hfront with
    | nil => cases hsome
    | @cons _ next _ record body hfirst hbody =>
      -- Without a header only a header is taken.
      cases hfirst with
      | header name origin length _ _ hfit =>
        obtain ⟨hsame, hcovers⟩ := hbody.covers rfl hopen
        obtain rfl : other = ⟨name, origin, length⟩ := Option.some.inj (hsome.symm.trans hsame)
        refine ⟨body, rfl, hfit, Header.admits_iff.mpr ⟨hcovers, ?_, ?_⟩, hinside⟩
        · simpa [List.filterMap_cons, Record.word?] using hholds.addresses
        · simpa [List.filterMap_cons, Record.exportName?] using hnames
      | text _ _ _ hnone => cases hnone
      | exported _ _ _ _ _ _ hnone => cases hnone
      | imported _ _ _ hnone => cases hnone
      | finish _ _ _ hnone => cases hnone

end Loader

namespace ObjectModule

/-- Whether a module is what a header, a body and a start say, and nothing else. -/
structure HoldsFile (module : ObjectModule) (header : Header) (body : List Record) (start : Word) :
    Prop where
  /-- The segment has the header's name. -/
  segmentName : module.segmentName = header.segmentName
  /-- It begins where the header says. -/
  origin : module.origin = header.first
  /-- It is as long as the header says. -/
  length : module.length = header.length
  /-- It can be moved if the header has no origin. -/
  relocatable : module.relocatable = header.origin.isNone
  /-- Execution begins at the start. -/
  start : module.start = start
  /-- The memory consists of the words. -/
  memory : ∀ address value, module.memory.get? address = some value ↔
    ∃ word, .text word ∈ body ∧ word.address = address ∧ word.value = value
  /-- The tags are those of the words. -/
  tags : ∀ address tag, module.tag? address = some tag ↔
    ∃ word, .text word ∈ body ∧ word.address = address ∧ word.relocation = some tag
  /-- The exports are those of the export records. -/
  exports : ∀ name symbol, module.exports.get? name = some symbol ↔
    ∃ value relocatable, .exported name value relocatable ∈ body ∧
      symbol = Loader.exportedSymbol value relocatable
  /-- The imports are those of the import records, in their order. -/
  imports : module.imports = body.filterMap Record.site?

/-- A file is held by one module at most. -/
theorem HoldsFile.unique {left right : ObjectModule} {header : Header} {body : List Record}
    {start : Word} (hleft : left.HoldsFile header body start)
    (hright : right.HoldsFile header body start) : left = right :=
  ext_content (hleft.segmentName.trans hright.segmentName.symm)
    (hleft.origin.trans hright.origin.symm) (hleft.length.trans hright.length.symm)
    (hleft.relocatable.trans hright.relocatable.symm) (hleft.start.trans hright.start.symm)
    (fun address => Option.ext fun value =>
      (hleft.memory address value).trans (hright.memory address value).symm)
    (fun address => Option.ext fun tag =>
      (hleft.tags address tag).trans (hright.tags address tag).symm)
    (fun name => Option.ext fun symbol =>
      (hleft.exports name symbol).trans (hright.exports name symbol).symm)
    (hleft.imports.trans hright.imports.symm)

end ObjectModule

/-- A loader that holds an object file and found no error gives a module that holds the file. -/
theorem Loader.Holds.exists_module {loader : Loader} {header : Header} {body : List Record}
    {start : Word} (hholds : loader.Holds (header.file body start)) (hclean : loader.errors = []) :
    ∃ module, loader.finish = .ok module ∧ module.HoldsFile header body start := by
  have hheader : loader.header = some header :=
    (hholds.header header.segmentName header.origin header.length).mp List.mem_cons_self
  have hstart : loader.start = some start := (hholds.start start).mp (by simp [Header.file])
  refine ⟨_, by rw [finish, hheader, hstart, hclean], ?_⟩
  exact
    { segmentName := rfl
      origin := rfl
      length := rfl
      relocatable := rfl
      start := rfl
      memory := by simpa [Header.file, Header.record] using hholds.memory
      tags := by simpa [Header.file, Header.record, ObjectModule.tag?] using hholds.relocations
      exports := by simpa [Header.file, Header.record] using hholds.exports
      imports := by
        simpa [Header.file, Header.record, List.filterMap_cons, Record.site?] using
          hholds.imports }

/-- A text that is read as an object file is loaded, and the module holds the file. -/
theorem exists_load_of_readAs {text : String} {header : Header} {body : List Record} {start : Word}
    (hlines : ReadAs (contentLines text) (header.file body start))
    (hheads : header.Heads body start) :
    ∃ module, load text = .ok module ∧ module.HoldsFile header body start := by
  obtain ⟨after, htakes, -, -⟩ :=
    Loader.exists_takes_file hheads.fits hheads.admits hheads.start
  have hholds := Loader.holds_initial.takes htakes
  rw [load_eq_finish, Loader.foldl_read_of_takes hlines htakes]
  exact hholds.exists_module htakes.errors_eq

/-- A text is loaded as a module exactly if it is read as an object file that the module holds. -/
theorem load_eq_ok_iff {text : String} {module : ObjectModule} :
    load text = .ok module ↔ ∃ header body start,
      ReadAs (contentLines text) (header.file body start) ∧ header.Heads body start ∧
        module.HoldsFile header body start := by
  constructor
  · intro h
    have hfinish := h
    rw [load_eq_finish] at hfinish
    obtain ⟨hclean, header, start, hheader, hstart, -⟩ := Loader.finish_eq_ok hfinish
    obtain ⟨records, hlines, htakes⟩ := Loader.exists_takes_of_read hclean
    obtain ⟨body, rfl, hheads⟩ := Loader.exists_heads_of_takes htakes hheader hstart
    obtain ⟨other, hother, hholds⟩ := exists_load_of_readAs hlines hheads
    obtain rfl : module = other := Except.ok.inj (h.symm.trans hother)
    exact ⟨header, body, start, hlines, hheads, hholds⟩
  · rintro ⟨header, body, start, hlines, hheads, hholds⟩
    obtain ⟨other, hother, hsame⟩ := exists_load_of_readAs hlines hheads
    rw [hother, hsame.unique hholds]

/-- A file of a header, a body that it admits and an end is loaded exactly when each of its lines
can be read. -/
theorem exists_load_eq_ok_iff {header : Header} {body : List Record} {start : Word}
    (hrecords : ∀ record ∈ header.record :: body,
      Record.FitsLine record.toChars ∧ Loader.ReadsBack record)
    (hfit : header.first.toNat + header.length.toNat ≤ addressLimit)
    (hadmits : header.Admits body) (hstart : header.AllowsStart start) :
    (∃ module, load (Record.fileText (header.record :: body ++ [.finish start])) = .ok module) ↔
      ∀ record ∈ header.record :: body, Record.ofChars record.toChars = .ok record := by
  have hend : Record.FitsLine (Record.finish start).toChars :=
    Record.fitsLine_toChars trivial (by simp)
  have hlast (parsed : Record)
      (hparsed : Record.ofChars (Record.finish start).toChars = .ok parsed) :
      parsed = .finish start :=
    Except.ok.inj (hparsed.symm.trans (Record.ofChars_finish start))
  have hfile : ∀ record ∈ header.file body start,
      Record.FitsLine record.toChars ∧ Loader.ReadsBack record :=
    List.forall_mem_append.mpr ⟨hrecords, fun record hrecord => by
      rw [List.mem_singleton.mp hrecord]
      exact ⟨hend, Record.trim_toChars hend, hlast⟩⟩
  have hread (others : List Record) :
      ReadAs (contentLines (Record.fileText (header.file body start))) others ↔
        (header.file body start).map (fun record => Record.ofChars record.toChars) =
          others.map .ok :=
    readAs_fileText_iff (fun record hrecord => (hfile record hrecord).1)
      fun record hrecord => (hfile record hrecord).2.1
  constructor
  · rintro ⟨module, hmodule⟩
    obtain ⟨other, others, last, hlines, -, -⟩ := load_eq_ok_iff.mp hmodule
    have hlines := (hread _).mp hlines
    rw [eq_of_readsBack (fun record hrecord => (hfile record hrecord).2) hlines] at hlines
    exact fun record hrecord =>
      List.map_inj_left.mp hlines record (List.mem_append_left _ hrecord)
  · intro hlines
    have hall : ∀ record ∈ header.file body start, Record.ofChars record.toChars = .ok record :=
      List.forall_mem_append.mpr ⟨hlines, fun record hrecord => by
        rw [List.mem_singleton.mp hrecord, Record.ofChars_finish]⟩
    obtain ⟨module, hmodule, -⟩ := exists_load_of_readAs
      ((hread _).mpr (List.map_inj_left.mpr hall)) ⟨hfit, hadmits, hstart⟩
    exact ⟨module, hmodule⟩

end PageMachine
