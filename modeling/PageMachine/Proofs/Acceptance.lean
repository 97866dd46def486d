import PageMachine.Proofs.Loading

/-!
# Files that load

`Accepts` says what taking a record does when it is no error; here is the converse, that a record
which meets the conditions is taken. A header, a body that the header admits, and an end can be
taken one after the other. Nothing is said here of records that come in another order.
-/

namespace PageMachine

namespace Record

/-- The name of an export record. -/
def exportName? : Record → Option String
  | .exported name _ _ => some name
  | _ => none

/-- Whether a record may stand between the header and the end. -/
def IsBody : Record → Prop
  | .text _ | .exported _ _ _ | .imported _ => True
  | .header _ _ _ | .finish _ => False

end Record

namespace Header

/-- The record of a header. -/
def record (header : Header) : Record :=
  .header header.segmentName header.origin header.length

/-- Whether the records of a body fit a header and one another. -/
structure Admits (header : Header) (body : List Record) : Prop where
  /-- They may stand in a body. -/
  kinds : ∀ record ∈ body, record.IsBody
  /-- Words lie in the segment. -/
  words : ∀ word, .text word ∈ body → header.Contains word.address
  /-- Fields to be filled lie in the segment. -/
  sites : ∀ site, .imported site ∈ body → header.Contains site.address
  /-- No address is written twice. -/
  addresses : ((body.filterMap Record.word?).map TaggedWord.address).Nodup
  /-- No name is exported twice. -/
  names : (body.filterMap Record.exportName?).Nodup

/-- A header that admits a body admits what follows its first record. -/
theorem Admits.tail {header : Header} {record : Record} {rest : List Record}
    (h : header.Admits (record :: rest)) : header.Admits rest where
  kinds other hother := h.kinds other (List.mem_cons_of_mem _ hother)
  words word hword := h.words word (List.mem_cons_of_mem _ hword)
  sites site hsite := h.sites site (List.mem_cons_of_mem _ hsite)
  addresses := h.addresses.sublist (((List.sublist_cons_self _ _).filterMap _).map _)
  names := h.names.sublist ((List.sublist_cons_self _ _).filterMap _)

end Header

namespace Loader

/-- A record that meets the conditions is taken without an error. -/
theorem add_eq_of_accepts {loader next : Loader} {record : Record}
    (h : loader.Accepts record next) (line : Nat) : loader.add line record = next := by
  cases h with
  | header name origin length hstart hnone hfit =>
    simp [add, hstart, hnone, addHeader, Nat.not_lt.mpr hfit]
  | text word header hstart hsome hinside hnew =>
    have hfree : ¬loader.memory.contains word.address = true := by
      simpa [Memory.contains, Memory.get?] using hnew
    have htaken : loader.add line (.text word) = loader.addText line header word := by
      simp [add, hstart, hsome]
    refine htaken.trans (((if_neg (not_not.mpr hinside)).trans (if_neg hfree)).trans ?_)
    cases word.relocation <;> rfl
  | exported name value relocatable header exports hstart hsome hdefine =>
    simp [add, hstart, hsome, addExport, hdefine]
  | imported site header hstart hsome hinside =>
    simp [add, hstart, hsome, addImport, hinside]
  | finish start header hnone hsome hinside =>
    simp [add, hnone, hsome, addFinish, hinside]

/-- A run may be continued. -/
theorem Takes.append {loader next after : Loader} {front back : List Record}
    (hfront : loader.Takes front next) (hback : next.Takes back after) :
    loader.Takes (front ++ back) after := by
  induction hfront with
  | nil => exact hback
  | cons hfirst _ ih => exact .cons hfirst (ih hback)

/-- A run leaves the errors there were. -/
theorem Takes.errors_eq {loader after : Loader} {records : List Record}
    (h : loader.Takes records after) : after.errors = loader.errors := by
  induction h with
  | nil => rfl
  | cons hfirst _ ih => exact ih.trans hfirst.errors_eq

/-- Lines that are read as records that can be taken take them. -/
theorem foldl_read_of_takes {loader after : Loader} {lines : List (Nat × List Char)}
    {records : List Record} (hlines : ReadAs lines records) (h : loader.Takes records after) :
    lines.foldl read loader = after := by
  induction h generalizing lines with
  | nil =>
    obtain rfl : lines = [] := List.map_eq_nil_iff.mp hlines
    rfl
  | cons hfirst _ ih =>
    obtain ⟨line, rest, rfl, hline, hrest⟩ := List.map_eq_cons_iff.mp hlines
    have hread : Loader.read _ line = _ :=
      (by rw [read, hline] : Loader.read _ line = Loader.add _ line.1 _).trans
        (add_eq_of_accepts hfirst line.1)
    rw [List.foldl_cons, hread]
    exact ih hrest

/-- Whether a loader that has read a header has none of the addresses and names of a body yet. -/
structure Awaits (loader : Loader) (header : Header) (body : List Record) : Prop where
  /-- The end is not read. -/
  start : loader.start = none
  /-- The header is read. -/
  header : loader.header = some header
  /-- The addresses are free. -/
  addresses : ∀ word, .text word ∈ body → loader.memory.get? word.address = none
  /-- The names are free. -/
  names : ∀ name value relocatable, .exported name value relocatable ∈ body →
    loader.exports.get? name = none

/-- The first record of an admitted body is taken, and the loader awaits the rest. -/
theorem Awaits.step {loader : Loader} {header : Header} {record : Record} {rest : List Record}
    (hawaits : loader.Awaits header (record :: rest)) (hadmits : header.Admits (record :: rest)) :
    ∃ next, loader.Accepts record next ∧ next.Awaits header rest := by
  have haddresses : ∀ word, .text word ∈ rest → loader.memory.get? word.address = none :=
    fun word hword => hawaits.addresses word (List.mem_cons_of_mem _ hword)
  have hnames : ∀ name value relocatable, .exported name value relocatable ∈ rest →
      loader.exports.get? name = none :=
    fun name value relocatable hexport =>
      hawaits.names name value relocatable (List.mem_cons_of_mem _ hexport)
  cases record with
  | header name origin length => exact (hadmits.kinds _ List.mem_cons_self).elim
  | finish start => exact (hadmits.kinds _ List.mem_cons_self).elim
  | text word =>
    have hinside := hadmits.words word List.mem_cons_self
    have hnew := hawaits.addresses word List.mem_cons_self
    refine ⟨_, .text word header hawaits.start hawaits.header hinside hnew,
      { start := hawaits.start, header := hawaits.header, names := hnames,
        addresses := fun other hmem => ?_ }⟩
    have hdistinct := hadmits.addresses
    simp only [List.filterMap_cons, Record.word?, List.map_cons, List.nodup_cons] at hdistinct
    have hother : other.address ≠ word.address := by
      intro heq
      refine hdistinct.1 (heq ▸ List.mem_map_of_mem ?_)
      exact List.mem_filterMap.mpr ⟨.text other, hmem, rfl⟩
    rw [Memory.get?_write, if_neg hother]
    exact haddresses other hmem
  | exported name value relocatable =>
    obtain ⟨grown, hdefine⟩ := SymbolTable.exists_define_eq_ok
      (exportedSymbol value relocatable) (hawaits.names name value relocatable List.mem_cons_self)
    refine ⟨_, .exported name value relocatable header grown hawaits.start hawaits.header hdefine,
      { start := hawaits.start, header := hawaits.header, addresses := haddresses,
        names := fun other value relocatable hmem => ?_ }⟩
    have hdistinct := hadmits.names
    simp only [List.filterMap_cons, Record.exportName?, List.nodup_cons] at hdistinct
    have hother : other ≠ name := by
      rintro rfl
      exact hdistinct.1 (List.mem_filterMap.mpr ⟨_, hmem, rfl⟩)
    rw [SymbolTable.get?_define hdefine, if_neg hother]
    exact hnames other value relocatable hmem
  | imported site =>
    have hinside := hadmits.sites site List.mem_cons_self
    exact ⟨_, .imported site header hawaits.start hawaits.header hinside,
      { start := hawaits.start, header := hawaits.header, addresses := haddresses,
        names := hnames }⟩

/-- An admitted body that the loader awaits makes up a run. -/
theorem Awaits.exists_takes {loader : Loader} {header : Header} {body : List Record}
    (hawaits : loader.Awaits header body) (hadmits : header.Admits body) :
    ∃ after, loader.Takes body after ∧ after.Awaits header [] := by
  induction body generalizing loader with
  | nil => exact ⟨loader, .nil loader, hawaits⟩
  | cons record rest ih =>
    obtain ⟨next, haccepts, hnext⟩ := hawaits.step hadmits
    obtain ⟨after, htakes, hafter⟩ := ih hnext hadmits.tail
    exact ⟨after, .cons haccepts htakes, hafter⟩

/-- A header, a body that it admits and an end make up a run from the beginning. -/
theorem exists_takes_file {header : Header} {body : List Record} {start : Word}
    (hfit : header.first.toNat + header.length.toNat ≤ addressLimit)
    (hadmits : header.Admits body) (hstart : header.AllowsStart start) :
    ∃ after, initial.Takes (header.record :: body ++ [.finish start]) after ∧
      after.header = some header ∧ after.start = some start := by
  have hbegin : initial.Accepts header.record { initial with header := some header } :=
    .header header.segmentName header.origin header.length rfl rfl hfit
  have hawaits : Awaits { initial with header := some header } header body :=
    { start := rfl
      header := rfl
      addresses := by simp [initial, Memory.get?, Memory.empty]
      names := by simp [initial, SymbolTable.get?, SymbolTable.empty] }
  obtain ⟨after, htakes, hafter⟩ := hawaits.exists_takes hadmits
  have hend : after.Accepts (.finish start) { after with start := some start } :=
    .finish start header hafter.start hafter.header hstart
  exact ⟨_, .cons hbegin (htakes.append (.cons hend (.nil _))), hafter.header, rfl⟩

end Loader

end PageMachine
