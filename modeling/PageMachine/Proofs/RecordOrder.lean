import Mathlib.Data.List.Perm.Basic
import PageMachine.Proofs.AcceptedFile
import PageMachine.Proofs.ModuleOrder
import PageMachine.Proofs.OperandRole

/-!
# The order of records

Between its first and its last line an object file may have its lines in any order: whether it is
loaded does not change, and of the module only the order of its imports does. Memory, tags and
exports are maps whose keys no two records share. That order in turn counts only where two imported
fields share a bit; otherwise the module is linked to the same image, and if that fails, the one
difference is which of several undefined symbols is met first.

This is about a module that is linked by itself.
-/

namespace PageMachine

open Text (contentLines contentFrom)

/-- Whether two import sites share no bit of a word. -/
def ImportSite.Apart (site other : ImportSite) : Prop :=
  site.address = other.address → site.field.Apart other.field

instance : DecidableRel ImportSite.Apart :=
  fun site other => inferInstanceAs (Decidable (site.address = other.address → _))

instance : Std.Symm fun site other : ImportSite => site.field.Apart other.field :=
  ⟨fun _ _ h => h.symm⟩

instance : Std.Symm ImportSite.Apart :=
  ⟨fun _ _ h haddress => (h haddress.symm).symm⟩

namespace LinkedImage

/-- Fields that share no bits fill a word with the same in each order. -/
theorem fillSites_perm {exports : Std.ExtTreeMap String Symbol} {sites permuted : List ImportSite}
    (hperm : sites.Perm permuted)
    (hapart : sites.Pairwise fun site other => site.field.Apart other.field) (word : Word) :
    fillSites exports word sites = fillSites exports word permuted := by
  refine hperm.foldl_eq' (fun site hsite other hother filled => ?_) word
  by_cases hsame : site = other
  · rw [hsame]
  · exact BitRange.insert_comm (hapart.forall hsite hother hsame) ..

/-- Sites that share no bits are patched to the same in each order. -/
theorem patch_perm_of_apart {exports : Std.ExtTreeMap String Symbol} {memory patched : Memory}
    {sites permuted : List ImportSite} (hperm : sites.Perm permuted)
    (hapart : sites.Pairwise ImportSite.Apart) (h : patch exports memory sites = .ok patched) :
    patch exports memory permuted = .ok patched := by
  refine patch_perm_of_fill hperm (fun address word => ?_) h
  refine fillSites_perm (hperm.filter _) ?_ word
  refine List.pairwise_filter.mpr (hapart.imp fun {site other} hapart hsite hother => hapart ?_)
  exact (of_decide_eq_true hsite).trans (of_decide_eq_true hother).symm

/-- Patching fails only for a symbol that is not exported. -/
theorem patch_eq_error {exports : Std.ExtTreeMap String Symbol} {memory : Memory}
    {sites : List ImportSite} {error : LinkError} (h : patch exports memory sites = .error error) :
    ∃ name, error = .undefinedSymbol name := by
  induction sites generalizing memory with
  | nil => cases h
  | cons site rest ih =>
    unfold patch at h
    split at h
    · exact ⟨site.name, (Except.error.inj h).symm⟩
    · exact ih h

/-- Whether two links have the same result, up to which undefined symbol is reported. -/
inductive Alike : Except LinkError LinkedImage → Except LinkError LinkedImage → Prop
  | same (result : Except LinkError LinkedImage) : Alike result result
  | undefined (name other : String) :
      Alike (.error (.undefinedSymbol name)) (.error (.undefinedSymbol other))

/-- A module at its place is linked by patching its imports into its memory. -/
theorem exists_ofPlaced_eq_map (module : ObjectModule) :
    ∃ exports, ∀ sites, ofPlaced { module with imports := sites } [] =
      (patch exports module.memory sites).map
        fun memory => ⟨memory, module.start, module.segmentName⟩ := by
  obtain ⟨exports, hexports, -⟩ := exists_collectExports module
  refine ⟨exports, fun sites => ?_⟩
  have hcollect : collectExports [{ module with imports := sites }] = .ok exports := hexports
  have hjoin : joinModules [{ module with imports := sites }] = .ok module.memory :=
    joinModules_singleton module
  unfold ofPlaced
  dsimp only
  rw [hcollect, hjoin, List.flatMap_singleton]
  dsimp only [bind, Except.bind]
  cases patch exports module.memory sites <;> rfl

/-- A module at its place is linked alike with its imports in each order, if they share no bits. -/
theorem alike_ofPlaced (module : ObjectModule) {sites permuted : List ImportSite}
    (hperm : sites.Perm permuted) (hapart : sites.Pairwise ImportSite.Apart) :
    Alike (ofPlaced { module with imports := sites } [])
      (ofPlaced { module with imports := permuted } []) := by
  obtain ⟨exports, hplaced⟩ := exists_ofPlaced_eq_map module
  rw [hplaced, hplaced]
  cases hfirst : patch exports module.memory sites with
  | ok memory =>
    rw [patch_perm_of_apart hperm hapart hfirst]
    exact .same _
  | error error =>
    obtain ⟨name, rfl⟩ := patch_eq_error hfirst
    cases hsecond : patch exports module.memory permuted with
    | ok memory =>
      have hback := patch_perm_of_apart hperm.symm ((hperm.pairwise_iff symm).mp hapart) hsecond
      cases hfirst.symm.trans hback
    | error error =>
      obtain ⟨other, rfl⟩ := patch_eq_error hsecond
      exact .undefined name other

end LinkedImage

namespace ObjectModule

/-- Placing a module moves its imports one by one, and does not depend on them otherwise. -/
theorem exists_placeFirst_eq_map (module : ObjectModule) (base : Option Word) :
    ∃ move : Word → Word, Function.Injective move ∧
      ∀ sites, ({ module with imports := sites } : ObjectModule).placeFirst base =
        (module.placeFirst base).map fun placed => { placed with
          imports := sites.map fun site => { site with address := move site.address } } := by
  cases base with
  | none => exact ⟨id, Function.injective_id, fun sites => by simp [placeFirst, Except.map]⟩
  | some address =>
    refine ⟨shift ((address.toNat : Int) - module.origin.toNat), fun _ _ => shift_inj.mp,
      fun sites => ?_⟩
    unfold placeFirst
    dsimp only
    by_cases hmoves : module.relocatable = true
    · have hother : ({ module with imports := sites } : ObjectModule).relocatable = true := hmoves
      rw [if_pos hmoves, if_pos hmoves, relocate_of_relocatable hmoves,
        relocate_of_relocatable hother]
      dsimp only
      split <;> rfl
    · rw [if_neg hmoves, if_neg hmoves]
      by_cases horigin : address = module.origin
      · subst horigin
        rw [if_pos rfl, if_pos rfl, Int.sub_self]
        simp [Except.map, shift_zero]
      · rw [if_neg horigin, if_neg horigin]
        rfl

end ObjectModule

/-- A module by itself is linked alike at each base with its imports in each order, if they share no
bits. -/
theorem alike_link (module : ObjectModule) {sites permuted : List ImportSite}
    (hperm : sites.Perm permuted) (hapart : sites.Pairwise ImportSite.Apart) (base : Option Word) :
    LinkedImage.Alike (link [{ module with imports := sites }] base)
      (link [{ module with imports := permuted }] base) := by
  obtain ⟨move, hinjective, hmoved⟩ := module.exists_placeFirst_eq_map base
  cases hplaced : module.placeFirst base with
  | error error =>
    have hfails : ∀ imports, link [{ module with imports := imports }] base = .error error := by
      intro imports
      have hfirst := hmoved imports
      rw [hplaced] at hfirst
      simp [link, hfirst, Except.map, bind, Except.bind]
    rw [hfails, hfails]
    exact .same _
  | ok placed =>
    rw [hplaced] at hmoved
    rw [link_singleton (hmoved sites), link_singleton (hmoved permuted)]
    refine LinkedImage.alike_ofPlaced placed (hperm.map _) ?_
    exact List.pairwise_map.mpr (hapart.imp fun hapart haddress => hapart (hinjective haddress))

/-- The lines that count, without the blanks at their ends. -/
def Text.trimmedLines (lines : List String) : List (List Char) :=
  (lines.map fun line => trim line.toList).filter (· ≠ [])

/-- The content of a file without the numbers of lines is its trimmed lines. -/
theorem Text.map_snd_contentFrom (first : Nat) (lines : List String) :
    (contentFrom first lines).map Prod.snd = trimmedLines lines := by
  unfold trimmedLines
  induction lines generalizing first with
  | nil => rfl
  | cons line rest ih =>
    rw [contentFrom_cons, List.map_cons, List.filter_cons, ← ih (first + 1)]
    by_cases hblank : trim line.toList = [] <;> simp [hblank]

/-- Lines in another order have their trimmed lines in another order. -/
theorem Text.perm_trimmedLines {lines permuted : List String} (hperm : lines.Perm permuted) :
    (trimmedLines lines).Perm (trimmedLines permuted) :=
  (hperm.map _).filter _

/-- A text is read as a file line by line, if its first and its last line are not blank. -/
theorem readAs_file_iff {text first last : String} {lines : List String}
    (hlines : Text.lines text = first :: lines ++ [last]) (hfirst : Text.trim first.toList ≠ [])
    (hlast : Text.trim last.toList ≠ []) {header : Header} {records : List Record} {start : Word} :
    ReadAs (contentLines text) (header.file records start) ↔
      Record.ofChars (Text.trim first.toList) = .ok header.record ∧
        (Text.trimmedLines lines).map Record.ofChars = records.map .ok ∧
        Record.ofChars (Text.trim last.toList) = .ok (.finish start) := by
  have hcontent : (contentLines text).map Prod.snd =
      Text.trim first.toList :: Text.trimmedLines lines ++ [Text.trim last.toList] := by
    rw [contentLines, Text.map_snd_contentFrom, hlines]
    simp [Text.trimmedLines, hfirst, hlast]
  rw [ReadAs, ← Function.comp_def Record.ofChars, ← List.map_map, hcontent, Header.file]
  simp only [List.map_append, List.map_cons, List.map_nil, List.cons_append, List.cons.injEq]
  refine and_congr_right fun _ => ⟨fun hrest => ?_, ?_⟩
  · obtain ⟨hbody, hfinish⟩ := List.append_inj' hrest rfl
    exact ⟨hbody, (List.cons.inj hfinish).1⟩
  · rintro ⟨hbody, hfinish⟩
    rw [hbody, hfinish]

/-- Lines are read in each order, as the same records in another order. -/
theorem exists_map_eq_of_perm {lines permuted : List (List Char)} {records : List Record}
    (hperm : lines.Perm permuted) (h : lines.map Record.ofChars = records.map .ok) :
    ∃ reordered : List Record, permuted.map Record.ofChars = reordered.map .ok ∧
      reordered.Perm records := by
  have hread : ∀ {lines : List (List Char)} {records : List Record},
      lines.map Record.ofChars = records.map .ok ↔
        List.Forall₂ (fun line record => Record.ofChars line = .ok record) lines records := by
    intro lines records
    rw [← List.forall₂_eq_eq_eq, List.forall₂_map_left_iff, List.forall₂_map_right_iff]
  obtain ⟨reordered, hlines, hrecords⟩ := List.perm_comp_forall₂ hperm.symm (hread.mp h)
  exact ⟨reordered, hread.mpr hlines, hrecords⟩

/-- A text between a first and a last line that are not blank is read as a file in each order of
the lines between, as the same records in another order. -/
theorem exists_readAs_of_perm {text permuted first last : String} {body others : List String}
    (htext : Text.lines text = first :: body ++ [last])
    (hpermuted : Text.lines permuted = first :: others ++ [last]) (hperm : body.Perm others)
    (hfirst : Text.trim first.toList ≠ []) (hlast : Text.trim last.toList ≠ []) {header : Header}
    {records : List Record} {start : Word}
    (h : ReadAs (contentLines text) (header.file records start)) :
    ∃ reordered, ReadAs (contentLines permuted) (header.file reordered start) ∧
      reordered.Perm records := by
  obtain ⟨hheader, hbody, hfinish⟩ := (readAs_file_iff htext hfirst hlast).mp h
  obtain ⟨reordered, hlines, hrecords⟩ :=
    exists_map_eq_of_perm (Text.perm_trimmedLines hperm) hbody
  exact ⟨reordered, (readAs_file_iff hpermuted hfirst hlast).mpr ⟨hheader, hlines, hfinish⟩,
    hrecords⟩

/-- A file stays one with its body in another order. -/
theorem Header.Heads.perm {header : Header} {body others : List Record} {start : Word}
    (h : header.Heads body start) (hperm : body.Perm others) : header.Heads others start := by
  obtain ⟨hcovers, haddresses, hnames⟩ := Header.admits_iff.mp h.admits
  refine ⟨h.fits, Header.admits_iff.mpr ⟨fun record hrecord => ?_, ?_, ?_⟩, h.start⟩
  · exact hcovers record (hperm.mem_iff.mpr hrecord)
  · exact ((hperm.filterMap Record.word?).map TaggedWord.address).nodup_iff.mp haddresses
  · exact (hperm.filterMap Record.exportName?).nodup_iff.mp hnames

/-- A module that holds a file holds the one with its body in another order, but for the order of
its imports. -/
theorem ObjectModule.HoldsFile.perm {module : ObjectModule} {header : Header}
    {body others : List Record} {start : Word} (h : module.HoldsFile header body start)
    (hperm : body.Perm others) :
    ({ module with imports := others.filterMap Record.site? } : ObjectModule).HoldsFile header
      others start where
  segmentName := h.segmentName
  origin := h.origin
  length := h.length
  relocatable := h.relocatable
  start := h.start
  memory := fun address value => (h.memory address value).trans (by simp only [hperm.mem_iff])
  tags := fun address tag => (h.tags address tag).trans (by simp only [hperm.mem_iff])
  exports := fun name symbol => (h.exports name symbol).trans (by simp only [hperm.mem_iff])
  imports := rfl

/-- A text that is loaded is loaded with the lines between its first and its last in another order,
as a module that differs in the order of its imports only. -/
theorem exists_load_of_perm {text permuted first last : String} {body others : List String}
    (htext : Text.lines text = first :: body ++ [last])
    (hpermuted : Text.lines permuted = first :: others ++ [last]) (hperm : body.Perm others)
    (hfirst : Text.trim first.toList ≠ []) (hlast : Text.trim last.toList ≠ [])
    {module : ObjectModule} (h : load text = .ok module) :
    ∃ sites, module.imports.Perm sites ∧ load permuted = .ok { module with imports := sites } := by
  obtain ⟨header, records, start, hread, hheads, hholds⟩ := load_eq_ok_iff.mp h
  obtain ⟨reordered, hreordered, hrecords⟩ :=
    exists_readAs_of_perm htext hpermuted hperm hfirst hlast hread
  refine ⟨reordered.filterMap Record.site?, ?_, load_eq_ok_iff.mpr ⟨header, reordered, start,
    hreordered, hheads.perm hrecords.symm, hholds.perm hrecords.symm⟩⟩
  rw [hholds.imports]
  exact (hrecords.symm).filterMap _

/-- The lines of an object file between its first and its last, neither of which is blank, may come
in any order. The text is loaded in each order or in none; the modules differ in the order of their
imports only; and if no two imports share a bit of a word, then each module by itself is linked
alike at every base, up to which undefined symbol is reported. -/
theorem load_of_reordered {text permuted first last : String} {body others : List String}
    (htext : Text.lines text = first :: body ++ [last])
    (hpermuted : Text.lines permuted = first :: others ++ [last]) (hperm : body.Perm others)
    (hfirst : Text.trim first.toList ≠ []) (hlast : Text.trim last.toList ≠ []) :
    ((∃ module, load text = .ok module) ↔ ∃ module, load permuted = .ok module) ∧
      ∀ module other, load text = .ok module → load permuted = .ok other →
        other = { module with imports := other.imports } ∧ module.imports.Perm other.imports ∧
          (module.imports.Pairwise ImportSite.Apart →
            ∀ base, LinkedImage.Alike (link [module] base) (link [other] base)) := by
  refine ⟨⟨?_, ?_⟩, fun module other hmodule hother => ?_⟩
  · rintro ⟨module, hmodule⟩
    obtain ⟨sites, -, hload⟩ := exists_load_of_perm htext hpermuted hperm hfirst hlast hmodule
    exact ⟨_, hload⟩
  · rintro ⟨module, hmodule⟩
    obtain ⟨sites, -, hload⟩ := exists_load_of_perm hpermuted htext hperm.symm hfirst hlast hmodule
    exact ⟨_, hload⟩
  · obtain ⟨sites, hsites, hload⟩ := exists_load_of_perm htext hpermuted hperm hfirst hlast hmodule
    obtain rfl := Except.ok.inj (hother.symm.trans hload)
    exact ⟨rfl, hsites, alike_link module hsites⟩

/-- The lines between the header and the end of a file that exports a constant and imports it
twice. -/
def constantBody : List String :=
  ["T00001020", "T00017040", "", "XA0003K", "I000040K", "I000150K"]

/-- A file with the given lines between its header and its end. -/
def constantText (body : List String) : String :=
  Text.unlines ("HDemo  MMMM0002" :: body ++ ["E0000"])

/-- The file of constants is loaded with its body in the other direction, and linked to the same
image. -/
theorem load_of_reordered_constantBody :
    ∃ module other image, load (constantText constantBody) = .ok module ∧
      load (constantText constantBody.reverse) = .ok other ∧
      other.imports ≠ module.imports ∧ other.imports.Perm module.imports ∧
      link [module] (some 0x0300) = .ok image ∧ link [other] (some 0x0300) = .ok image := by
  have hlines : ∀ body ∈ [constantBody, constantBody.reverse],
      Text.lines (constantText body) = "HDemo  MMMM0002" :: body ++ ["E0000"] := by
    intro body hbody
    refine Text.lines_unlines ?_
    revert body
    decide +kernel
  obtain ⟨hexists, hsame⟩ := load_of_reordered (hlines constantBody (by simp))
    (hlines constantBody.reverse (by simp)) (List.reverse_perm constantBody).symm
    (by decide +kernel) (by decide +kernel)
  have hbuilt : ((load (constantText constantBody)).toOption.map fun module =>
      (module.imports.map ImportSite.address, decide (module.imports.Pairwise ImportSite.Apart),
        (link [module] (some 0x0300)).isOk)) = some ([0, 1], true, true) := by
    decide +kernel
  have hother : ((load (constantText constantBody.reverse)).toOption.map fun module =>
      module.imports.map ImportSite.address) = some [1, 0] := by
    decide +kernel
  obtain ⟨module, hmodule⟩ := okValue (load (constantText constantBody)) (by decide +kernel)
  obtain ⟨other, hload⟩ := hexists.mp ⟨module, hmodule⟩
  obtain ⟨-, hperm, halike⟩ := hsame module other hmodule hload
  rw [hmodule] at hbuilt
  rw [hload] at hother
  obtain ⟨himports, hrest⟩ := Prod.mk.inj (Option.some.inj hbuilt)
  obtain ⟨hapart, hlinks⟩ := Prod.mk.inj hrest
  have hreversed : other.imports.map ImportSite.address = [1, 0] := Option.some.inj hother
  obtain ⟨image, himage⟩ := okValue (link [module] (some 0x0300)) hlinks
  have hlinked := halike (of_decide_eq_true hapart) (some 0x0300)
  rw [himage] at hlinked
  refine ⟨module, other, image, hmodule, hload, fun heq => ?_, hperm.symm, himage, ?_⟩
  · rw [heq, himports] at hreversed
    exact absurd hreversed (by decide)
  · generalize link [other] (some 0x0300) = result at hlinked
    cases hlinked
    rfl

end PageMachine
