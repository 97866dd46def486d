import PageMachine.Proofs.PatchedWord

/-!
# Absolute modules in another order

Modules that stay where they are can be linked in any order. Exports and words are collected by
keys, each of which only one module may have, so that the collections do not depend on the order of
their entries. Where several import sites fill one word their order does matter; but if modules fill
their own words, the sites in a word belong to one module and follow one another as they did.
-/

namespace PageMachine

/-- Memories with the same words at the same written addresses are the same. -/
theorem Memory.ext_read {left right : Memory}
    (hread : ∀ address, left.read address = right.read address)
    (hwritten : ∀ address, (left.get? address).isSome = true ↔ (right.get? address).isSome = true) :
    left = right := by
  refine Memory.ext_get? fun address => ?_
  have hword := hread address
  have hboth := hwritten address
  rw [Memory.read, Memory.read] at hword
  cases hleft : left.get? address with
  | none =>
    rw [hleft] at hboth
    exact (Option.not_isSome_iff_eq_none.mp (by simpa using hboth)).symm
  | some word =>
    obtain ⟨other, hright⟩ := Option.isSome_iff_exists.mp (hboth.mp (by rw [hleft]; rfl))
    rw [hleft, hright] at hword
    rw [hright, show word = other from hword]

namespace LinkedImage

/-- Lists of which no two share an item are joined to the same in each order. -/
theorem flatMap_eq_of_perm {Item Part : Type} {parts : Item → List Part}
    {items permuted : List Item} (hperm : items.Perm permuted)
    (hapart : items.Pairwise fun item other => parts item = [] ∨ parts other = []) :
    items.flatMap parts = permuted.flatMap parts := by
  induction hperm with
  | nil => rfl
  | cons item _ ih =>
    rw [List.flatMap_cons, List.flatMap_cons, ih hapart.of_cons]
  | swap item other rest =>
    simp only [List.flatMap_cons]
    rcases List.rel_of_pairwise_cons hapart List.mem_cons_self with hnil | hnil <;> simp [hnil]
  | trans hfirst _ ihfirst ihsecond =>
    rw [ihfirst hapart, ihsecond ((hfirst.pairwise_iff Or.symm).mp hapart)]

namespace Collects

variable {All Key Value Error : Type} [DecidableEq Key] {find : All → Key → Option Value}
  {add : All → Key → Value → All} {collect : All → List (Key × Value) → Except Error All}
  (hcollects : Collects find add collect)
include hcollects

/-- Entries are collected to the same in each order. -/
theorem perm (hext : ∀ {left right}, (∀ key, find left key = find right key) → left = right)
    {all after : All} {entries permuted : List (Key × Value)} (hperm : entries.Perm permuted)
    (h : collect all entries = .ok after) : collect all permuted = .ok after := by
  obtain ⟨hnodup, hnew, hfind⟩ := hcollects.spec h
  obtain ⟨other, hother⟩ := hcollects.exists_collected ((hperm.map Prod.fst).nodup_iff.mp hnodup)
    fun entry hentry => hnew entry (hperm.mem_iff.mpr hentry)
  have hsame : other = after := by
    refine hext fun key => Option.ext fun value => ?_
    rw [hfind, (hcollects.spec hother).2.2, hperm.mem_iff]
  rw [hother, hsame]

end Collects

/-- Sites can be patched if what they name is exported. -/
theorem exists_patch {exports : Std.ExtTreeMap String Symbol} {sites : List ImportSite}
    (h : ∀ site ∈ sites, (exports[site.name]?).isSome = true) (memory : Memory) :
    ∃ patched, patch exports memory sites = .ok patched := by
  induction sites generalizing memory with
  | nil => exact ⟨memory, rfl⟩
  | cons site rest ih =>
    rw [List.forall_mem_cons] at h
    obtain ⟨symbol, hsymbol⟩ := Option.isSome_iff_exists.mp h.1
    simp only [patch, hsymbol]
    exact ih h.2 _

/-- Sites are patched to the same in each order in which they fill each word with the same. -/
theorem patch_perm_of_fill {exports : Std.ExtTreeMap String Symbol} {memory patched : Memory}
    {sites permuted : List ImportSite} (hperm : sites.Perm permuted)
    (hfill : ∀ address word : Word,
      fillSites exports word (sites.filter fun site => site.address = address) =
        fillSites exports word (permuted.filter fun site => site.address = address))
    (h : patch exports memory sites = .ok patched) :
    patch exports memory permuted = .ok patched := by
  obtain ⟨hnames, hread, hwritten⟩ := patch_spec h
  obtain ⟨other, hother⟩ :=
    exists_patch (fun site hsite => hnames site (hperm.mem_iff.mpr hsite)) memory
  obtain ⟨-, hotherRead, hotherWritten⟩ := patch_spec hother
  have hsame : other = patched := by
    refine Memory.ext_read (fun address => ?_) fun address => ?_
    · rw [hread, hotherRead, hfill]
    · rw [hwritten, hotherWritten]
      simp only [hperm.mem_iff]
  rw [hother, hsame]

/-- Sites are patched to the same in each order that keeps the order at each address. -/
theorem patch_perm {exports : Std.ExtTreeMap String Symbol} {memory patched : Memory}
    {sites permuted : List ImportSite} (hperm : sites.Perm permuted)
    (horder : ∀ address : Word, sites.filter (fun site => site.address = address) =
      permuted.filter fun site => site.address = address)
    (h : patch exports memory sites = .ok patched) :
    patch exports memory permuted = .ok patched :=
  patch_perm_of_fill hperm (fun address word => by rw [horder]) h

/-- The import sites at an address, if modules that fill their own words are joined, are those of
one module. -/
theorem pairwise_filter_imports {modules : List ObjectModule} {joined : Memory}
    (hjoined : joinModules modules = .ok joined) (hown : ∀ module ∈ modules, module.FillsOwnWords)
    (address : Word) :
    modules.Pairwise fun module other =>
      (module.imports.filter fun site => site.address = address) = [] ∨
        (other.imports.filter fun site => site.address = address) = [] := by
  have hword : ∀ module ∈ modules,
      (module.imports.filter fun site => site.address = address) ≠ [] →
        ∃ word, (address, word) ∈ module.memory.toList := by
    intro module hmodule hne
    obtain ⟨site, hsite⟩ := List.exists_mem_of_ne_nil _ hne
    obtain ⟨hsite, haddress⟩ := List.mem_filter.mp hsite
    obtain ⟨word, hword⟩ := Option.isSome_iff_exists.mp (hown module hmodule site hsite)
    rw [of_decide_eq_true haddress] at hword
    exact ⟨word, Memory.mem_toList_iff.mpr hword⟩
  refine (pairwise_of_nodup_flatMap (collects_join.spec hjoined).1).imp_of_mem ?_
  intro module other hmodule hother hapart
  by_contra hboth
  rw [not_or] at hboth
  obtain ⟨word, hword'⟩ := hword module hmodule hboth.1
  obtain ⟨twin, htwin⟩ := hword other hother hboth.2
  exact hapart _ hword' _ htwin rfl

/-- The steps of combining modules. -/
theorem combine_eq_ok_iff {modules : List ObjectModule} {memory : Memory} :
    combine modules = .ok memory ↔
      ∃ exports joined, collectExports modules = .ok exports ∧ joinModules modules = .ok joined ∧
        patch exports joined (modules.flatMap ObjectModule.imports) = .ok memory := by
  constructor
  · intro h
    obtain ⟨exports, hexports, h⟩ := exists_of_bind_eq_ok h
    obtain ⟨joined, hjoined, hpatch⟩ := exists_of_bind_eq_ok h
    exact ⟨exports, joined, hexports, hjoined, hpatch⟩
  · rintro ⟨exports, joined, hexports, hjoined, hpatch⟩
    rw [combine, hexports]
    simp only [bind, Except.bind, hjoined, hpatch]

/-- Modules that fill their own words are combined to the same memory in each order. -/
theorem combine_perm {modules permuted : List ObjectModule} (hperm : modules.Perm permuted)
    (hown : ∀ module ∈ modules, module.FillsOwnWords) {memory : Memory}
    (h : combine modules = .ok memory) : combine permuted = .ok memory := by
  obtain ⟨exports, joined, hexports, hjoined, hpatch⟩ := combine_eq_ok_iff.mp h
  refine combine_eq_ok_iff.mpr ⟨exports, joined, ?_, ?_, ?_⟩
  · exact collects_addExports.perm Std.ExtTreeMap.ext_getElem? (hperm.flatMap_right _) hexports
  · exact collects_join.perm Memory.ext_get? (hperm.flatMap_right _) hjoined
  · refine patch_perm (hperm.flatMap_right _) (fun address => ?_) hpatch
    rw [List.filter_flatMap, List.filter_flatMap]
    exact flatMap_eq_of_perm hperm (pairwise_filter_imports hjoined hown address)

/-- Modules that have their places are linked exactly if they can be combined and, if there are
several, on one page. -/
theorem ofPlaced_eq_ok_iff {first : ObjectModule} {rest : List ObjectModule}
    {image : LinkedImage} :
    ofPlaced first rest = .ok image ↔
      combine (first :: rest) = .ok image.memory ∧
        (rest ≠ [] → checkPage image.memory = .ok ()) ∧
        image.start = first.start ∧ image.segmentName = first.segmentName := by
  constructor
  · intro h
    obtain ⟨exports, joined, hexports, hjoined, hpatch, hstart, hname⟩ := ofPlaced_eq_ok h
    exact ⟨combine_eq_ok_iff.mpr ⟨exports, joined, hexports, hjoined, hpatch⟩,
      fun hrest => checkPage_of_ofPlaced hrest h, hstart, hname⟩
  · rintro ⟨hcombine, hpage, hstart, hname⟩
    obtain ⟨memory, start, segmentName⟩ := image
    dsimp only at hcombine hpage hstart hname
    subst hstart hname
    cases rest with
    | nil =>
      obtain ⟨exports, joined, hexports, hjoined, hpatch⟩ := combine_eq_ok_iff.mp hcombine
      rw [ofPlaced, hexports]
      simp only [bind, Except.bind, hjoined, hpatch]
      rfl
    | cons second others => exact ofPlaced_eq hcombine (hpage (List.cons_ne_nil _ _))

/-- Absolute modules are already at their places. -/
theorem placeRest_eq_self {modules : List ObjectModule}
    (hfixed : ∀ module ∈ modules, module.relocatable = false) (previous : ObjectModule) :
    placeRest previous modules = .ok modules := by
  induction modules generalizing previous with
  | nil => rfl
  | cons module rest ih =>
    rw [List.forall_mem_cons] at hfixed
    simp [placeRest, ObjectModule.placeAfter_eq_self hfixed.1, ih hfixed.2, bind, Except.bind, pure,
      Except.pure]

/-- Absolute modules are linked exactly if they can be combined and, if there are several, on one
page. -/
theorem link_eq_ok_iff {modules : List ObjectModule}
    (hfixed : ∀ module ∈ modules, module.relocatable = false) {image : LinkedImage} :
    link modules none = .ok image ↔
      ∃ first, modules.head? = some first ∧ combine modules = .ok image.memory ∧
        (1 < modules.length → checkPage image.memory = .ok ()) ∧
        image.start = first.start ∧ image.segmentName = first.segmentName := by
  cases modules with
  | nil => simp [link]
  | cons first rest =>
    rw [List.forall_mem_cons] at hfixed
    have hlink : link (first :: rest) none = ofPlaced first rest := by
      simp [link, ObjectModule.placeFirst, placeRest_eq_self hfixed.2, bind, Except.bind]
    rw [hlink, ofPlaced_eq_ok_iff]
    cases rest <;> simp

/-- Absolute modules that fill their own words can be linked in each order if they can be in one. -/
theorem exists_link_of_perm {modules permuted : List ObjectModule} (hperm : modules.Perm permuted)
    (hfixed : ∀ module ∈ modules, module.relocatable = false)
    (hown : ∀ module ∈ modules, module.FillsOwnWords)
    (h : ∃ image, link modules none = .ok image) : ∃ image, link permuted none = .ok image := by
  obtain ⟨image, himage⟩ := h
  obtain ⟨first, hfirst, hcombine, hpage, -⟩ := (link_eq_ok_iff hfixed).mp himage
  have hfixed' : ∀ module ∈ permuted, module.relocatable = false :=
    fun module hmodule => hfixed module (hperm.mem_iff.mpr hmodule)
  obtain ⟨head, hhead⟩ : ∃ head, permuted.head? = some head := by
    cases permuted with
    | nil =>
      obtain rfl := hperm.eq_nil
      cases hfirst
    | cons head rest => exact ⟨head, rfl⟩
  rw [hperm.length_eq] at hpage
  exact ⟨⟨image.memory, head.start, head.segmentName⟩, (link_eq_ok_iff hfixed').mpr
    ⟨head, hhead, combine_perm hperm hown hcombine, hpage, rfl, rfl⟩⟩

end LinkedImage

/-- Absolute modules that fill their own words are linked in each order or in none, to the same
memory; the start and the segment's name are those of the module that comes first. -/
theorem link_perm {modules permuted : List ObjectModule} (hperm : modules.Perm permuted)
    (hfixed : ∀ module ∈ modules, module.relocatable = false)
    (hown : ∀ module ∈ modules, module.FillsOwnWords) :
    ((∃ image, link modules none = .ok image) ↔ ∃ image, link permuted none = .ok image) ∧
      ∀ image other, link modules none = .ok image → link permuted none = .ok other →
        other.memory = image.memory ∧
          ∀ first ∈ permuted.head?, other.start = first.start ∧
            other.segmentName = first.segmentName := by
  have hfixed' : ∀ module ∈ permuted, module.relocatable = false :=
    fun module hmodule => hfixed module (hperm.mem_iff.mpr hmodule)
  have hown' : ∀ module ∈ permuted, module.FillsOwnWords :=
    fun module hmodule => hown module (hperm.mem_iff.mpr hmodule)
  refine ⟨⟨LinkedImage.exists_link_of_perm hperm hfixed hown,
    LinkedImage.exists_link_of_perm hperm.symm hfixed' hown'⟩, fun image other himage hother => ?_⟩
  obtain ⟨_, -, hcombine, -⟩ := (LinkedImage.link_eq_ok_iff hfixed).mp himage
  obtain ⟨head, hhead, hcombine', -, hstart, hname⟩ :=
    (LinkedImage.link_eq_ok_iff hfixed').mp hother
  refine ⟨Except.ok.inj (hcombine'.symm.trans (LinkedImage.combine_perm hperm hown hcombine)),
    fun first hfirst => ?_⟩
  obtain rfl := Option.some.inj (hhead.symm.trans hfirst)
  exact ⟨hstart, hname⟩

/-- The lines of a program that calls a routine of another module, at a place of its own. -/
def fixedCallLines : List String :=
  ["         .ORIG   x0180", "         .EXT    Sub", "         JSR     Sub", "         TRAP    x25",
    "         .END"]

/-- The program that calls from a place of its own, and its module. -/
def fixedCall : Build "main" fixedCallLines :=
  .ofLines (by decide +kernel)

/-- The memory of the calling module and the routine. -/
def fixedCallMemory :
    { memory // LinkedImage.combine [fixedCall.module, fixedRoutine.module] = .ok memory } :=
  okValue _ (by decide +kernel)

/-- The calling module and the routine are absolute. -/
theorem relocatable_fixedCall :
    ∀ module ∈ [fixedCall.module, fixedRoutine.module], module.relocatable = false := by
  simp only [List.forall_mem_cons, List.not_mem_nil, false_implies, implies_true, and_true]
  constructor <;> decide +kernel

/-- The calling module and the routine are linked. -/
theorem link_fixedCall :
    link [fixedCall.module, fixedRoutine.module] none =
      .ok ⟨fixedCallMemory.1, fixedCall.module.start, fixedCall.module.segmentName⟩ := by
  have haddresses : fixedCallMemory.1.toList.map Prod.fst = [0x100, 0x180, 0x181] := by
    decide +kernel
  have hpage := LinkedImage.checkPage_eq_ok haddresses (by simp [pageOf])
  have hplaced : fixedCall.module.placeFirst none = .ok fixedCall.module := rfl
  have hstays : fixedRoutine.module.relocatable = false := relocatable_fixedCall _ (by simp)
  rw [link_pair hplaced (ObjectModule.placeAfter_eq_self hstays _)]
  exact LinkedImage.ofPlaced_eq fixedCallMemory.2 hpage

/-- In the other order the calling module and the routine are linked to the same memory, and then
start with the routine. -/
theorem link_fixedCall_swap :
    ∃ image other, link [fixedCall.module, fixedRoutine.module] none = .ok image ∧
      link [fixedRoutine.module, fixedCall.module] none = .ok other ∧
      other.memory = image.memory ∧ image.start = 0x180 ∧ other.start = 0x100 := by
  have hown : ∀ module ∈ [fixedCall.module, fixedRoutine.module], module.FillsOwnWords := by
    simp [fixedCall.module_assembled.fillsOwnWords, fixedRoutine.module_assembled.fillsOwnWords]
  obtain ⟨hexists, hsame⟩ := link_perm (List.Perm.swap fixedRoutine.module fixedCall.module [])
    relocatable_fixedCall hown
  obtain ⟨other, hother⟩ := hexists.mp ⟨_, link_fixedCall⟩
  obtain ⟨hmemory, hfirst⟩ := hsame _ _ link_fixedCall hother
  have hstart : fixedCall.module.start = 0x180 := by decide +kernel
  have hotherStart : fixedRoutine.module.start = 0x100 := by decide +kernel
  exact ⟨_, _, link_fixedCall, hother, hmemory, hstart,
    (hfirst fixedRoutine.module rfl).1.trans hotherStart⟩

end PageMachine
