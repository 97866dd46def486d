import PageMachine.LinkedImage
import PageMachine.Proofs.Moving
import PageMachine.Proofs.Result

/-!
# What a link builds

Joining and collecting exports succeed exactly when nothing is there twice, and then give what was
listed. Patching changes an address only through the import sites there, in their order. A link is
taken apart into these steps once; of a module that is linked alone nothing is left to do but to
find its imports, which it never exports itself, undefined. The page check matters only for the
order of errors here and is left out otherwise.
-/

namespace PageMachine

namespace LinkedImage

/-- Whether a loop adds entries one by one and stops at one whose key is there. -/
structure Collects {All Key Value Error : Type} [DecidableEq Key] (find : All → Key → Option Value)
    (add : All → Key → Value → All) (collect : All → List (Key × Value) → Except Error All) :
    Prop where
  /-- What is added is found, and nothing else changes. -/
  find_add : ∀ all key value other,
    find (add all key value) other = if other = key then some value else find all other
  /-- The loop ends with the entries. -/
  nil : ∀ all, collect all [] = .ok all
  /-- An entry with a new key is added. -/
  added : ∀ all first rest, find all first.1 = none →
    collect all (first :: rest) = collect (add all first.1 first.2) rest
  /-- An entry with a key that is there is refused. -/
  refused : ∀ all first rest after, collect all (first :: rest) = .ok after →
    find all first.1 = none

namespace Collects

variable {All Key Value Error : Type} [DecidableEq Key] {find : All → Key → Option Value}
  {add : All → Key → Value → All} {collect : All → List (Key × Value) → Except Error All}
  (hcollects : Collects find add collect)
include hcollects

/-- Entries that could be collected have different new keys, and then the collection consists of
them and what was there. -/
theorem spec {all after : All} {entries : List (Key × Value)}
    (h : collect all entries = .ok after) :
    (entries.map Prod.fst).Nodup ∧ (∀ entry ∈ entries, find all entry.1 = none) ∧
      ∀ key value, find after key = some value ↔
        (key, value) ∈ entries ∨ find all key = some value := by
  induction entries generalizing all with
  | nil =>
    rw [hcollects.nil] at h
    obtain rfl := Except.ok.inj h
    simp
  | cons first rest ih =>
    have hfree := hcollects.refused _ _ _ _ h
    rw [hcollects.added _ _ _ hfree] at h
    obtain ⟨hnodup, hnew, hfind⟩ := ih h
    have hrest : ∀ entry ∈ rest, entry.1 ≠ first.1 ∧ find all entry.1 = none := by
      intro entry hentry
      have hnone := hnew entry hentry
      rw [hcollects.find_add] at hnone
      split at hnone
      · cases hnone
      · rename_i hne
        exact ⟨hne, hnone⟩
    refine ⟨?_, ?_, fun key value => ?_⟩
    · rw [List.map_cons, List.nodup_cons]
      refine ⟨fun hmem => ?_, hnodup⟩
      obtain ⟨entry, hentry, heq⟩ := List.mem_map.mp hmem
      exact (hrest entry hentry).1 heq
    · exact List.forall_mem_cons.mpr ⟨hfree, fun entry hentry => (hrest entry hentry).2⟩
    · rw [hfind, hcollects.find_add, List.mem_cons]
      by_cases hkey : key = first.1
      · subst hkey
        have hnot : (first.1, value) ∉ rest := fun hmem => (hrest _ hmem).1 rfl
        simp [hfree, hnot, Prod.ext_iff, eq_comm]
      · have hne : (key, value) ≠ first := fun heq => hkey (congrArg Prod.fst heq)
        simp [hkey, hne]

/-- Entries with different new keys can be collected. -/
theorem exists_collected {all : All} {entries : List (Key × Value)}
    (hnodup : (entries.map Prod.fst).Nodup) (hnew : ∀ entry ∈ entries, find all entry.1 = none) :
    ∃ after, collect all entries = .ok after := by
  induction entries generalizing all with
  | nil => exact ⟨all, hcollects.nil all⟩
  | cons first rest ih =>
    rw [List.map_cons, List.nodup_cons] at hnodup
    rw [hcollects.added _ _ _ (hnew first List.mem_cons_self)]
    refine ih hnodup.2 fun entry hentry => ?_
    rw [hcollects.find_add, if_neg]
    · exact hnew entry (List.mem_cons_of_mem _ hentry)
    · exact fun heq => hnodup.1 (List.mem_map.mpr ⟨entry, hentry, heq⟩)

end Collects

/-- Joining collects words by their addresses. -/
theorem collects_join : Collects Memory.get? Memory.write join where
  find_add := Memory.get?_write
  nil _ := rfl
  added memory first rest hfree := by
    have hnot : ¬memory.contains first.1 = true := by
      simpa [Memory.contains, Memory.get?] using hfree
    exact if_neg hnot
  refused memory first rest joined h := by
    unfold join at h
    split at h
    · cases h
    · rename_i hfree
      simpa [Memory.contains, Memory.get?] using hfree

/-- Exports are collected by their names. -/
theorem collects_addExports :
    Collects (fun exports name => exports[name]?) Std.ExtTreeMap.insert addExports where
  find_add exports name symbol other := by
    simp [Std.ExtTreeMap.getElem?_insert, eq_comm (a := other)]
  nil _ := rfl
  added exports first rest hfree := by
    have hnot : ¬exports.contains first.1 = true := by simpa using hfree
    exact if_neg hnot
  refused exports first rest all h := by
    unfold addExports at h
    split at h
    · cases h
    · rename_i hfree
      simpa using hfree

/-- A word in which import sites take the values of exports, one after the other. -/
def fillSites (exports : Std.ExtTreeMap String Symbol) (word : Word) (sites : List ImportSite) :
    Word :=
  sites.foldl
    (fun word site => site.field.insert word ((exports[site.name]?.map Symbol.value).getD 0)) word

/-- Sites that could be patched name exports, fill the words at their addresses in their order,
and write no other address. -/
theorem patch_spec {exports : Std.ExtTreeMap String Symbol} {memory patched : Memory}
    {sites : List ImportSite} (h : patch exports memory sites = .ok patched) :
    (∀ site ∈ sites, (exports[site.name]?).isSome = true) ∧
      (∀ address, patched.read address = fillSites exports (memory.read address)
        (sites.filter fun site => site.address = address)) ∧
      ∀ address, (patched.get? address).isSome = true ↔
        (memory.get? address).isSome = true ∨ ∃ site ∈ sites, site.address = address := by
  induction sites generalizing memory with
  | nil =>
    obtain rfl := Except.ok.inj h
    exact ⟨by simp, fun _ => rfl, by simp⟩
  | cons site rest ih =>
    unfold patch at h
    split at h
    · cases h
    · rename_i symbol hsome
      obtain ⟨hnames, hread, hwritten⟩ := ih h
      refine ⟨List.forall_mem_cons.mpr ⟨by simp [hsome], hnames⟩, ?_, ?_⟩
      · intro address
        rw [hread, Memory.read_write, List.filter_cons]
        by_cases haddress : address = site.address
        · subst haddress
          simp [fillSites, hsome]
        · simp [haddress, Ne.symm haddress]
      · intro address
        rw [hwritten, Memory.get?_write]
        by_cases haddress : address = site.address
        · simp [haddress]
        · simp [haddress, Ne.symm haddress]

/-- The steps of a link of modules that have their places. -/
theorem ofPlaced_eq_ok {first : ObjectModule} {rest : List ObjectModule} {image : LinkedImage}
    (h : ofPlaced first rest = .ok image) :
    ∃ exports joined, collectExports (first :: rest) = .ok exports ∧
      joinModules (first :: rest) = .ok joined ∧
      patch exports joined ((first :: rest).flatMap ObjectModule.imports) = .ok image.memory ∧
      image.start = first.start ∧ image.segmentName = first.segmentName := by
  unfold ofPlaced at h
  obtain ⟨exports, hexports, h⟩ := exists_of_bind_eq_ok h
  obtain ⟨joined, hjoined, h⟩ := exists_of_bind_eq_ok h
  obtain ⟨memory, hmemory, h⟩ := exists_of_bind_eq_ok h
  have himage : image = ⟨memory, first.start, first.segmentName⟩ := by
    split at h
    · obtain ⟨_, -, h⟩ := exists_of_bind_eq_ok h
      exact (Except.ok.inj h).symm
    · exact (Except.ok.inj h).symm
  subst himage
  exact ⟨exports, joined, hexports, hjoined, hmemory, rfl, rfl⟩

/-- Words that are all on one page pass the check. -/
theorem checkPage_eq_ok {memory : Memory} {addresses : List Word}
    (haddresses : memory.toList.map Prod.fst = addresses)
    (h : ∀ first ∈ addresses, ∀ last ∈ addresses, pageOf first = pageOf last) :
    checkPage memory = .ok () := by
  unfold checkPage
  rw [memory.first?_eq_head?, memory.last?_eq_getLast?, haddresses]
  split
  · rename_i first last hfirst hlast
    exact if_pos (h first (List.mem_of_head? hfirst) last (List.mem_of_getLast? hlast))
  · rfl

/-- The words of modules that have their places, with their imported fields filled. -/
def combine (modules : List ObjectModule) : Except LinkError Memory := do
  let exports ← collectExports modules
  let joined ← joinModules modules
  patch exports joined (modules.flatMap ObjectModule.imports)

/-- Modules that have their places are linked if their words can be combined on one page. -/
theorem ofPlaced_eq {first : ObjectModule} {rest : List ObjectModule} {memory : Memory}
    (h : combine (first :: rest) = .ok memory) (hpage : checkPage memory = .ok ()) :
    ofPlaced first rest = .ok ⟨memory, first.start, first.segmentName⟩ := by
  obtain ⟨exports, hexports, h⟩ := exists_of_bind_eq_ok h
  obtain ⟨joined, hjoined, hmemory⟩ := exists_of_bind_eq_ok h
  unfold ofPlaced
  dsimp only
  rw [hexports, hjoined]
  simp only [bind, Except.bind, hmemory, hpage, pure, Except.pure]
  split <;> rfl

/-- The exports collected are the exported symbols of all modules. -/
theorem getElem?_eq_some_iff_of_collectExports {modules : List ObjectModule}
    {exports : Std.ExtTreeMap String Symbol} (h : collectExports modules = .ok exports)
    {name : String} {symbol : Symbol} :
    exports[name]? = some symbol ↔
      ∃ module ∈ modules, module.exports.get? name = some symbol ∧ symbol.exported = true := by
  have hfind := (collects_addExports.spec h).2.2 name symbol
  rw [or_iff_left (by simp), List.mem_flatMap] at hfind
  simp only [SymbolTable.mem_exports_iff] at hfind
  exact hfind

/-- What a module exports is among the exports collected. -/
theorem getElem?_of_collectExports {modules : List ObjectModule}
    {exports : Std.ExtTreeMap String Symbol} (h : collectExports modules = .ok exports)
    {module : ObjectModule} (hmem : module ∈ modules) {name : String} {symbol : Symbol}
    (hsome : module.exports.get? name = some symbol) (hexported : symbol.exported = true) :
    exports[name]? = some symbol :=
  (getElem?_eq_some_iff_of_collectExports h).mpr ⟨module, hmem, hsome, hexported⟩

/-- The words joined are those of all modules. -/
theorem get?_eq_some_iff_of_joinModules {modules : List ObjectModule} {joined : Memory}
    (h : joinModules modules = .ok joined) {address value : Word} :
    joined.get? address = some value ↔
      ∃ module ∈ modules, module.memory.get? address = some value := by
  have hfind := (collects_join.spec h).2.2 address value
  rw [or_iff_left (by simp [Memory.empty, Memory.get?]), List.mem_flatMap] at hfind
  simp only [Memory.mem_toList_iff] at hfind
  exact hfind

/-- A linked word is that of its module, in which the import sites of all modules at its address
take the values of exports. -/
theorem read_of_ofPlaced {first : ObjectModule} {rest : List ObjectModule} {image : LinkedImage}
    (h : ofPlaced first rest = .ok image) :
    ∃ exports, collectExports (first :: rest) = .ok exports ∧
      ∀ module ∈ first :: rest, ∀ address value, module.memory.get? address = some value →
        image.memory.read address = fillSites exports value
          (((first :: rest).flatMap ObjectModule.imports).filter fun site =>
            site.address = address) := by
  obtain ⟨exports, joined, hexports, hjoined, hpatch, -, -⟩ := ofPlaced_eq_ok h
  refine ⟨exports, hexports, fun module hmem address value hvalue => ?_⟩
  have hword := (get?_eq_some_iff_of_joinModules hjoined).mpr ⟨module, hmem, hvalue⟩
  rw [(patch_spec hpatch).2.1, Memory.read, hword]
  rfl

/-- The exports of a module by itself can be collected, and are those of its table. -/
theorem exists_collectExports (module : ObjectModule) :
    ∃ exports, collectExports [module] = .ok exports ∧
      ∀ name, module.exports.get? name = none → exports[name]? = none := by
  have hlisted : [module].flatMap (fun module => module.exports.exports) =
      module.exports.exports := by simp
  have hempty : ∀ entry ∈ module.exports.exports,
      (∅ : Std.ExtTreeMap String Symbol)[entry.1]? = none := by
    simp
  obtain ⟨exports, hexports⟩ :=
    collects_addExports.exists_collected module.exports.nodup_exports hempty
  have hcollect : collectExports [module] = .ok exports := by
    rw [collectExports, hlisted, hexports]
  refine ⟨exports, hcollect, fun name hname => ?_⟩
  rw [Option.eq_none_iff_forall_ne_some]
  intro symbol hsymbol
  obtain ⟨other, hother, hsome, -⟩ :=
    (getElem?_eq_some_iff_of_collectExports hcollect).mp hsymbol
  obtain rfl := List.mem_singleton.mp hother
  rw [hname] at hsome
  cases hsome

/-- The words of a module by itself can be joined, and are its memory. -/
theorem joinModules_singleton (module : ObjectModule) :
    joinModules [module] = .ok module.memory := by
  have hlisted : [module].flatMap (fun module => module.memory.toList) =
      module.memory.toList := by simp
  have hempty : ∀ entry ∈ module.memory.toList, Memory.empty.get? entry.1 = none := by
    simp [Memory.empty, Memory.get?]
  obtain ⟨joined, hjoined⟩ := collects_join.exists_collected module.memory.nodup_toList hempty
  have hjoin : joinModules [module] = .ok joined := by rw [joinModules, hlisted, hjoined]
  rw [hjoin]
  congr 1
  apply Memory.ext_get?
  intro address
  apply Option.ext
  intro value
  rw [get?_eq_some_iff_of_joinModules hjoin]
  simp

/-- A module that does not export what it imports, linked by itself, is its own image, or lacks
its first import. -/
theorem ofPlaced_nil {module : ObjectModule}
    (hexternal : ∀ site ∈ module.imports, module.exports.get? site.name = none) :
    ofPlaced module [] =
      match module.imports with
      | [] => .ok ⟨module.memory, module.start, module.segmentName⟩
      | site :: _ => .error (.undefinedSymbol site.name) := by
  obtain ⟨exports, hexports, hnone⟩ := exists_collectExports module
  unfold ofPlaced
  dsimp only
  rw [hexports, joinModules_singleton]
  cases hsites : module.imports with
  | nil => simp [patch, hsites, bind, Except.bind, pure, Except.pure]
  | cons site rest =>
    have hsite := hnone site.name (hexternal site (by simp [hsites]))
    simp [patch, hsites, hsite, bind, Except.bind]

end LinkedImage

namespace ObjectModule

/-- Where linking at a base takes an address of the first module. -/
def baseAddress (moves : Bool) (base : Option Word) (address : Word) : Word :=
  if moves then address + base.getD 0 else address

/-- What linking at a base makes of a word of the first module. -/
def baseWord (moves : Bool) (base : Option Word) (tag : Option Relocation) (word : Word) : Word :=
  match base with
  | some origin => if moves then movedWord origin.toNat tag word else word
  | none => word

/-- Linking at a base does not bring addresses together. -/
theorem baseAddress_inj {moves : Bool} {base : Option Word} {left right : Word} :
    baseAddress moves base left = baseAddress moves base right ↔ left = right := by
  cases moves <;> simp [baseAddress]

/-- A word without a tag stays the same. -/
theorem baseWord_none (moves : Bool) (base : Option Word) (word : Word) :
    baseWord moves base none word = word := by
  cases base <;> cases moves <;> rfl

/-- The first module at its place has its words and imports there, and still does not export what it
imports. -/
theorem placeFirst_spec {module placed : ObjectModule} {base : Option Word}
    (horigin : module.relocatable = true → module.origin = 0)
    (h : module.placeFirst base = .ok placed) :
    (∀ address, placed.memory.get? (baseAddress module.relocatable base address) =
        (module.memory.get? address).map
          (baseWord module.relocatable base (module.tag? address))) ∧
      placed.imports = module.imports.map (fun site =>
        { site with address := baseAddress module.relocatable base site.address }) ∧
      ((∀ site ∈ module.imports, module.exports.get? site.name = none) →
        ∀ site ∈ placed.imports, placed.exports.get? site.name = none) := by
  cases base with
  | none =>
    obtain rfl := Except.ok.inj h
    have haddress : baseAddress module.relocatable none = id := by
      funext address
      cases module.relocatable <;> simp [baseAddress]
    have hword : ∀ tag, baseWord module.relocatable none tag = id := fun _ => rfl
    simp [haddress, hword]
  | some origin =>
    unfold placeFirst at h
    dsimp only at h
    split at h
    · rename_i hmoves
      obtain ⟨-, -, rfl⟩ := relocate_eq_ok_iff.mp h
      have hdelta : (origin.toNat : Int) - module.origin.toNat = origin.toNat := by
        simp [horigin hmoves]
      have haddress : baseAddress module.relocatable (some origin) = shift origin.toNat := by
        funext address
        simp [baseAddress, hmoves, shift]
      have hword : ∀ tag, baseWord module.relocatable (some origin) tag =
          movedWord origin.toNat tag := by
        intro tag
        funext word
        simp [baseWord, hmoves]
      simp only [hdelta, haddress, hword]
      exact ⟨module.get?_shiftBy _, rfl, module.get?_exports_shiftBy_eq_none _⟩
    · rename_i hstays
      split at h
      · obtain rfl := Except.ok.inj h
        have haddress : baseAddress module.relocatable (some origin) = id := by
          funext address
          simp [baseAddress, hstays]
        have hword : ∀ tag, baseWord module.relocatable (some origin) tag = id := by
          intro tag
          funext word
          simp [baseWord, hstays]
        simp [haddress, hword]
      · cases h

/-- A later module that cannot be moved stays. -/
theorem placeAfter_eq_self {module : ObjectModule} (hstays : module.relocatable = false)
    (previous : ObjectModule) : module.placeAfter previous = .ok module := by
  simp [placeAfter, hstays]

/-- A later module at its place exports the same constants. -/
theorem get?_exports_of_placeAfter {module previous placed : ObjectModule}
    (h : module.placeAfter previous = .ok placed) {name : String} {symbol : Symbol}
    (hsome : module.exports.get? name = some symbol) (hfixed : symbol.relocatable = false) :
    placed.exports.get? name = some symbol := by
  unfold placeAfter at h
  split at h
  · obtain rfl := Except.ok.inj h
    exact hsome
  · split at h
    · obtain ⟨-, -, rfl⟩ := relocate_eq_ok_iff.mp h
      change (module.exports.relocate _).get? name = _
      rw [SymbolTable.get?_relocate, hsome]
      simp [Symbol.shift, hfixed]
    · cases h

end ObjectModule

/-- A module linked by itself at a place is the image of the module there. -/
theorem link_singleton {module placed : ObjectModule} {base : Option Word}
    (hplaced : module.placeFirst base = .ok placed) :
    link [module] base = LinkedImage.ofPlaced placed [] := by
  simp [link, hplaced, LinkedImage.placeRest, bind, Except.bind]

/-- Two modules that can be placed are linked from their places. -/
theorem link_pair {module other placed otherPlaced : ObjectModule} {base : Option Word}
    (hplaced : module.placeFirst base = .ok placed)
    (hother : other.placeAfter placed = .ok otherPlaced) :
    link [module, other] base = LinkedImage.ofPlaced placed [otherPlaced] := by
  simp [link, hplaced, LinkedImage.placeRest, hother, bind, Except.bind, pure, Except.pure]

/-- A link that succeeds places the first module, then the others behind it, and joins them. -/
theorem exists_ofPlaced_of_link {first : ObjectModule} {rest : List ObjectModule}
    {base : Option Word} {image : LinkedImage} (h : link (first :: rest) base = .ok image) :
    ∃ placed others, first.placeFirst base = .ok placed ∧
      LinkedImage.placeRest placed rest = .ok others ∧
      LinkedImage.ofPlaced placed others = .ok image := by
  obtain ⟨placed, hplaced, h⟩ := exists_of_bind_eq_ok (show _ >>= _ = _ from h)
  obtain ⟨others, hothers, h⟩ := exists_of_bind_eq_ok h
  exact ⟨placed, others, hplaced, hothers, h⟩

/-- A link of two modules places the first, then the second behind it, and joins them. -/
theorem exists_placed_of_link_pair {module other : ObjectModule} {base : Option Word}
    {image : LinkedImage} (h : link [module, other] base = .ok image) :
    ∃ placed otherPlaced, module.placeFirst base = .ok placed ∧
      other.placeAfter placed = .ok otherPlaced ∧
      LinkedImage.ofPlaced placed [otherPlaced] = .ok image := by
  obtain ⟨placed, others, hplaced, hothers, h⟩ := exists_ofPlaced_of_link h
  obtain ⟨otherPlaced, hother, hrest⟩ := exists_of_bind_eq_ok hothers
  obtain rfl : [otherPlaced] = others := Except.ok.inj hrest
  exact ⟨placed, otherPlaced, hplaced, hother, h⟩

/-- A module that does not export what it imports is linked where it is: without imports it is its
own image, and otherwise one of them is not defined. -/
theorem link_singleton_none {module : ObjectModule}
    (hexternal : ∀ site ∈ module.imports, module.exports.get? site.name = none) :
    (module.imports = [] ∧
        link [module] none = .ok ⟨module.memory, module.start, module.segmentName⟩) ∨
      ∃ site ∈ module.imports, link [module] none = .error (.undefinedSymbol site.name) := by
  rw [link_singleton (show module.placeFirst none = .ok module from rfl),
    LinkedImage.ofPlaced_nil hexternal]
  cases module.imports with
  | nil => exact .inl ⟨rfl, rfl⟩
  | cons site rest => exact .inr ⟨site, List.mem_cons_self, rfl⟩

/-- A module that is linked by itself has no imports, and the image has its words. -/
theorem exists_placed_of_link_singleton {module : ObjectModule} {base : Option Word}
    {image : LinkedImage} (horigin : module.relocatable = true → module.origin = 0)
    (hexternal : ∀ site ∈ module.imports, module.exports.get? site.name = none)
    (h : link [module] base = .ok image) :
    ∃ placed, module.placeFirst base = .ok placed ∧ module.imports = [] ∧
      image.memory = placed.memory := by
  obtain ⟨placed, -, hplaced, -⟩ := exists_ofPlaced_of_link h
  obtain ⟨-, himports, hplacedExternal⟩ := ObjectModule.placeFirst_spec horigin hplaced
  rw [link_singleton hplaced, LinkedImage.ofPlaced_nil (hplacedExternal hexternal)] at h
  split at h
  · rename_i hnone
    rw [himports, List.map_eq_nil_iff] at hnone
    exact ⟨placed, hplaced, hnone, by rw [← Except.ok.inj h]⟩
  · cases h

end PageMachine
