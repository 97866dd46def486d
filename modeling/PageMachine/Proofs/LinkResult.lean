import Mathlib.Data.List.Induction
import Mathlib.Data.List.Pairwise
import PageMachine.Proofs.Linking
import PageMachine.Proofs.RoundTrip

/-!
# What a successful link builds

`Placed` says where the modules of a link stand, and `Joins` what the image then consists of, down
to each bit: the last import site that covers a bit decides it, and where there is none the word of
the module does. Both are stated without the loops that link, in terms of what modules hold at an
address. Modules are taken from object files, so that one that moves begins at zero; the page that
several modules have to share is not spoken of.
-/

namespace PageMachine

namespace ObjectModule

/-- Whether a module lets other modules use a symbol under a name. -/
def Exports (module : ObjectModule) (name : String) (symbol : Symbol) : Prop :=
  module.exports.get? name = some symbol ∧ symbol.exported = true

/-- Whether a module is another one moved from zero to a place: addresses shift by the place,
tagged fields and values that move grow by it, and all else stays. -/
structure MovedTo (module : ObjectModule) (place : Word) (moved : ObjectModule) : Prop where
  /-- The segment keeps its name. -/
  segmentName : moved.segmentName = module.segmentName
  /-- The segment begins at the place. -/
  origin : moved.origin = place
  /-- The start shifts. -/
  start : moved.start = module.start + place
  /-- The words shift, and move in their tagged fields. -/
  words : ∀ address, moved.memory.get? (address + place) =
    (module.memory.get? address).map (movedWord place.toNat (module.tag? address))
  /-- The values of exports that move grow. -/
  exports : ∀ name, moved.exports.get? name =
    (module.exports.get? name).map (Symbol.shift place.toNat)
  /-- The imports shift and keep their order. -/
  imports : moved.imports = module.imports.map fun site =>
    { site with address := site.address + place }

/-- A module that begins at zero and is relocated is moved. -/
theorem movedTo_of_relocate {module moved : ObjectModule} {place : Word}
    (horigin : module.origin = 0) (h : module.relocate place = .ok moved) :
    module.MovedTo place moved := by
  obtain ⟨-, -, rfl⟩ := relocate_eq_ok_iff.mp h
  have hdelta : (place.toNat : Int) - module.origin.toNat = place.toNat := by simp [horigin]
  have hshift : ∀ address, shift place.toNat address = address + place := by simp [shift]
  rw [hdelta]
  exact
    { segmentName := rfl
      origin := by
        change shift _ module.origin = place
        rw [hshift, horigin]
        exact BitVec.zero_add place
      start := hshift module.start
      words := fun address => by
        rw [← hshift]
        exact module.get?_shiftBy _ address
      exports := module.exports.get?_relocate _
      imports := by
        change module.imports.map _ = _
        simp only [hshift] }

/-- The place behind a module: one past its last written address, or its origin if nothing is
written. -/
inductive NextPlace (module : ObjectModule) : Nat → Prop
  | behind (last : Word) (hlast : (module.memory.get? last).isSome = true)
      (hmax : ∀ address, (module.memory.get? address).isSome = true →
        address.toNat ≤ last.toNat) : NextPlace module (last.toNat + 1)
  | empty (hempty : ∀ address, module.memory.get? address = none) :
      NextPlace module module.origin.toNat

/-- The address behind the last word is the place behind a module. -/
theorem nextPlace_nextAddress (module : ObjectModule) : module.NextPlace module.nextAddress := by
  unfold nextAddress last?
  split
  · rename_i last hlast
    obtain ⟨hwritten, hmax⟩ := Memory.last?_eq_some_iff.mp hlast
    exact .behind last hwritten hmax
  · rename_i hnone
    exact .empty (Memory.last?_eq_none_iff.mp hnone)

/-- Where the first module of a link stands: at the base or at zero if it moves, otherwise at its
origin, which a base must not contradict. -/
inductive PlacedFirst (module : ObjectModule) (base : Option Word) : ObjectModule → Prop
  | moved (place : Word) (placed : ObjectModule) (hmoves : module.relocatable = true)
      (hbase : base = some place) (hmoved : module.MovedTo place placed) :
      PlacedFirst module base placed
  | left (hmoves : module.relocatable = true) (hbase : base = none) (horigin : module.origin = 0) :
      PlacedFirst module base module
  | stays (hstays : module.relocatable = false) (hbase : ∀ place ∈ base, place = module.origin) :
      PlacedFirst module base module

/-- Where a later module stands: at the place behind the one before if it moves, otherwise at its
origin. -/
inductive PlacedBehind (module previous : ObjectModule) : ObjectModule → Prop
  | moved (place : Word) (placed : ObjectModule) (hmoves : module.relocatable = true)
      (hnext : previous.NextPlace place.toNat) (hmoved : module.MovedTo place placed) :
      PlacedBehind module previous placed
  | stays (hstays : module.relocatable = false) : PlacedBehind module previous module

/-- The first module is placed at the base, or left. -/
theorem placedFirst_of_placeFirst {module placed : ObjectModule} {base : Option Word}
    (horigin : module.relocatable = true → module.origin = 0)
    (h : module.placeFirst base = .ok placed) : module.PlacedFirst base placed := by
  unfold placeFirst at h
  cases base with
  | none =>
    obtain rfl := Except.ok.inj h
    cases hmoves : module.relocatable with
    | true => exact .left hmoves rfl (horigin hmoves)
    | false => exact .stays hmoves (by simp)
  | some place =>
    dsimp only at h
    split at h
    · rename_i hmoves
      exact .moved place placed hmoves rfl (movedTo_of_relocate (horigin hmoves) h)
    · rename_i hstays
      split at h
      · rename_i heq
        obtain rfl := Except.ok.inj h
        exact .stays (by simpa using hstays) (by simpa using heq)
      · cases h

/-- A later module is placed behind the one before, or stays. -/
theorem placedBehind_of_placeAfter {module previous placed : ObjectModule}
    (horigin : module.relocatable = true → module.origin = 0)
    (h : module.placeAfter previous = .ok placed) : module.PlacedBehind previous placed := by
  unfold placeAfter at h
  split at h
  · rename_i hstays
    obtain rfl := Except.ok.inj h
    exact .stays (by simpa using hstays)
  · rename_i hmoves
    have hmoves : module.relocatable = true := by simpa using hmoves
    split at h
    · rename_i hspace
      have hplace : (BitVec.ofNat 16 previous.nextAddress).toNat = previous.nextAddress :=
        Nat.mod_eq_of_lt hspace
      have hnext := previous.nextPlace_nextAddress
      rw [← hplace] at hnext
      exact .moved _ placed hmoves hnext (movedTo_of_relocate (horigin hmoves) h)
    · cases h

end ObjectModule

namespace LinkedImage

/-- Where modules stand that follow one. -/
inductive PlacedRest : ObjectModule → List ObjectModule → List ObjectModule → Prop
  | nil (previous : ObjectModule) : PlacedRest previous [] []
  | cons {previous module placed : ObjectModule} {rest others : List ObjectModule}
      (hplaced : module.PlacedBehind previous placed) (hrest : PlacedRest placed rest others) :
      PlacedRest previous (module :: rest) (placed :: others)

/-- Where the modules of a link stand. -/
inductive Placed (base : Option Word) : List ObjectModule → List ObjectModule → Prop
  | intro {first placed : ObjectModule} {rest others : List ObjectModule}
      (hfirst : first.PlacedFirst base placed) (hrest : PlacedRest placed rest others) :
      Placed base (first :: rest) (placed :: others)

/-- A relation that holds between a module and itself, and between one that moves and what it is
moved to, holds between all modules behind one and what they are at their places. -/
theorem PlacedRest.forall₂ {Rel : ObjectModule → ObjectModule → Prop} {previous : ObjectModule}
    {modules placed : List ObjectModule} (hself : ∀ module, Rel module module)
    (hmoved : ∀ module ∈ modules, ∀ place stood, module.relocatable = true →
      module.MovedTo place stood → Rel module stood)
    (h : PlacedRest previous modules placed) : List.Forall₂ Rel modules placed := by
  induction h with
  | nil => exact .nil
  | cons hplaced _ ih =>
    rw [List.forall_mem_cons] at hmoved
    refine .cons ?_ (ih hmoved.2)
    cases hplaced with
    | moved place _ hmoves _ hto => exact hmoved.1 place _ hmoves hto
    | stays => exact hself _

/-- A relation that moving a module brings about holds between all modules of a link and what they
are at their places. -/
theorem Placed.forall₂ {Rel : ObjectModule → ObjectModule → Prop} {base : Option Word}
    {modules placed : List ObjectModule} (hself : ∀ module, Rel module module)
    (hmoved : ∀ module ∈ modules, ∀ place stood, module.relocatable = true →
      module.MovedTo place stood → Rel module stood)
    (h : Placed base modules placed) : List.Forall₂ Rel modules placed := by
  obtain ⟨hfirst, hrest⟩ := h
  rw [List.forall_mem_cons] at hmoved
  refine .cons ?_ (hrest.forall₂ hself hmoved.2)
  cases hfirst with
  | moved place _ hmoves _ hto => exact hmoved.1 place _ hmoves hto
  | left => exact hself _
  | stays => exact hself _

/-- Modules that could be placed behind one stand where they should. -/
theorem placedRest_of_placeRest {previous : ObjectModule} {modules placed : List ObjectModule}
    (horigin : ∀ module ∈ modules, module.relocatable = true → module.origin = 0)
    (h : placeRest previous modules = .ok placed) : PlacedRest previous modules placed := by
  induction modules generalizing previous placed with
  | nil =>
    obtain rfl := Except.ok.inj h
    exact .nil previous
  | cons module rest ih =>
    rw [List.forall_mem_cons] at horigin
    obtain ⟨first, hfirst, h⟩ := exists_of_bind_eq_ok h
    obtain ⟨others, hothers, h⟩ := exists_of_bind_eq_ok h
    obtain rfl := Except.ok.inj h
    exact .cons (ObjectModule.placedBehind_of_placeAfter horigin.1 hfirst) (ih horigin.2 hothers)

/-- The import sites of modules that fill a bit at an address, in their order. -/
def sitesOver (modules : List ObjectModule) (address : Word) (i : Nat) : List ImportSite :=
  ((modules.flatMap ObjectModule.imports).filter fun site => site.address = address).filter
    fun site => site.field.Covers i

/-- What modules make of a bit at an address: the last site over the bit takes its bit of the value
that a module exports under its name; a bit without a site is that of the word of a module, and is
not set where there is none. -/
inductive MakesBit (modules : List ObjectModule) (address : Word) (i : Nat) : Bool → Prop
  | filled (site : ImportSite) (module : ObjectModule) (symbol : Symbol)
      (hlast : (sitesOver modules address i).getLast? = some site) (hmem : module ∈ modules)
      (hexports : module.Exports site.name symbol) :
      MakesBit modules address i (symbol.word.getLsbD (i - site.field.lsb))
  | kept (module : ObjectModule) (word : Word) (hnone : sitesOver modules address i = [])
      (hmem : module ∈ modules) (hword : module.memory.get? address = some word) :
      MakesBit modules address i (word.getLsbD i)
  | unwritten (hnone : sitesOver modules address i = [])
      (hfree : ∀ module ∈ modules, module.memory.get? address = none) :
      MakesBit modules address i false

/-- Whether an image is what modules make that have their places. -/
structure Joins (image : LinkedImage) (modules : List ObjectModule) : Prop where
  /-- No two modules have a word at the same address. -/
  disjoint : modules.Pairwise fun module other => ∀ address,
    ¬((module.memory.get? address).isSome = true ∧ (other.memory.get? address).isSome = true)
  /-- No two modules export the same name. -/
  exports : modules.Pairwise fun module other => ∀ name symbol twin,
    ¬(module.Exports name symbol ∧ other.Exports name twin)
  /-- Each imported name is exported. -/
  supplied : ∀ module ∈ modules, ∀ site ∈ module.imports,
    ∃ other ∈ modules, ∃ symbol, other.Exports site.name symbol
  /-- Written are the words and the import sites. -/
  written : ∀ address, (image.memory.get? address).isSome = true ↔
    (∃ module ∈ modules, (module.memory.get? address).isSome = true) ∨
      ∃ module ∈ modules, ∃ site ∈ module.imports, site.address = address
  /-- Each bit is what the modules make of it. -/
  bits : ∀ address, ∀ i < 16,
    MakesBit modules address i ((image.memory.read address).getLsbD i)
  /-- Execution starts where the first module says. -/
  start : ∀ module ∈ modules.head?, image.start = module.start
  /-- The segment is named after the first module. -/
  segmentName : ∀ module ∈ modules.head?, image.segmentName = module.segmentName

/-- The bits of a word with filled sites: the last site over a bit decides it. -/
theorem getLsbD_fillSites (exports : Std.ExtTreeMap String Symbol) (word : Word)
    (sites : List ImportSite) {i : Nat} (hi : i < 16) :
    (fillSites exports word sites).getLsbD i =
      match (sites.filter fun site => site.field.Covers i).getLast? with
      | some site => (BitVec.ofInt 16 ((exports[site.name]?.map Symbol.value).getD 0)).getLsbD
          (i - site.field.lsb)
      | none => word.getLsbD i := by
  induction sites using List.reverseRecOn with
  | nil => rfl
  | append_singleton front site ih =>
    have hlast : fillSites exports word (front ++ [site]) =
        site.field.insert (fillSites exports word front)
          ((exports[site.name]?.map Symbol.value).getD 0) := by
      simp [fillSites]
    rw [hlast, BitRange.getLsbD_insert _ _ _ hi, List.filter_append]
    by_cases hcovers : site.field.Covers i
    · simp [hcovers]
    · simpa [hcovers] using ih

/-- Entries that are listed once for all items have different keys for different items. -/
theorem pairwise_of_nodup_flatMap {Item Key Value : Type} {entries : Item → List (Key × Value)}
    {items : List Item} (h : ((items.flatMap entries).map Prod.fst).Nodup) :
    items.Pairwise fun item other =>
      ∀ entry ∈ entries item, ∀ twin ∈ entries other, entry.1 ≠ twin.1 := by
  rw [List.map_flatMap, List.Nodup, List.pairwise_flatMap] at h
  refine h.2.imp fun hapart => ?_
  intro entry hentry twin htwin
  exact hapart _ (List.mem_map_of_mem hentry) _ (List.mem_map_of_mem htwin)

/-- A site that could be patched names a symbol that a module exports. -/
theorem exists_exports_of_collectExports {modules : List ObjectModule}
    {exports : Std.ExtTreeMap String Symbol} (h : collectExports modules = .ok exports)
    {name : String} (hsome : (exports[name]?).isSome = true) :
    ∃ module ∈ modules, ∃ symbol, module.Exports name symbol ∧ exports[name]? = some symbol := by
  obtain ⟨symbol, hsymbol⟩ := Option.isSome_iff_exists.mp hsome
  obtain ⟨module, hmem, hexport⟩ := (getElem?_eq_some_iff_of_collectExports h).mp hsymbol
  exact ⟨module, hmem, symbol, hexport, hsymbol⟩

/-- The words of modules, joined and filled by their sites, have the bits that the modules make. -/
theorem makesBit_fillSites {modules : List ObjectModule} {exports : Std.ExtTreeMap String Symbol}
    {joined : Memory} (hexports : collectExports modules = .ok exports)
    (hjoined : joinModules modules = .ok joined)
    (hsupplied : ∀ site ∈ modules.flatMap ObjectModule.imports,
      (exports[site.name]?).isSome = true) (address : Word) {i : Nat} (hi : i < 16) :
    MakesBit modules address i
      ((fillSites exports (joined.read address)
        ((modules.flatMap ObjectModule.imports).filter fun site =>
          site.address = address)).getLsbD i) := by
  rw [getLsbD_fillSites _ _ _ hi]
  change MakesBit modules address i (match (sitesOver modules address i).getLast? with
    | some site => _
    | none => _)
  cases hlast : (sitesOver modules address i).getLast? with
  | some site =>
    have hover := List.mem_filter.mp (List.mem_of_getLast? hlast)
    have hsite := (List.mem_filter.mp hover.1).1
    obtain ⟨module, hmem, symbol, hexport, hsymbol⟩ :=
      exists_exports_of_collectExports hexports (hsupplied site hsite)
    simp only [hsymbol, Option.map_some, Option.getD_some]
    exact .filled site module symbol hlast hmem hexport
  | none =>
    have hnone := List.getLast?_eq_none_iff.mp hlast
    dsimp only [Memory.read]
    cases hword : joined.get? address with
    | some word =>
      obtain ⟨module, hmem, hsome⟩ := (get?_eq_some_iff_of_joinModules hjoined).mp hword
      exact .kept module word hnone hmem hsome
    | none =>
      have hclear : ((none : Option Word).getD 0).getLsbD i = false := BitVec.getLsbD_zero
      rw [hclear]
      refine .unwritten hnone fun module hmem => Option.eq_none_iff_forall_ne_some.mpr ?_
      intro word hsome
      rw [(get?_eq_some_iff_of_joinModules hjoined).mpr ⟨module, hmem, hsome⟩] at hword
      cases hword

/-- Modules that have their places and could be joined make the image. -/
theorem joins_of_ofPlaced {first : ObjectModule} {rest : List ObjectModule} {image : LinkedImage}
    (h : ofPlaced first rest = .ok image) : image.Joins (first :: rest) := by
  obtain ⟨exports, joined, hexports, hjoined, hpatch, hstart, hname⟩ := ofPlaced_eq_ok h
  obtain ⟨hsupplied, hread, hwritten⟩ := patch_spec hpatch
  have hword := @get?_eq_some_iff_of_joinModules _ _ hjoined
  exact
    { disjoint := by
        refine (pairwise_of_nodup_flatMap (collects_join.spec hjoined).1).imp ?_
        rintro module other hapart address ⟨hmodule, hother⟩
        obtain ⟨word, hword⟩ := Option.isSome_iff_exists.mp hmodule
        obtain ⟨twin, htwin⟩ := Option.isSome_iff_exists.mp hother
        exact hapart _ (Memory.mem_toList_iff.mpr hword) _ (Memory.mem_toList_iff.mpr htwin) rfl
      exports := by
        refine (pairwise_of_nodup_flatMap (collects_addExports.spec hexports).1).imp ?_
        rintro module other hapart name symbol twin ⟨hmodule, hother⟩
        exact hapart (name, symbol) (SymbolTable.mem_exports_iff.mpr hmodule) (name, twin)
          (SymbolTable.mem_exports_iff.mpr hother) rfl
      supplied := by
        intro module hmem site hsite
        obtain ⟨other, hother, symbol, hexport, -⟩ := exists_exports_of_collectExports hexports
          (hsupplied site (List.mem_flatMap_of_mem hmem hsite))
        exact ⟨other, hother, symbol, hexport⟩
      written := by
        intro address
        rw [hwritten]
        simp only [Option.isSome_iff_exists, hword, List.mem_flatMap]
        constructor
        · rintro (⟨word, module, hmem, hsome⟩ | ⟨site, ⟨module, hmem, hsite⟩, haddress⟩)
          · exact .inl ⟨module, hmem, word, hsome⟩
          · exact .inr ⟨module, hmem, site, hsite, haddress⟩
        · rintro (⟨module, hmem, word, hsome⟩ | ⟨module, hmem, site, hsite, haddress⟩)
          · exact .inl ⟨word, module, hmem, hsome⟩
          · exact .inr ⟨site, ⟨module, hmem, hsite⟩, haddress⟩
      bits := by
        intro address i hi
        rw [hread]
        exact makesBit_fillSites hexports hjoined hsupplied address hi
      start := by simpa using hstart
      segmentName := by simpa using hname }

end LinkedImage

/-- A loaded module that can be moved begins at zero. -/
theorem origin_eq_zero_of_load {text : String} {module : ObjectModule}
    (h : load text = .ok module) (hmoves : module.relocatable = true) : module.origin = 0 := by
  obtain ⟨-, header, start, -, -, rfl⟩ := Loader.finish_eq_ok h
  have hnone : header.origin = none := by simpa using hmoves
  simp [Header.first, hnone]

/-- The lines of a program that calls a routine of another module. -/
def callingLines : List String :=
  ["         .ORIG", "         .EXT    Sub", "         JSR     Sub", "         TRAP    x25",
    "         .END"]

/-- The program that calls a routine of another module, and its own module. -/
def calling : Build "main" callingLines :=
  .ofLines (by decide +kernel)

/-- The lines of a module that exports a routine. -/
def calledLines : List String :=
  ["         .ORIG", "         .ENT    Sub", "Sub      RET", "         .END"]

/-- The module that exports a routine, with its program. -/
def called : Build "routine" calledLines :=
  .ofLines (by decide +kernel)

/-- The calling module at its place. -/
def callingPlaced : { placed // calling.module.placeFirst (some 0x3000) = .ok placed } :=
  okValue _ (by decide +kernel)

/-- The called module behind the calling one. -/
def calledPlaced : { placed // called.module.relocate 0x3002 = .ok placed } :=
  okValue _ (by decide +kernel)

/-- The memory of the calling module and the called one. -/
def callingMemory :
    { memory // LinkedImage.combine [callingPlaced.1, calledPlaced.1] = .ok memory } :=
  okValue _ (by decide +kernel)

/-- The called module is placed behind the two words of the calling one. -/
theorem placeAfter_calling : called.module.placeAfter callingPlaced.1 = .ok calledPlaced.1 := by
  have hlast : callingPlaced.1.last? = some 0x3001 := by
    rw [ObjectModule.last?, Memory.last?_eq_getLast?]
    decide +kernel
  have hnext : callingPlaced.1.nextAddress = 0x3002 := by
    rw [ObjectModule.nextAddress, hlast]
    rfl
  have hmoves : called.module.relocatable = true := by decide +kernel
  rw [ObjectModule.placeAfter, hnext, hmoves]
  exact calledPlaced.2

/-- The calling module and the called one are linked at an address. -/
theorem link_calling :
    link [calling.module, called.module] (some 0x3000) =
      .ok ⟨callingMemory.1, callingPlaced.1.start, callingPlaced.1.segmentName⟩ := by
  have haddresses : callingMemory.1.toList.map Prod.fst = [0x3000, 0x3001, 0x3002] := by
    decide +kernel
  have hpage := LinkedImage.checkPage_eq_ok haddresses (by simp [pageOf])
  rw [link_pair callingPlaced.2 placeAfter_calling]
  exact LinkedImage.ofPlaced_eq callingMemory.2 hpage

end PageMachine
