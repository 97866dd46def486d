import PageMachine.Proofs.ModuleOrder

/-!
# Links do not look at values

Whether modules can be linked depends on where they are, where their words lie, and which names they
export and import. The values of the exports go into words and nowhere else: modules that differ in
nothing but these values are placed, joined and patched alike, and their words lie at the same
addresses. So no value makes a link fail, and every module could export other values.
-/

namespace PageMachine

namespace ObjectModule

/-- Whether modules export the same names and differ in nothing but the values of symbols. -/
structure SameButValues (module other : ObjectModule) : Prop where
  /-- All but the symbols is the same. -/
  rest : other = { module with exports := other.exports }
  /-- The names that are exported are the same. -/
  names : ∀ name, (∃ symbol, module.Exports name symbol) ↔ ∃ symbol, other.Exports name symbol

/-- A module exports the same names wherever it is moved. -/
theorem exists_exports_shiftBy_iff (module : ObjectModule) (delta : Int) (name : String) :
    (∃ symbol, (module.shiftBy delta).Exports name symbol) ↔
      ∃ symbol, module.Exports name symbol := by
  have hexported : ∀ symbol : Symbol, (symbol.shift delta).exported = symbol.exported := by
    intro symbol
    unfold Symbol.shift
    split <;> rfl
  unfold Exports
  change (∃ symbol, (module.exports.relocate delta).get? name = some symbol ∧ _) ↔ _
  simp [SymbolTable.get?_relocate, hexported]

namespace SameButValues

variable {module other stood : ObjectModule}

/-- Modules that differ in values only can be moved to the same places. -/
theorem relocate (h : module.SameButValues other) {place : Word}
    (hstood : module.relocate place = .ok stood) :
    ∃ otherStood, other.relocate place = .ok otherStood ∧ stood.SameButValues otherStood := by
  obtain ⟨hrest, hnames⟩ := h
  generalize other.exports = exports at hrest
  subst hrest
  obtain ⟨hmoves, hfits, rfl⟩ := relocate_eq_ok_iff.mp hstood
  refine ⟨_, relocate_eq_ok_iff.mpr ⟨hmoves, hfits, rfl⟩, rfl, fun name => ?_⟩
  rw [exists_exports_shiftBy_iff, exists_exports_shiftBy_iff, hnames]

/-- Modules that differ in values only can be moved, or not, together. -/
theorem relocatable_eq (h : module.SameButValues other) :
    other.relocatable = module.relocatable := by
  rw [h.rest]

/-- Modules that differ in values only begin at the same address. -/
theorem origin_eq (h : module.SameButValues other) : other.origin = module.origin := by
  rw [h.rest]

/-- Modules that differ in values only have the same words. -/
theorem memory_eq (h : module.SameButValues other) : other.memory = module.memory := by
  rw [h.rest]

/-- Modules that differ in values only have the same imports. -/
theorem imports_eq (h : module.SameButValues other) : other.imports = module.imports := by
  rw [h.rest]

/-- The same place is behind modules that differ in values only. -/
theorem nextAddress_eq (h : module.SameButValues other) :
    other.nextAddress = module.nextAddress := by
  rw [nextAddress, nextAddress, last?, last?, h.memory_eq, h.origin_eq]

/-- Modules that differ in values only can be placed first at the same bases. -/
theorem placeFirst (h : module.SameButValues other) {base : Option Word}
    (hstood : module.placeFirst base = .ok stood) :
    ∃ otherStood, other.placeFirst base = .ok otherStood ∧ stood.SameButValues otherStood := by
  cases base with
  | none =>
    obtain rfl := Except.ok.inj hstood
    exact ⟨other, rfl, h⟩
  | some place =>
    unfold ObjectModule.placeFirst at hstood ⊢
    dsimp only at hstood ⊢
    rw [h.relocatable_eq, h.origin_eq]
    split at hstood
    · rename_i hmoves
      rw [if_pos hmoves]
      exact h.relocate hstood
    · rename_i hstays
      split at hstood
      · rename_i hplace
        obtain rfl := Except.ok.inj hstood
        exact ⟨other, by rw [if_neg hstays, if_pos hplace], h⟩
      · cases hstood

/-- Modules that differ in values only can be placed behind modules that do as well. -/
theorem placeAfter (h : module.SameButValues other) {previous otherPrevious : ObjectModule}
    (hprevious : previous.SameButValues otherPrevious)
    (hstood : module.placeAfter previous = .ok stood) :
    ∃ otherStood, other.placeAfter otherPrevious = .ok otherStood ∧
      stood.SameButValues otherStood := by
  unfold ObjectModule.placeAfter at hstood ⊢
  rw [h.relocatable_eq, hprevious.nextAddress_eq]
  split at hstood
  · rename_i hstays
    obtain rfl := Except.ok.inj hstood
    exact ⟨other, if_pos hstays, h⟩
  · rename_i hmoves
    split at hstood
    · rename_i hspace
      rw [if_neg hmoves, if_pos hspace]
      exact h.relocate hstood
    · cases hstood

/-- Modules that differ in values only list the same names as exports. -/
theorem perm_names (h : module.SameButValues other) :
    (module.exports.exports.map Prod.fst).Perm (other.exports.exports.map Prod.fst) := by
  have hlisted : ∀ (module : ObjectModule) (name : String),
      name ∈ module.exports.exports.map Prod.fst ↔ ∃ symbol, module.Exports name symbol := by
    intro module name
    simp only [List.mem_map, SymbolTable.mem_exports_iff]
    constructor
    · rintro ⟨entry, hentry, rfl⟩
      exact ⟨entry.2, hentry⟩
    · rintro ⟨symbol, hsymbol⟩
      exact ⟨(name, symbol), hsymbol, rfl⟩
  rw [List.perm_ext_iff_of_nodup module.exports.nodup_exports other.exports.nodup_exports]
  intro name
  rw [hlisted, hlisted, h.names]

end SameButValues

/-- A module whose symbols are given other values. -/
def withValues (module : ObjectModule) (values : String → Int) : ObjectModule :=
  { module with
    exports :=
      ⟨module.exports.symbols.map fun name stored => { stored with value := values name },
        module.exports.named.map fun _ _ => rfl⟩ }

/-- A module given other values differs from the one it was in nothing else. -/
theorem sameButValues_withValues (module : ObjectModule) (values : String → Int) :
    module.SameButValues (module.withValues values) := by
  refine ⟨rfl, fun name => ?_⟩
  simp [Exports, withValues, SymbolTable.get?, Std.ExtTreeMap.getElem?_map]

end ObjectModule

namespace LinkedImage

/-- Memories with words at the same addresses stay on one page or not. -/
theorem checkPage_congr {left right : Memory}
    (h : ∀ address, (left.get? address).isSome = true ↔ (right.get? address).isSome = true) :
    checkPage left = checkPage right := by
  have hfirst : left.first? = right.first? := by
    refine Option.ext fun first => ?_
    rw [Memory.first?_eq_some_iff, Memory.first?_eq_some_iff]
    simp only [h]
  have hlast : left.last? = right.last? := by
    refine Option.ext fun last => ?_
    rw [Memory.last?_eq_some_iff, Memory.last?_eq_some_iff]
    simp only [h]
  rw [checkPage, checkPage, hfirst, hlast]

variable {modules others : List ObjectModule}

/-- Modules that differ in values only can be placed behind such modules. -/
theorem exists_placeRest (hsame : List.Forall₂ ObjectModule.SameButValues modules others)
    {previous otherPrevious : ObjectModule} (hprevious : previous.SameButValues otherPrevious)
    {placed : List ObjectModule} (h : placeRest previous modules = .ok placed) :
    ∃ otherPlaced, placeRest otherPrevious others = .ok otherPlaced ∧
      List.Forall₂ ObjectModule.SameButValues placed otherPlaced := by
  induction hsame generalizing previous otherPrevious placed with
  | nil =>
    obtain rfl := Except.ok.inj h
    exact ⟨[], rfl, .nil⟩
  | cons hmodule _ ih =>
    obtain ⟨stood, hstood, h⟩ := exists_of_bind_eq_ok h
    obtain ⟨rest, hrest, h⟩ := exists_of_bind_eq_ok h
    obtain rfl := Except.ok.inj h
    obtain ⟨otherStood, hotherStood, hsameStood⟩ := hmodule.placeAfter hprevious hstood
    obtain ⟨otherRest, hotherRest, hsameRest⟩ := ih hsameStood hrest
    refine ⟨otherStood :: otherRest, ?_, .cons hsameStood hsameRest⟩
    simp [placeRest, hotherStood, hotherRest, bind, Except.bind, pure, Except.pure]

/-- Modules that differ in values only have the same parts in all that holds no values. -/
theorem flatMap_eq_of_sameButValues {Part : Type} {parts : ObjectModule → List Part}
    (hsame : List.Forall₂ ObjectModule.SameButValues modules others)
    (hparts : ∀ {module other : ObjectModule}, module.SameButValues other →
      parts other = parts module) :
    others.flatMap parts = modules.flatMap parts := by
  induction hsame with
  | nil => rfl
  | cons hmodule _ ih => rw [List.flatMap_cons, List.flatMap_cons, hparts hmodule, ih]

/-- The exports of modules that differ in values only can be collected, and have the same names. -/
theorem exists_collectExports_of_sameButValues
    (hsame : List.Forall₂ ObjectModule.SameButValues modules others)
    {exports : Std.ExtTreeMap String Symbol} (h : collectExports modules = .ok exports) :
    ∃ otherExports, collectExports others = .ok otherExports ∧
      ∀ name : String, (exports[name]?).isSome = true → (otherExports[name]?).isSome = true := by
  -- The names are the same but for their order, so none of them is there twice either.
  have hperm : ((modules.flatMap fun module => module.exports.exports).map Prod.fst).Perm
      ((others.flatMap fun module => module.exports.exports).map Prod.fst) := by
    rw [List.map_flatMap, List.map_flatMap]
    clear h
    induction hsame with
    | nil => exact .nil
    | cons hmodule _ ih =>
      rw [List.flatMap_cons, List.flatMap_cons]
      exact hmodule.perm_names.append ih
  obtain ⟨hnodup, -, hfind⟩ := collects_addExports.spec h
  have hempty : ∀ entry ∈ others.flatMap fun module => module.exports.exports,
      (∅ : Std.ExtTreeMap String Symbol)[entry.1]? = none := by
    simp
  obtain ⟨otherExports, hother⟩ :=
    collects_addExports.exists_collected (hperm.nodup_iff.mp hnodup) hempty
  refine ⟨otherExports, hother, fun name hname => ?_⟩
  obtain ⟨symbol, hsymbol⟩ := Option.isSome_iff_exists.mp hname
  have hmem := ((hfind name symbol).mp hsymbol).resolve_right (by simp)
  obtain ⟨⟨_, twin⟩, htwin, rfl⟩ := List.mem_map.mp (hperm.mem_iff.mp (List.mem_map_of_mem hmem))
  exact Option.isSome_iff_exists.mpr
    ⟨twin, ((collects_addExports.spec hother).2.2 _ _).mpr (.inl htwin)⟩

/-- Modules that differ in values only can be combined, to words at the same addresses. -/
theorem exists_combine_of_sameButValues
    (hsame : List.Forall₂ ObjectModule.SameButValues modules others) {memory : Memory}
    (h : combine modules = .ok memory) :
    ∃ other, combine others = .ok other ∧
      ∀ address, (other.get? address).isSome = true ↔ (memory.get? address).isSome = true := by
  obtain ⟨exports, joined, hexports, hjoined, hpatch⟩ := combine_eq_ok_iff.mp h
  obtain ⟨otherExports, hotherExports, hnames⟩ :=
    exists_collectExports_of_sameButValues hsame hexports
  have hotherJoined : joinModules others = .ok joined := by
    rw [joinModules, flatMap_eq_of_sameButValues hsame fun hmodule => by rw [hmodule.memory_eq]]
    exact hjoined
  have hsites : others.flatMap ObjectModule.imports = modules.flatMap ObjectModule.imports :=
    flatMap_eq_of_sameButValues hsame ObjectModule.SameButValues.imports_eq
  obtain ⟨hsupplied, -, hwritten⟩ := patch_spec hpatch
  have hothers : ∀ site ∈ modules.flatMap ObjectModule.imports,
      (otherExports[site.name]?).isSome = true :=
    fun site hsite => hnames _ (hsupplied site hsite)
  obtain ⟨other, hother⟩ := exists_patch hothers joined
  refine ⟨other, combine_eq_ok_iff.mpr ⟨otherExports, joined, hotherExports, hotherJoined, ?_⟩,
    fun address => ?_⟩
  · rw [hsites]
    exact hother
  · rw [(patch_spec hother).2.2, hwritten]

end LinkedImage

/-- Modules can be linked whatever the values of their exports are. -/
theorem exists_link_of_sameButValues {modules others : List ObjectModule}
    (hsame : List.Forall₂ ObjectModule.SameButValues modules others) {base : Option Word}
    {image : LinkedImage} (h : link modules base = .ok image) :
    ∃ other, link others base = .ok other := by
  cases hsame with
  | nil => cases h
  | cons hmodule hrest =>
    obtain ⟨placed, rest, hplaced, hplacedRest, hofPlaced⟩ := exists_ofPlaced_of_link h
    obtain ⟨otherPlaced, hotherPlaced, hsamePlaced⟩ := hmodule.placeFirst hplaced
    obtain ⟨otherRest, hotherRest, hsameRest⟩ :=
      LinkedImage.exists_placeRest hrest hsamePlaced hplacedRest
    obtain ⟨hcombine, hpage, -⟩ := LinkedImage.ofPlaced_eq_ok_iff.mp hofPlaced
    obtain ⟨memory, hmemory, hwritten⟩ :=
      LinkedImage.exists_combine_of_sameButValues (.cons hsamePlaced hsameRest) hcombine
    refine ⟨⟨memory, otherPlaced.start, otherPlaced.segmentName⟩, ?_⟩
    rw [link, hotherPlaced]
    change (LinkedImage.placeRest otherPlaced _ >>= _) = _
    rw [hotherRest]
    refine LinkedImage.ofPlaced_eq_ok_iff.mpr ⟨hmemory, fun hother => ?_, rfl, rfl⟩
    rw [LinkedImage.checkPage_congr hwritten]
    refine hpage fun hnil => hother ?_
    subst hnil
    cases hsameRest
    rfl

/-- Modules can be linked whatever values their symbols are given. -/
theorem exists_link_withValues {modules : List ObjectModule} {base : Option Word}
    {image : LinkedImage} (h : link modules base = .ok image) (values : String → Int) :
    ∃ other, link (modules.map (ObjectModule.withValues · values)) base = .ok other := by
  refine exists_link_of_sameButValues ?_ h
  rw [List.forall₂_map_right_iff, List.forall₂_same]
  exact fun module _ => module.sameButValues_withValues values

end PageMachine
