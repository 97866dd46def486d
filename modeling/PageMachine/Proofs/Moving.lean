import PageMachine.Proofs.BitField
import PageMachine.ObjectModule

/-!
# Moving a module

A move takes each word, each tag and each import to the shifted address, and changes a word only in
its tagged field. Since shifting is injective, nothing is lost: what the moved module has at a
shifted address is what the module had at the address. These laws hold for every module and every
distance; that a move to an origin is refused when the segment would not fit is all that `relocate`
adds.
-/

namespace PageMachine

/-- Addresses are compared as numbers. -/
theorem isLE_compare (left right : Word) :
    (compare left right).isLE = true ↔ left.toNat ≤ right.toNat := by
  change (compareOfLessAndEq left right).isLE = true ↔ _
  unfold compareOfLessAndEq
  by_cases hlt : left < right
  · rw [if_pos hlt]
    exact iff_of_true rfl (Nat.le_of_lt hlt)
  · by_cases heq : left = right
    · rw [if_neg hlt, if_pos heq, heq]
      exact iff_of_true rfl (Nat.le_refl _)
    · rw [if_neg hlt, if_neg heq]
      refine iff_of_false Bool.false_ne_true fun hle => heq ?_
      exact BitVec.eq_of_toNat_eq (Nat.le_antisymm hle (Nat.not_lt.mp hlt))

namespace Memory

/-- The words of a memory are listed with their addresses. -/
theorem mem_toList_iff {memory : Memory} {address value : Word} :
    (address, value) ∈ memory.toList ↔ memory.get? address = some value := by
  rw [toList, get?]
  exact Std.ExtTreeMap.mem_toList_iff_getElem?_eq_some

/-- Each address is listed once. -/
theorem nodup_toList (memory : Memory) : (memory.toList.map Prod.fst).Nodup := by
  rw [List.Nodup, List.pairwise_map]
  refine Std.ExtTreeMap.distinct_keys_toList.imp fun {left right} hdistinct heq => hdistinct ?_
  rw [heq]
  exact Std.ReflCmp.compare_self

/-- The lowest address is the first listed. -/
theorem first?_eq_head? (memory : Memory) :
    memory.first? = (memory.toList.map Prod.fst).head? := by
  rw [first?, Std.ExtTreeMap.minKey?_eq_head?_keys, toList, Std.ExtTreeMap.map_fst_toList_eq_keys]

/-- The highest address is the last listed. -/
theorem last?_eq_getLast? (memory : Memory) :
    memory.last? = (memory.toList.map Prod.fst).getLast? := by
  rw [last?, Std.ExtTreeMap.maxKey?_eq_getLast?_keys, toList,
    Std.ExtTreeMap.map_fst_toList_eq_keys]

/-- The lowest address is written, and no other written address is below it. -/
theorem first?_eq_some_iff {memory : Memory} {first : Word} :
    memory.first? = some first ↔ (memory.get? first).isSome = true ∧
      ∀ address, (memory.get? address).isSome = true → first.toNat ≤ address.toNat := by
  rw [first?, Std.ExtTreeMap.minKey?_eq_some_iff_mem_and_forall]
  simp only [Std.ExtTreeMap.mem_iff_isSome_getElem?, isLE_compare, get?]

/-- The highest address is written, and no other written address is above it. -/
theorem last?_eq_some_iff {memory : Memory} {last : Word} :
    memory.last? = some last ↔ (memory.get? last).isSome = true ∧
      ∀ address, (memory.get? address).isSome = true → address.toNat ≤ last.toNat := by
  rw [last?, Std.ExtTreeMap.maxKey?_eq_some_iff_mem_and_forall]
  simp only [Std.ExtTreeMap.mem_iff_isSome_getElem?, isLE_compare, get?]

/-- Nothing is written in the empty image only. -/
theorem words_eq_empty_iff {memory : Memory} :
    memory.words = ∅ ↔ ∀ address, memory.get? address = none := by
  constructor
  · intro hempty address
    simp [get?, hempty]
  · intro h
    refine Std.ExtTreeMap.ext_getElem? fun address => ?_
    simpa [get?] using h address

/-- A memory without words has no lowest address. -/
theorem first?_eq_none_iff {memory : Memory} :
    memory.first? = none ↔ ∀ address, memory.get? address = none := by
  rw [first?, Std.ExtTreeMap.minKey?_eq_none_iff, words_eq_empty_iff]

/-- A memory without words has no highest address. -/
theorem last?_eq_none_iff {memory : Memory} :
    memory.last? = none ↔ ∀ address, memory.get? address = none := by
  rw [last?, Std.ExtTreeMap.maxKey?_eq_none_iff, words_eq_empty_iff]

/-- A memory without words has the size zero. -/
theorem size_eq_zero_iff {memory : Memory} :
    memory.size = 0 ↔ ∀ address, memory.get? address = none := by
  rw [size, ← Std.ExtTreeMap.eq_empty_iff_size_eq_zero, words_eq_empty_iff]

/-- Words written at different addresses are all there, and besides them only what was before. -/
theorem get?_writeAll {words : List (Word × Word)} (hnodup : (words.map Prod.fst).Nodup)
    (memory : Memory) (address value : Word) :
    (memory.writeAll words).get? address = some value ↔
      (address, value) ∈ words ∨
        address ∉ words.map Prod.fst ∧ memory.get? address = some value := by
  induction words generalizing memory with
  | nil => simp [writeAll]
  | cons first rest ih =>
    rw [List.map_cons, List.nodup_cons] at hnodup
    obtain ⟨hfirst, hrest⟩ := hnodup
    change ((memory.write first.1 first.2).writeAll rest).get? address = some value ↔ _
    rw [ih hrest, get?_write]
    by_cases haddress : address = first.1
    · subst haddress
      have hnot : ∀ other, (first.1, other) ∉ rest := fun other hmem =>
        hfirst (List.mem_map.mpr ⟨_, hmem, rfl⟩)
      simp [hfirst, hnot, Prod.ext_iff, eq_comm]
    · have hne : (address, value) ≠ first := fun h => haddress (congrArg Prod.fst h)
      simp [haddress, hne]

end Memory

namespace Symbol

/-- A value moved twice is moved by the sum. -/
theorem shift_shift (first second : Int) (symbol : Symbol) :
    (symbol.shift first).shift second = symbol.shift (first + second) := by
  cases hmoves : symbol.relocatable <;> simp [shift, hmoves, Int.add_assoc]

/-- A value moved by nothing is left. -/
theorem shift_zero (symbol : Symbol) : symbol.shift 0 = symbol := by
  simp [shift]

end Symbol

namespace ObjectModule

/-- Shifting does not bring addresses together. -/
theorem shift_inj {delta : Int} {left right : Word} :
    shift delta left = shift delta right ↔ left = right := by
  simp [shift]

/-- Every address is the shift of one. -/
theorem exists_shift_eq (delta : Int) (address : Word) : ∃ before, shift delta before = address :=
  ⟨address - BitVec.ofInt 16 delta, BitVec.sub_add_cancel _ _⟩

/-- A word that moves in one field has that field's tag. -/
theorem ofMask_mask (tag : Relocation) : Relocation.ofMask (0 ||| tag.field.mask) = some tag := by
  cases tag <;> decide

/-- Moving a word adds the distance to the number that was put into its moving field. -/
theorem movedWord_orInto (tag : Relocation) {word : Word} (value delta : Int)
    (h : word &&& tag.field.mask = 0) :
    movedWord delta (some tag) (tag.field.orInto word value) =
      tag.field.orInto word (value + delta) :=
  BitRange.add_orInto value delta h

/-- A moved module has at a shifted address the word of the address, moved by its tag. -/
theorem get?_shiftBy (module : ObjectModule) (delta : Int) (address : Word) :
    (module.shiftBy delta).memory.get? (shift delta address) =
      (module.memory.get? address).map (movedWord delta (module.tag? address)) := by
  let moved := module.memory.toList.map fun entry =>
    (shift delta entry.1, movedWord delta (module.tag? entry.1) entry.2)
  have hnodup : (moved.map Prod.fst).Nodup := by
    have hkeys : moved.map Prod.fst = (module.memory.toList.map Prod.fst).map (shift delta) := by
      simp [moved, Function.comp_def]
    rw [hkeys, List.Nodup, List.pairwise_map]
    exact module.memory.nodup_toList.imp fun hne heq => hne (shift_inj.mp heq)
  have hmem : ∀ value, (shift delta address, value) ∈ moved ↔
      (module.memory.get? address).map (movedWord delta (module.tag? address)) = some value := by
    intro value
    simp only [moved, List.mem_map, Prod.exists, Prod.mk.injEq, Memory.mem_toList_iff, shift_inj,
      Option.map_eq_some_iff]
    constructor
    · rintro ⟨_, word, hword, rfl, rfl⟩
      exact ⟨word, hword, rfl⟩
    · rintro ⟨word, hword, rfl⟩
      exact ⟨address, word, hword, rfl, rfl⟩
  apply Option.ext
  intro value
  change (Memory.empty.writeAll moved).get? _ = _ ↔ _
  rw [Memory.get?_writeAll hnodup, hmem]
  simp [Memory.empty, Memory.get?]

/-- A moved module has at a shifted address the tag of the address. -/
theorem tag?_shiftBy (module : ObjectModule) (delta : Int) (address : Word) :
    (module.shiftBy delta).tag? (shift delta address) = module.tag? address := by
  have hdistinct : (module.relocations.toList.map fun entry =>
      (shift delta entry.1, entry.2)).Pairwise fun left right => ¬compare left.1 right.1 = .eq := by
    rw [List.pairwise_map]
    refine Std.ExtTreeMap.distinct_keys_toList.imp fun {left right} hne heq => hne ?_
    rw [shift_inj.mp (Std.LawfulEqCmp.eq_of_compare heq)]
    exact Std.ReflCmp.compare_self
  have hentry : ∀ tag, (shift delta address, tag) ∈ (module.relocations.toList.map fun entry =>
      (shift delta entry.1, entry.2)) ↔ module.tag? address = some tag := by
    intro tag
    simp only [List.mem_map, Prod.exists, Prod.mk.injEq, shift_inj, tag?,
      Std.ExtTreeMap.mem_toList_iff_getElem?_eq_some]
    constructor
    · rintro ⟨_, _, hsome, rfl, rfl⟩
      exact hsome
    · intro hsome
      exact ⟨address, tag, hsome, rfl, rfl⟩
  cases htag : module.tag? address with
  | some tag =>
    exact Std.ExtTreeMap.getElem?_ofList_of_mem Std.ReflCmp.compare_self hdistinct
      ((hentry tag).mpr htag)
  | none =>
    refine Std.ExtTreeMap.getElem?_ofList_of_contains_eq_false ?_
    rw [List.contains_eq_mem, decide_eq_false_iff_not, List.mem_map]
    rintro ⟨⟨place, tag⟩, hmem, rfl⟩
    rw [hentry, htag] at hmem
    cases hmem

/-- A module that does not export what it imports does not when it is moved. -/
theorem get?_exports_shiftBy_eq_none (module : ObjectModule) (delta : Int)
    (hexternal : ∀ site ∈ module.imports, module.exports.get? site.name = none) :
    ∀ site ∈ (module.shiftBy delta).imports,
      (module.shiftBy delta).exports.get? site.name = none := by
  intro site hsite
  obtain ⟨own, hown, rfl⟩ := List.mem_map.mp hsite
  change (module.exports.relocate delta).get? own.name = none
  rw [SymbolTable.get?_relocate, hexternal own hown]
  rfl

/-- Two modules with the same content are the same. -/
theorem ext_content {left right : ObjectModule} (hname : left.segmentName = right.segmentName)
    (horigin : left.origin = right.origin) (hlength : left.length = right.length)
    (hrelocatable : left.relocatable = right.relocatable) (hstart : left.start = right.start)
    (hmemory : ∀ address, left.memory.get? address = right.memory.get? address)
    (htags : ∀ address, left.tag? address = right.tag? address)
    (hexports : ∀ name, left.exports.get? name = right.exports.get? name)
    (himports : left.imports = right.imports) : left = right := by
  obtain ⟨_, _, _, _, _, leftMemory, leftTags, leftExports, _⟩ := left
  obtain ⟨_, _, _, _, _, rightMemory, rightTags, rightExports, _⟩ := right
  obtain rfl : leftMemory = rightMemory := Memory.ext_get? hmemory
  obtain rfl : leftTags = rightTags := Std.ExtTreeMap.ext_getElem? htags
  obtain rfl : leftExports = rightExports := SymbolTable.ext_get? hexports
  simp_all

/-- Shifting twice shifts by the sum. -/
theorem shift_shift (first second : Int) (address : Word) :
    shift second (shift first address) = shift (first + second) address := by
  rw [shift, shift, shift, BitVec.ofInt_add, BitVec.add_assoc]

/-- A shift by nothing leaves the address. -/
theorem shift_zero (address : Word) : shift 0 address = address := by
  simp [shift]

/-- A shift by the distance of two addresses leads from one to the other. -/
theorem shift_distance (first last : Word) :
    shift ((last.toNat : Int) - first.toNat) first = last := by
  have hfirst := first.isLt
  have hlast := last.isLt
  apply BitVec.eq_of_toNat_eq
  rw [shift, BitVec.toNat_add, BitVec.toNat_ofInt]
  omega

/-- A shift does not go around the end of the address space inside a segment that fits. -/
theorem toNat_shift_distance {first last address : Word} {length : Nat}
    (hfits : last.toNat + length ≤ addressLimit) (hlow : first.toNat ≤ address.toNat)
    (hhigh : address.toNat < first.toNat + length) :
    (shift ((last.toNat : Int) - first.toNat) address).toNat =
      last.toNat + (address.toNat - first.toNat) := by
  have haddress := address.isLt
  unfold addressLimit at hfits
  rw [shift, BitVec.toNat_add, BitVec.toNat_ofInt]
  omega

/-- A word moved twice is moved by the sum. -/
theorem movedWord_movedWord (first second : Int) (tag : Option Relocation) (word : Word) :
    movedWord second tag (movedWord first tag word) = movedWord (first + second) tag word := by
  cases tag with
  | none => rfl
  | some relocation => exact relocation.field.add_add word first second

/-- A word moved by nothing is left. -/
theorem movedWord_zero (tag : Option Relocation) (word : Word) : movedWord 0 tag word = word := by
  cases tag with
  | none => rfl
  | some relocation => exact relocation.field.add_zero word

/-- Moving by two distances is moving by the sum. -/
theorem shiftBy_shiftBy (module : ObjectModule) (first second : Int) :
    (module.shiftBy first).shiftBy second = module.shiftBy (first + second) := by
  refine ext_content rfl (shift_shift ..) rfl rfl (shift_shift ..) ?_ ?_ ?_ ?_
  · intro address
    obtain ⟨before, rfl⟩ := exists_shift_eq (first + second) address
    rw [get?_shiftBy, ← shift_shift, get?_shiftBy, get?_shiftBy, tag?_shiftBy, Option.map_map]
    refine Option.map_congr fun word _ => ?_
    exact movedWord_movedWord first second _ word
  · intro address
    obtain ⟨before, rfl⟩ := exists_shift_eq (first + second) address
    rw [tag?_shiftBy, ← shift_shift, tag?_shiftBy, tag?_shiftBy]
  · intro name
    simp only [shiftBy, SymbolTable.get?_relocate, Option.map_map, Function.comp_def,
      Symbol.shift_shift]
  · simp only [shiftBy, List.map_map, Function.comp_def, shift_shift]

/-- Moving by nothing leaves the module. -/
theorem shiftBy_zero (module : ObjectModule) : module.shiftBy 0 = module := by
  refine ext_content rfl (shift_zero _) rfl rfl (shift_zero _) ?_ ?_ ?_ ?_
  · intro address
    have hmoved := module.get?_shiftBy 0 address
    rw [shift_zero, funext (movedWord_zero _), Option.map_id'] at hmoved
    exact hmoved
  · intro address
    have htag := module.tag?_shiftBy 0 address
    rwa [shift_zero] at htag
  · intro name
    rw [shiftBy, SymbolTable.get?_relocate, funext Symbol.shift_zero, Option.map_id']
  · simp only [shiftBy, shift_zero, List.map_id']

/-- A module moves to an origin if it can be moved and its segment fits there. -/
theorem relocate_eq_ok_iff {module placed : ObjectModule} {origin : Word} :
    module.relocate origin = .ok placed ↔
      module.relocatable = true ∧ origin.toNat + module.length.toNat ≤ addressLimit ∧
        placed = module.shiftBy ((origin.toNat : Int) - module.origin.toNat) := by
  unfold relocate
  split
  · rename_i hstays
    simp [hstays]
  · rename_i hmoves
    have hmoves : module.relocatable = true := by simpa using hmoves
    split
    · rename_i hlong
      simp [hmoves, Nat.not_le.mpr hlong]
    · rename_i hfits
      simp [hmoves, Nat.le_of_not_lt hfits, eq_comm]

/-- A module that can be moved is refused only if its segment does not fit. -/
theorem relocate_of_relocatable {module : ObjectModule} (hmoves : module.relocatable = true)
    (origin : Word) :
    module.relocate origin =
      if addressLimit < origin.toNat + module.length.toNat then
        .error (.addressSpaceExhausted module.segmentName)
      else .ok (module.shiftBy ((origin.toNat : Int) - module.origin.toNat)) :=
  if_neg fun hstays => hstays hmoves

/-- A moved module stands at the origin to which it was moved. -/
theorem origin_of_relocate {module moved : ObjectModule} {origin : Word}
    (h : module.relocate origin = .ok moved) : moved.origin = origin := by
  obtain ⟨-, -, rfl⟩ := relocate_eq_ok_iff.mp h
  exact shift_distance module.origin origin

/-- Where a module comes to stand depends on the last origin only, and so does whether it can be
moved there. -/
theorem relocate_relocate {module middle : ObjectModule} {first : Word}
    (h : module.relocate first = .ok middle) (second : Word) :
    middle.relocate second = module.relocate second := by
  obtain ⟨hmoves, -, hmiddle⟩ := relocate_eq_ok_iff.mp h
  have hname : middle.segmentName = module.segmentName := by rw [hmiddle, shiftBy]
  have hlength : middle.length = module.length := by rw [hmiddle, shiftBy]
  have hstill : middle.relocatable = true := by rw [hmiddle, shiftBy, hmoves]
  have hsame : middle.shiftBy ((second.toNat : Int) - middle.origin.toNat) =
      module.shiftBy ((second.toNat : Int) - module.origin.toNat) := by
    rw [origin_of_relocate h, hmiddle, shiftBy_shiftBy]
    congr 1
    omega
  rw [relocate_of_relocatable hstill, relocate_of_relocatable hmoves, hsame, hname, hlength]

/-- A module that can be moved and fits where it stands can be moved there, which leaves it. -/
theorem relocate_origin {module : ObjectModule} (hmoves : module.relocatable = true)
    (hfits : module.origin.toNat + module.length.toNat ≤ addressLimit) :
    module.relocate module.origin = .ok module := by
  refine relocate_eq_ok_iff.mpr ⟨hmoves, hfits, ?_⟩
  rw [Int.sub_self, shiftBy_zero]

end ObjectModule

end PageMachine
