import Mathlib.Data.List.Nodup
import Mathlib.Logic.Relation
import PageMachine.Proofs.AcceptedFile
import PageMachine.Proofs.Moving
import PageMachine.Proofs.Result

/-!
# Moving a module again and again

A loaded module keeps every address inside its segment, and so does each module that it is moved
to. Moves come to the same as the last of them done directly, so that a module can be moved back to
where it was loaded, and each of them has what was loaded, shifted: no two words meet, and only
tagged fields and the values of relocatable exports are other than in the file.

A module that is changed in place is moved field by field. `moveTo` is this move, with the words
taken one by one as they are listed. It leaves what `relocate` gives, for modules that tag only what
they have written, and leaves the module alone if the move is refused.
-/

namespace PageMachine

namespace ObjectModule

/-- Whether an address lies in the segment. -/
def Contains (module : ObjectModule) (address : Word) : Prop :=
  module.origin.toNat ≤ address.toNat ∧ address.toNat < module.stop

/-- Whether a module keeps to its segment. -/
structure Confined (module : ObjectModule) : Prop where
  /-- The segment fits memory. -/
  fits : module.stop ≤ addressLimit
  /-- Words lie in the segment. -/
  words : ∀ address, (module.memory.get? address).isSome → module.Contains address
  /-- Tags are those of words. -/
  tags : ∀ address, (module.tag? address).isSome → (module.memory.get? address).isSome
  /-- Fields to be filled lie in the segment. -/
  sites : ∀ site ∈ module.imports, module.Contains site.address

/-- A module that holds a file keeps to its segment. -/
theorem HoldsFile.confined {module : ObjectModule} {header : Header} {body : List Record}
    {start : Word} (hholds : module.HoldsFile header body start)
    (hheads : header.Heads body start) : module.Confined := by
  have hcontains (address : Word) : module.Contains address ↔ header.Contains address := by
    rw [Contains, stop, hholds.origin, hholds.length, Header.Contains]
  refine ⟨?_, fun address hword => ?_, fun address htag => ?_, fun site hsite => ?_⟩
  · rw [stop, hholds.origin, hholds.length]
    exact hheads.fits
  · obtain ⟨value, hvalue⟩ := Option.isSome_iff_exists.mp hword
    obtain ⟨word, hmem, rfl, -⟩ := (hholds.memory address value).mp hvalue
    exact (hcontains _).mpr (hheads.admits.words word hmem)
  · obtain ⟨tag, htag⟩ := Option.isSome_iff_exists.mp htag
    obtain ⟨word, hmem, haddress, -⟩ := (hholds.tags address tag).mp htag
    exact Option.isSome_iff_exists.mpr
      ⟨word.value, (hholds.memory address word.value).mpr ⟨word, hmem, haddress, rfl⟩⟩
  · rw [hholds.imports] at hsite
    obtain ⟨record, hrecord, hsome⟩ := List.mem_filterMap.mp hsite
    cases record <;> cases hsome
    exact (hcontains _).mpr (hheads.admits.sites _ hrecord)

/-- A loaded module keeps to its segment. -/
theorem confined_of_load {text : String} {module : ObjectModule} (h : load text = .ok module) :
    module.Confined := by
  obtain ⟨header, body, start, -, hheads, hholds⟩ := load_eq_ok_iff.mp h
  exact hholds.confined hheads

/-- A move takes the addresses of a segment to those of the segment where it then stands. -/
theorem Contains.shift {module moved : ObjectModule} {origin address : Word}
    (hmoved : module.relocate origin = .ok moved) (h : module.Contains address) :
    moved.Contains (shift ((origin.toNat : Int) - module.origin.toNat) address) := by
  obtain ⟨-, hfits, hsame⟩ := relocate_eq_ok_iff.mp hmoved
  have hlength : moved.length = module.length := by rw [hsame, shiftBy]
  unfold Contains stop at h
  rw [Contains, stop, origin_of_relocate hmoved, hlength, toNat_shift_distance hfits h.1 h.2]
  omega

/-- A module that keeps to its segment does so when it is moved. -/
theorem Confined.relocate {module moved : ObjectModule} {origin : Word} (h : module.Confined)
    (hmoved : module.relocate origin = .ok moved) : moved.Confined := by
  have hcontains (address : Word) (haddress : module.Contains address) :=
    haddress.shift hmoved
  have horigin := origin_of_relocate hmoved
  obtain ⟨-, hfits, rfl⟩ := relocate_eq_ok_iff.mp hmoved
  refine ⟨?_, fun address hword => ?_, fun address htag => ?_, fun site hsite => ?_⟩
  · rw [stop, horigin]
    exact hfits
  · obtain ⟨before, rfl⟩ := exists_shift_eq ((origin.toNat : Int) - module.origin.toNat) address
    rw [get?_shiftBy, Option.isSome_map] at hword
    exact hcontains before (h.words before hword)
  · obtain ⟨before, rfl⟩ := exists_shift_eq ((origin.toNat : Int) - module.origin.toNat) address
    rw [tag?_shiftBy] at htag
    rw [get?_shiftBy, Option.isSome_map]
    exact h.tags before htag
  · obtain ⟨own, hown, rfl⟩ := List.mem_map.mp hsite
    exact hcontains own.address (h.sites own hown)

/-- One move of a module. -/
def Moves (before after : ObjectModule) : Prop :=
  ∃ origin, before.relocate origin = .ok after

open Relation (ReflTransGen)

/-- Moves keep a module to its segment. -/
theorem Confined.moves {module moved : ObjectModule} (h : module.Confined)
    (hmoves : ReflTransGen Moves module moved) : moved.Confined := by
  induction hmoves with
  | refl => exact h
  | tail _ hlast ih =>
    obtain ⟨origin, horigin⟩ := hlast
    exact ih.relocate horigin

/-- Moves come to the same as the move to the last origin. -/
theorem relocate_of_moves {module moved : ObjectModule} (hmoves : module.relocatable = true)
    (hfits : module.stop ≤ addressLimit) (h : ReflTransGen Moves module moved) :
    (∀ origin, moved.relocate origin = module.relocate origin) ∧
      module.relocate moved.origin = .ok moved := by
  induction h with
  | refl => exact ⟨fun _ => rfl, relocate_origin hmoves hfits⟩
  | tail _ hlast ih =>
    obtain ⟨origin, horigin⟩ := hlast
    have hdirect := ih.1 origin ▸ horigin
    refine ⟨fun other => relocate_relocate hdirect other, ?_⟩
    rw [origin_of_relocate horigin]
    exact hdirect

/-- A move loses no word and brings none together. -/
theorem size_shiftBy (module : ObjectModule) (delta : Int) :
    (module.shiftBy delta).memory.size = module.memory.size := by
  have hkeys (memory : Memory) (address : Word) :
      address ∈ memory.toList.map Prod.fst ↔ (memory.get? address).isSome := by
    simp [Memory.mem_toList_iff, Option.isSome_iff_exists]
  have hsize (memory : Memory) : (memory.toList.map Prod.fst).length = memory.size := by
    rw [List.length_map, Memory.toList, Std.ExtTreeMap.length_toList, Memory.size]
  have hinjective : Function.Injective (shift delta) := fun _ _ => shift_inj.mp
  have hperm : List.Perm ((module.shiftBy delta).memory.toList.map Prod.fst)
      ((module.memory.toList.map Prod.fst).map (shift delta)) := by
    refine (List.perm_ext_iff_of_nodup (Memory.nodup_toList _)
      (module.memory.nodup_toList.map hinjective)).mpr fun address => ?_
    obtain ⟨before, rfl⟩ := exists_shift_eq delta address
    rw [hkeys, get?_shiftBy, Option.isSome_map, ← hkeys, List.mem_map_of_injective hinjective]
  rw [← hsize, hperm.length_eq, List.length_map, hsize]

/-- How far a module stands behind another. -/
def displacement (module moved : ObjectModule) : Int :=
  (moved.origin.toNat : Int) - module.origin.toNat

/-- What moves leave of a module. -/
structure Displaced (module moved : ObjectModule) : Prop where
  /-- Words lie in the segment. -/
  words : ∀ address, (moved.memory.get? address).isSome → moved.Contains address
  /-- Tags lie in the segment. -/
  tags : ∀ address, (moved.tag? address).isSome → moved.Contains address
  /-- Fields to be filled lie in the segment. -/
  sites : ∀ site ∈ moved.imports, moved.Contains site.address
  /-- There are as many words as before. -/
  size : moved.memory.size = module.memory.size
  /-- An address has a word if it had one where the module stood. -/
  written : ∀ address, (moved.memory.get? (shift (module.displacement moved) address)).isSome ↔
    (module.memory.get? address).isSome
  /-- A word has the tag that it had there. -/
  tag : ∀ address, moved.tag? (shift (module.displacement moved) address) = module.tag? address
  /-- A word without a tag is the same. -/
  untagged : ∀ address, module.tag? address = none →
    moved.memory.get? (shift (module.displacement moved) address) = module.memory.get? address
  /-- A word with a tag is the same outside the field. -/
  tagged : ∀ address tag word value, module.tag? address = some tag →
    module.memory.get? address = some word →
    moved.memory.get? (shift (module.displacement moved) address) = some value →
    ∀ i < 16, ¬tag.field.Covers i → value.getLsbD i = word.getLsbD i
  /-- An export that does not move is the same. -/
  absolutes : ∀ name symbol, module.exports.get? name = some symbol →
    symbol.relocatable = false → moved.exports.get? name = some symbol

/-- A module that keeps to its segment is displaced by a move. -/
theorem Confined.displaced {module moved : ObjectModule} {origin : Word} (h : module.Confined)
    (hmoved : module.relocate origin = .ok moved) : module.Displaced moved := by
  have hconfined := h.relocate hmoved
  have hdisplacement : module.displacement moved = (origin.toNat : Int) - module.origin.toNat := by
    rw [displacement, origin_of_relocate hmoved]
  obtain ⟨-, -, rfl⟩ := relocate_eq_ok_iff.mp hmoved
  refine
    { words := hconfined.words
      tags := fun address htag => hconfined.words address (hconfined.tags address htag)
      sites := hconfined.sites
      size := size_shiftBy module _
      written := fun address => by rw [hdisplacement, get?_shiftBy, Option.isSome_map]
      tag := fun address => by rw [hdisplacement, tag?_shiftBy]
      untagged := fun address htag => ?_
      tagged := fun address tag word value htag hword hvalue i hi houtside => ?_
      absolutes := fun name symbol hsymbol hstays => ?_ }
  · rw [hdisplacement, get?_shiftBy, htag]
    exact Option.map_id'
  · rw [hdisplacement, get?_shiftBy, htag, hword] at hvalue
    obtain rfl := Option.some.inj hvalue
    exact tag.field.getLsbD_add word _ hi houtside
  · rw [shiftBy, SymbolTable.get?_relocate, hsymbol]
    simp [Symbol.shift, hstays]

/-- What is done with a module that is changed in place, and may be refused. The changes made before
that stay. -/
abbrev Edit := ExceptT LinkError (StateM ObjectModule)

/-- Move a word, and note its tag, if it has one, where the word then is. -/
def moveEntry (module : ObjectModule) (delta : Int)
    (moved : Memory × Std.ExtTreeMap Word Relocation) (entry : Word × Word) :
    Memory × Std.ExtTreeMap Word Relocation :=
  match module.tag? entry.1 with
  | some tag =>
      (moved.1.write (shift delta entry.1) (tag.field.add entry.2 delta),
        moved.2.insert (shift delta entry.1) tag)
  | none => (moved.1.write (shift delta entry.1) entry.2, moved.2)

/-- Change the fields one after the other, by the distance from where the module stood. -/
def moveFields (module : ObjectModule) (origin : Word) : Edit Unit := do
  let delta := (origin.toNat : Int) - module.origin.toNat
  let moved := module.memory.toList.foldl (module.moveEntry delta) (.empty, ∅)
  modify fun module => { module with memory := moved.1 }
  modify fun module => { module with relocations := moved.2 }
  modify fun module => { module with exports := module.exports.relocate delta }
  modify fun module =>
    { module with imports := module.imports.map fun site =>
        { site with address := shift delta site.address } }
  modify fun module => { module with start := shift delta module.start }
  modify fun module => { module with origin := origin }

/-- Move the module to an origin, unless it is refused. -/
def moveTo (origin : Word) : Edit Unit := do
  let module ← get
  if ¬module.relocatable then
    throw (.absoluteModuleMoved module.segmentName module.origin origin)
  else if addressLimit < origin.toNat + module.length.toNat then
    throw (.addressSpaceExhausted module.segmentName)
  else module.moveFields origin

/-- The words taken one by one are those of the moved module. -/
theorem foldl_moveEntry_fst (module : ObjectModule) (delta : Int) (entries : List (Word × Word))
    (moved : Memory × Std.ExtTreeMap Word Relocation) :
    (entries.foldl (module.moveEntry delta) moved).1 =
      moved.1.writeAll (entries.map fun entry =>
        (shift delta entry.1, movedWord delta (module.tag? entry.1) entry.2)) := by
  induction entries generalizing moved with
  | nil => rfl
  | cons entry rest ih =>
    rw [List.foldl_cons, ih, List.map_cons, Memory.writeAll, Memory.writeAll, List.foldl_cons]
    congr 1
    unfold moveEntry
    cases module.tag? entry.1 <;> rfl

/-- A word that is taken has its tag noted. -/
theorem getElem?_moveEntry_snd (module : ObjectModule) (delta : Int)
    (moved : Memory × Std.ExtTreeMap Word Relocation) (entry : Word × Word) (address : Word) :
    (module.moveEntry delta moved entry).2[shift delta address]? =
      if address = entry.1 ∧ (module.tag? address).isSome then module.tag? address
      else moved.2[shift delta address]? := by
  unfold moveEntry
  by_cases haddress : address = entry.1
  · subst haddress
    cases htag : module.tag? entry.1 with
    | none => simp
    | some tag => simp
  · have hother : shift delta entry.1 ≠ shift delta address := fun heq =>
      haddress (shift_inj.mp heq).symm
    cases htag : module.tag? entry.1 with
    | none => simp [haddress]
    | some tag => simp [haddress, Std.ExtTreeMap.getElem?_insert, hother]

/-- The tags noted are those of the words taken. -/
theorem getElem?_foldl_moveEntry_snd (module : ObjectModule) (delta : Int)
    (entries : List (Word × Word)) (moved : Memory × Std.ExtTreeMap Word Relocation)
    (address : Word) :
    (entries.foldl (module.moveEntry delta) moved).2[shift delta address]? =
      if address ∈ entries.map Prod.fst ∧ (module.tag? address).isSome then module.tag? address
      else moved.2[shift delta address]? := by
  induction entries generalizing moved with
  | nil => simp
  | cons entry rest ih =>
    simp only [List.foldl_cons, ih, getElem?_moveEntry_snd, List.map_cons, List.mem_cons]
    by_cases hsome : (module.tag? address).isSome = true
    · by_cases hrest : address ∈ rest.map Prod.fst
      · simp only [hrest, hsome, and_self, or_true, if_true]
      · simp only [hrest, false_and, if_false, or_false]
    · simp only [hsome, Bool.false_eq_true, and_false, if_false]

/-- The fields changed one after the other are those of the moved module, if only words are
tagged. -/
theorem run_moveFields {module : ObjectModule}
    (htags : ∀ address, (module.tag? address).isSome → (module.memory.get? address).isSome)
    (origin : Word) :
    (module.moveFields origin).run module =
      (.ok (), module.shiftBy ((origin.toNat : Int) - module.origin.toNat)) := by
  let delta := (origin.toNat : Int) - module.origin.toNat
  let moved := module.memory.toList.foldl (module.moveEntry delta) (.empty, ∅)
  have hmemory : moved.1 = (module.shiftBy delta).memory :=
    module.foldl_moveEntry_fst delta module.memory.toList (.empty, ∅)
  have hrelocations : moved.2 = (module.shiftBy delta).relocations := by
    apply Std.ExtTreeMap.ext_getElem?
    intro address
    obtain ⟨before, rfl⟩ := exists_shift_eq delta address
    have htag : (module.shiftBy delta).relocations[shift delta before]? = module.tag? before :=
      module.tag?_shiftBy delta before
    have hwritten : before ∈ module.memory.toList.map Prod.fst ↔
        (module.memory.get? before).isSome := by
      simp [Memory.mem_toList_iff, Option.isSome_iff_exists]
    rw [htag, getElem?_foldl_moveEntry_snd]
    -- Tags go with their words, so that one without a word would be lost.
    cases hsome : module.tag? before with
    | none => simp
    | some tag =>
      have hword := hwritten.mpr (htags before (by rw [hsome, Option.isSome_some]))
      simp only [hword, Option.isSome_some, and_self, if_true]
  have horigin : origin = (module.shiftBy delta).origin :=
    (shift_distance module.origin origin).symm
  calc (module.moveFields origin).run module
      = (.ok (), { module.shiftBy delta with
          memory := moved.1, relocations := moved.2, origin := origin }) := rfl
    _ = (.ok (), module.shiftBy delta) := by rw [hmemory, hrelocations, horigin]

/-- A module that tags only what it has written is moved in place as it is moved as a whole, and is
left alone if the move is refused. -/
theorem run_moveTo {module : ObjectModule}
    (htags : ∀ address, (module.tag? address).isSome → (module.memory.get? address).isSome)
    (origin : Word) :
    (moveTo origin).run module =
      match module.relocate origin with
      | .ok moved => (.ok (), moved)
      | .error error => (.error error, module) := by
  have hlook (next : ObjectModule → Edit Unit) :
      (get >>= next).run module = (next module).run module := rfl
  rw [moveTo, hlook, relocate]
  split
  · rfl
  · split
    · rfl
    · exact run_moveFields htags origin

/-- A loaded module is moved to an origin exactly if it can be moved and its segment fits there; a
move in place leaves the module alone if it is refused; and if the module can be moved, then a move
to where it stands leaves it, moves come to the same as the last of them alone, they can be taken
back, and they change nothing but what moves. -/
theorem moves_of_load {text : String} {module : ObjectModule} (hload : load text = .ok module) :
    (∀ origin, (∃ placed, module.relocate origin = .ok placed) ↔
      module.relocatable = true ∧ origin.toNat + module.length.toNat ≤ addressLimit) ∧
    (∀ moved, ReflTransGen Moves module moved → ∀ origin,
      (∀ placed, moved.relocate origin = .ok placed →
        (moveTo origin).run moved = (.ok (), placed)) ∧
      ∀ error, moved.relocate origin = .error error →
        (moveTo origin).run moved = (.error error, moved)) ∧
    (module.relocatable = true →
      module.relocate module.origin = .ok module ∧
      (∀ first second middle last, module.relocate first = .ok middle →
        middle.relocate second = .ok last → module.relocate second = .ok last) ∧
      ∀ moved, ReflTransGen Moves module moved →
        (∀ origin, moved.relocate origin = module.relocate origin) ∧
        moved.relocate module.origin = .ok module ∧ module.Displaced moved) := by
  have hconfined := confined_of_load hload
  refine ⟨fun origin => ?_, fun moved hmoved origin => ?_, fun hmoves => ?_⟩
  · simp only [relocate_eq_ok_iff, exists_and_left, exists_eq, and_true]
  · have hrun := run_moveTo (hconfined.moves hmoved).tags origin
    refine ⟨fun placed hplaced => ?_, fun error herror => ?_⟩
    · rwa [hplaced] at hrun
    · rwa [herror] at hrun
  · have hself := relocate_origin hmoves hconfined.fits
    refine ⟨hself, fun first second middle last hfirst hsecond => ?_, fun moved hmoved => ?_⟩
    · rwa [relocate_relocate hfirst] at hsecond
    · obtain ⟨hsame, hdirect⟩ := relocate_of_moves hmoves hconfined.fits hmoved
      exact ⟨hsame, (hsame _).trans hself, hconfined.displaced hdirect⟩

/-- A text whose words have each tag or none, with an import and exports of both kinds. -/
def taggedText : String :=
  "HTaggedMMMM0004\nT0000E1FFM0\nT00010003M1\nT00021234\nI000280PRINT\nXR0001LIST\nXA0005TEN\nE0000"

/-- The module of `taggedText` is moved twice, so that the field of a page offset loses its carry,
and back. -/
theorem moves_of_load_taggedText :
    ∃ module middle last, load taggedText = .ok module ∧ module.relocatable = true ∧
      module.relocate 0x3003 = .ok middle ∧ middle.relocate 0x0101 = .ok last ∧
      module.relocate 0x0101 = .ok last ∧ last.relocate module.origin = .ok module ∧
      module.Displaced last ∧ last.memory.get? 0x0101 = some 0xE100 ∧
      last.memory.get? 0x0102 = some 0x0104 ∧ last.memory.get? 0x0103 = some 0x1234 := by
  let loaded := okValue (load taggedText) (by decide +kernel)
  let first := okValue (loaded.1.relocate 0x3003) (by decide +kernel)
  let second := okValue (first.1.relocate 0x0101) (by decide +kernel)
  have hcontent : loaded.1.relocatable = true ∧ second.1.memory.get? 0x0101 = some 0xE100 ∧
      second.1.memory.get? 0x0102 = some 0x0104 ∧ second.1.memory.get? 0x0103 = some 0x1234 := by
    decide +kernel
  obtain ⟨-, hpath, hmoved⟩ := (moves_of_load loaded.2).2.2 hcontent.1
  have htwice : ReflTransGen Moves loaded.1 second.1 :=
    .tail (.single ⟨_, first.2⟩) ⟨_, second.2⟩
  obtain ⟨-, hback, hdisplaced⟩ := hmoved second.1 htwice
  exact ⟨loaded.1, first.1, second.1, loaded.2, hcontent.1, first.2, second.2,
    hpath _ _ _ _ first.2 second.2, hback, hdisplaced, hcontent.2⟩

end ObjectModule

end PageMachine
