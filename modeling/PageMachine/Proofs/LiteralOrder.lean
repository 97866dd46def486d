import Mathlib.Data.Fintype.Card
import PageMachine.Proofs.LiteralPooling

/-!
# Places in the literal pool

A value gets its place when it is first defined and keeps it: the list of values only ever grows at
its end, and no entry of the index is overwritten. Whatever is done, the index has the place at
which each value stands in the list, and places of no other values. The address of a value moves
with the offset of the pool, which may be set at any time. No value is in the list twice, so there
are no more of them than words of sixteen bits; their places are too few for two addresses to meet,
even if the pool runs over the end of memory.

Pools may be as large as they can get here; how many literals a program may have is no matter of the
pool.
-/

namespace PageMachine

namespace LiteralPool

/-- What can be done to a pool. -/
inductive Action where
  | define (value : Word)
  | setOffset (offset : Word)

/-- The value that an action defines. -/
def Action.value? : Action → Option Word
  | define value => some value
  | setOffset _ => none

/-- The offset that an action sets. -/
def Action.offset? : Action → Option Word
  | define _ => none
  | setOffset offset => some offset

/-- The pool after an action. -/
def act (pool : LiteralPool) : Action → LiteralPool
  | .define value => (pool.define value).1
  | .setOffset offset => pool.setOffset offset

/-- The pool after several actions in turn. -/
def actAll (pool : LiteralPool) (actions : List Action) : LiteralPool :=
  actions.foldl act pool

variable {pool : LiteralPool} {value other : Word} {place : Nat}

/-- An action keeps the index in step with the values. -/
theorem Indexed.act (h : pool.Indexed) (action : Action) : (pool.act action).Indexed := by
  cases action with
  | define value => exact h.define value
  | setOffset offset => exact h.setOffset offset

/-- The index stays in step with the values through several actions. -/
theorem Indexed.actAll (h : pool.Indexed) (actions : List Action) :
    (pool.actAll actions).Indexed := by
  induction actions generalizing pool with
  | nil => exact h
  | cons action rest ih => exact ih (h.act action)

/-- An action does not move the entries of the index. -/
theorem index?_act (h : pool.index? value = some place) (action : Action) :
    (pool.act action).index? value = some place := by
  cases action with
  | define other =>
    rw [act, index?_define_eq]
    split
    · rename_i heq
      rw [← heq, define_of_index? h]
    · exact h
  | setOffset offset => exact h

/-- The entries of the index stay where they are through several actions. -/
theorem index?_actAll (h : pool.index? value = some place) (actions : List Action) :
    (pool.actAll actions).index? value = some place := by
  induction actions generalizing pool with
  | nil => exact h
  | cons action rest ih => exact ih (index?_act h action)

/-- The entry at a place is the value there with its address. -/
theorem Indexed.getElem?_toList (hindexed : pool.Indexed) (h : pool.index? value = some place) :
    pool.toList[place]? = some (pool.addressAt place, value) := by
  rw [toList, List.getElem?_mapIdx, (hindexed value place).mp h, Option.map_some]

/-- The address of a place, which wraps at the end of memory. -/
theorem toNat_addressAt (pool : LiteralPool) (place : Nat) :
    (pool.addressAt place).toNat = (pool.offset.toNat + place) % 65536 := by
  rw [addressAt, BitVec.toNat_add, BitVec.toNat_ofNat, Nat.add_mod_mod]

/-- No pool holds more values than there are words. -/
theorem size_le (h : pool.values.Nodup) : pool.size ≤ 65536 := by
  have hnodup : (pool.values.map BitVec.toFin).Nodup :=
    h.map fun _ _ => BitVec.toFin_inj.mp
  have hcard := hnodup.length_le_card
  rwa [List.length_map, Fintype.card_fin] at hcard

/-- Different values have different addresses. -/
theorem Indexed.eq_of_addressOf? {address : Word} (hindexed : pool.Indexed)
    (h : pool.addressOf? value = some address) (hother : pool.addressOf? other = some address) :
    value = other := by
  obtain ⟨place, hplace, rfl⟩ := Option.map_eq_some_iff.mp h
  obtain ⟨twin, htwin, hsame⟩ := Option.map_eq_some_iff.mp hother
  have hsize := size_le hindexed.nodup
  have hbound := hindexed.lt_size hplace
  have htwinBound := hindexed.lt_size htwin
  have hnumber := congrArg BitVec.toNat hsame
  rw [toNat_addressAt, toNat_addressAt] at hnumber
  obtain rfl : twin = place := by omega
  have hvalue := (hindexed value twin).mp hplace
  rw [(hindexed other twin).mp htwin] at hvalue
  exact (Option.some.inj hvalue).symm

/-- The values that actions define, in turn. -/
def definedValues (actions : List Action) : List Word :=
  actions.filterMap Action.value?

/-- The offset that is set last, or that of an empty pool. -/
def lastOffset (actions : List Action) : Word :=
  (actions.filterMap Action.offset?).getLast?.getD 0

/-- The values are those that actions define. -/
theorem mem_definedValues_iff {actions : List Action} :
    value ∈ definedValues actions ↔ .define value ∈ actions := by
  rw [definedValues, List.mem_filterMap]
  constructor
  · rintro ⟨action, hmem, hvalue⟩
    cases action with
    | define defined =>
      obtain rfl : defined = value := Option.some.inj hvalue
      exact hmem
    | setOffset => cases hvalue
  · exact fun hmem => ⟨_, hmem, rfl⟩

/-- A value defined again does not count. -/
theorem eraseDups_append_singleton (values : List Word) (value : Word) :
    (values ++ [value]).eraseDups =
      if value ∈ values.eraseDups then values.eraseDups else values.eraseDups ++ [value] := by
  rw [List.eraseDups_append, List.cons_removeAll]
  by_cases hmem : value ∈ values <;> simp [hmem, List.eraseDups_cons]

/-- The actions that are done last on a pool are done on what the others made of it. -/
theorem actAll_append_singleton (pool : LiteralPool) (actions : List Action) (action : Action) :
    pool.actAll (actions ++ [action]) = (pool.actAll actions).act action :=
  List.foldl_concat ..

/-- A pool holds the values that actions define, in the order in which they are first defined. -/
theorem values_actAll (actions : List Action) :
    (empty.actAll actions).values = (definedValues actions).eraseDups := by
  induction actions using List.reverseRecOn with
  | nil => rfl
  | append_singleton actions action ih =>
    rw [actAll_append_singleton, definedValues, List.filterMap_append]
    cases action with
    | define value =>
      rw [act, (indexed_empty.actAll actions).values_define, ih]
      exact (eraseDups_append_singleton _ value).symm
    | setOffset offset =>
      rw [List.filterMap_cons_none rfl, List.filterMap_nil, List.append_nil]
      exact ih

/-- Defining a value leaves the offset. -/
theorem offset_define (pool : LiteralPool) (value : Word) :
    (pool.define value).1.offset = pool.offset := by
  unfold define
  split <;> rfl

/-- The offset of a pool is the one set last. -/
theorem offset_actAll (actions : List Action) :
    (empty.actAll actions).offset = lastOffset actions := by
  induction actions using List.reverseRecOn with
  | nil => rfl
  | append_singleton actions action ih =>
    rw [actAll_append_singleton, lastOffset, List.filterMap_append]
    cases action with
    | define value =>
      rw [List.filterMap_cons_none rfl, List.filterMap_nil, List.append_nil]
      exact (offset_define _ value).trans ih
    | setOffset offset =>
      have hlast : [Action.setOffset offset].filterMap Action.offset? = [offset] := rfl
      rw [hlast, List.getLast?_concat]
      rfl

/-- Whether a pool is what actions make of an empty one. -/
structure HoldsDefined (pool : LiteralPool) (actions : List Action) : Prop where
  /-- It holds the values that were defined, in the order in which they first were. -/
  values : pool.values = (definedValues actions).eraseDups
  /-- The index has the places of the values in the list, and no others. -/
  indexed : ∀ (value : Word) (place : Nat),
    pool.index[value]? = some place ↔ pool.values[place]? = some value
  /-- It holds each of them once. -/
  nodup : pool.values.Nodup
  /-- It holds no others. -/
  mem_iff : ∀ value, value ∈ pool.values ↔ .define value ∈ actions
  /-- Its offset is the one set last. -/
  offset : pool.offset = lastOffset actions
  /-- A value that is defined keeps the place that it gets, whatever is done afterwards, and gets it
  again when it is defined again. -/
  place : ∀ value later,
    ((pool.define value).1.actAll later).values[(pool.define value).2]? = some value ∧
      (((pool.define value).1.actAll later).define value).2 = (pool.define value).2
  /-- A value has an address if it was defined, which is that of its place. -/
  addressOf?_iff : ∀ value address, pool.addressOf? value = some address ↔
    .define value ∈ actions ∧
      address.toNat = (pool.offset.toNat + (pool.define value).2) % 65536
  /-- The entry at its place is the value with this address. -/
  entry : ∀ value address, pool.addressOf? value = some address →
    pool.toList[(pool.define value).2]? = some (address, value)
  /-- Two values do not have the same address. -/
  apart : ∀ value other address, pool.addressOf? value = some address →
    pool.addressOf? other = some address → value = other

/-- Whatever is defined and wherever the pool is set, in any order: list and index of the pool agree
on where each value stands. It holds each value that was defined once, in the order of the first
definitions, at a place that the value keeps and with an address of its own. -/
theorem holdsDefined_of_actions (actions : List Action) :
    (empty.actAll actions).HoldsDefined actions := by
  have hindexed := indexed_empty.actAll actions
  have hmem : ∀ value, value ∈ (empty.actAll actions).values ↔ .define value ∈ actions := by
    intro value
    rw [values_actAll, List.mem_eraseDups, mem_definedValues_iff]
  generalize hpool : empty.actAll actions = pool at hindexed hmem
  exact
    { values := hpool ▸ values_actAll actions
      indexed := hindexed
      nodup := hindexed.nodup
      mem_iff := hmem
      offset := hpool ▸ offset_actAll actions
      place := by
        intro value later
        have hlater := index?_actAll (pool.index?_define value) later
        have hstays := (hindexed.define value).actAll later
        refine ⟨(hstays value _).mp hlater, ?_⟩
        rw [define_of_index? hlater]
      addressOf?_iff := by
        intro value address
        rw [← hmem]
        constructor
        · intro haddress
          obtain ⟨place, hplace, rfl⟩ := Option.map_eq_some_iff.mp haddress
          refine ⟨hindexed.isSome_addressOf?.mp (Option.isSome_of_eq_some haddress), ?_⟩
          rw [define_of_index? hplace, toNat_addressAt]
        · rintro ⟨hvalue, haddress⟩
          obtain ⟨place, hplace⟩ :=
            Option.isSome_iff_exists.mp (hindexed.isSome_index?.mpr hvalue)
          rw [define_of_index? hplace, ← toNat_addressAt] at haddress
          rw [addressOf?, hplace, Option.map_some, BitVec.eq_of_toNat_eq haddress]
      entry := by
        intro value address haddress
        obtain ⟨place, hplace, rfl⟩ := Option.map_eq_some_iff.mp haddress
        rw [define_of_index? hplace]
        exact hindexed.getElem?_toList hplace
      apart := fun value other address => hindexed.eq_of_addressOf? }

/-- Two values, of which one is defined twice, in a pool that begins at the end of memory. -/
def wrappingActions : List Action :=
  [.define 5, .define 0xFFFF, .setOffset 0xFFFF, .define 5]

/-- The second value is at address zero, at the place that it got before the pool was there. -/
theorem holdsDefined_wrappingActions :
    .define 0xFFFF ∈ wrappingActions ∧
      (empty.actAll wrappingActions).values = [5, 0xFFFF] ∧
      (empty.actAll wrappingActions).index[(0xFFFF : Word)]? = some 1 ∧
      (empty.actAll wrappingActions).addressOf? 0xFFFF = some 0 ∧
      (empty.actAll wrappingActions).toList[1]? = some (0, 0xFFFF) ∧
      (empty.actAll wrappingActions).addressOf? 5 ≠ some 0 ∧
      (((empty.actAll wrappingActions).actAll [.setOffset 0x3010, .define 7]).define 5).2 = 0 := by
  have hholds := holdsDefined_of_actions wrappingActions
  have hmem : Action.define 0xFFFF ∈ wrappingActions := .tail _ (.head _)
  have hvalues : (empty.actAll wrappingActions).values = [5, 0xFFFF] :=
    hholds.values.trans (by decide)
  have haddress : (empty.actAll wrappingActions).addressOf? 0xFFFF = some 0 :=
    (hholds.addressOf?_iff 0xFFFF 0).mpr ⟨hmem, by decide⟩
  have hindex : (empty.actAll wrappingActions).index[(0xFFFF : Word)]? = some 1 :=
    (hholds.indexed _ _).mpr (by rw [hvalues]; rfl)
  refine ⟨hmem, hvalues, hindex, haddress, hholds.entry _ _ haddress, ?_,
    (hholds.place 5 [.setOffset 0x3010, .define 7]).2⟩
  intro hfive
  exact absurd (hholds.apart _ _ _ hfive haddress) (by decide)

end LiteralPool

end PageMachine
