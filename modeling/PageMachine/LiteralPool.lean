import Std.Data.ExtTreeMap
import PageMachine.Memory

/-!
# The literal pool

The words that a program uses as literals are stored once each behind its statements, in the
order in which they are first used. Until the size of the program is known the pool lies at
address zero.

A pool keeps its words as a list and, beside it, an index of their places. The list is what is
stored and the index is what is asked; nothing but the way in which words are added keeps the two
in step. `Indexed` says that they are.
-/

namespace PageMachine

/-- The literals of a program. -/
structure LiteralPool where
  /-- The words in their order. -/
  values : List Word
  /-- The place of each word. -/
  index : Std.ExtTreeMap Word Nat
  /-- The address of the first. -/
  offset : Word

namespace LiteralPool

/-- The pool without literals. -/
def empty : LiteralPool where
  values := []
  index := ∅
  offset := 0

/-- The number of words. -/
def size (pool : LiteralPool) : Nat :=
  pool.values.length

/-- The place of a word in the pool. -/
def index? (pool : LiteralPool) (value : Word) : Option Nat :=
  pool.index[value]?

/-- The pool with a word in it, and the word's place. -/
def define (pool : LiteralPool) (value : Word) : LiteralPool × Nat :=
  match pool.index? value with
  | some n => (pool, n)
  | none =>
      ({ pool with
          values := pool.values ++ [value]
          index := pool.index.insert value pool.size },
        pool.size)

/-- The pool moved to an address. -/
def setOffset (pool : LiteralPool) (offset : Word) : LiteralPool :=
  { pool with offset := offset }

/-- The address of a place in the pool. -/
def addressAt (pool : LiteralPool) (n : Nat) : Word :=
  pool.offset + BitVec.ofNat 16 n

/-- The address of a word. -/
def addressOf? (pool : LiteralPool) (value : Word) : Option Word :=
  (pool.index? value).map pool.addressAt

/-- The words with their addresses. -/
def toList (pool : LiteralPool) : List (Word × Word) :=
  pool.values.mapIdx fun n value => (pool.addressAt n, value)

/-- Whether the index has the places of the words in the list, and no others. -/
def Indexed (pool : LiteralPool) : Prop :=
  ∀ value place, pool.index? value = some place ↔ pool.values[place]? = some value

variable {pool : LiteralPool} {value other : Word} {place : Nat}

/-- A word that has a place is not given another. -/
theorem define_of_index? (h : pool.index? value = some place) :
    pool.define value = (pool, place) := by
  rw [define, h]

/-- A word that has none is put behind the others, into the list and into the index. -/
theorem define_of_index?_eq_none (h : pool.index? value = none) :
    pool.define value =
      (⟨pool.values ++ [value], pool.index.insert value pool.size, pool.offset⟩, pool.size) := by
  rw [define, h]

/-- Defining a word gives it a place if it has none, and no other word another place. -/
theorem index?_define_eq (pool : LiteralPool) (value other : Word) :
    (pool.define value).1.index? other =
      if other = value then some (pool.define value).2 else pool.index? other := by
  cases hindex : pool.index? value with
  | some place =>
    rw [define_of_index? hindex]
    split
    · rename_i heq
      rw [heq, hindex]
    · rfl
  | none =>
    rw [define_of_index?_eq_none hindex]
    simp [index?, Std.ExtTreeMap.getElem?_insert, eq_comm (a := other)]

/-- The place of a word just defined. -/
theorem index?_define (pool : LiteralPool) (value : Word) :
    (pool.define value).1.index? value = some (pool.define value).2 :=
  (pool.index?_define_eq value value).trans (if_pos rfl)

/-- The index of a pool without words is in step with them. -/
theorem indexed_empty : empty.Indexed := by
  intro value place
  simp [empty, index?]

/-- Moving a pool leaves words and places as they are. -/
theorem Indexed.setOffset (h : pool.Indexed) (offset : Word) : (pool.setOffset offset).Indexed :=
  h

/-- The index is in step with the list before a word is defined, and so it is afterwards. -/
theorem Indexed.define (h : pool.Indexed) (value : Word) : (pool.define value).1.Indexed := by
  intro other place
  rw [index?_define_eq]
  cases hindex : pool.index? value with
  | some known =>
    rw [define_of_index? hindex]
    split
    · rename_i heq
      rw [heq, ← hindex]
      exact h value place
    · exact h other place
  | none =>
    have hnew : pool.values[place]? ≠ some value := fun hvalue => by
      cases hindex.symm.trans ((h value place).mpr hvalue)
    rw [define_of_index?_eq_none hindex, List.getElem?_append, List.getElem?_singleton]
    dsimp only
    by_cases hother : other = value
    · subst hother
      rw [if_pos rfl, Option.some.injEq, size]
      split
      · exact iff_of_false (by omega) hnew
      · split
        · exact iff_of_true (by omega) rfl
        · exact iff_of_false (by omega) nofun
    · rw [if_neg hother, h other place]
      split
      · exact Iff.rfl
      · rename_i hbound
        rw [List.getElem?_eq_none (Nat.le_of_not_lt hbound)]
        split
        · exact iff_of_false nofun fun heq => hother (Option.some.inj heq).symm
        · exact Iff.rfl

/-- The words of a pool are those that have a place. -/
theorem Indexed.isSome_index? (h : pool.Indexed) :
    (pool.index? value).isSome = true ↔ value ∈ pool.values := by
  rw [Option.isSome_iff_exists, List.mem_iff_getElem?]
  exact exists_congr fun place => h value place

/-- A place in the pool is not behind its words. -/
theorem Indexed.lt_size (h : pool.Indexed) (hplace : pool.index? value = some place) :
    place < pool.size :=
  (List.getElem?_eq_some_iff.mp ((h value place).mp hplace)).1

/-- A word that is not in the pool has no place. -/
theorem Indexed.index?_eq_none (h : pool.Indexed) :
    pool.index? value = none ↔ value ∉ pool.values := by
  rw [← h.isSome_index?, Bool.not_eq_true, Option.isSome_eq_false_iff, Option.isNone_iff_eq_none]

/-- No word is in the list twice, since it has one place. -/
theorem Indexed.nodup (h : pool.Indexed) : pool.values.Nodup := by
  refine List.pairwise_iff_getElem.mpr fun first second hfirst hsecond hlt heq => ?_
  have hplace := (h _ first).mpr (List.getElem?_eq_getElem hfirst)
  have htwin := (h _ second).mpr (List.getElem?_eq_getElem hsecond)
  rw [heq, htwin] at hplace
  exact Nat.ne_of_gt hlt (Option.some.inj hplace)

end LiteralPool

end PageMachine
