import Std.Data.ExtTreeMap
import PageMachine.Text.Digits

/-!
# Symbols

A symbol gives a value to a name. The value of a relocatable symbol is an address that moves
with its program; that of an absolute one stays. A symbol is imported when another module
supplies its value, and exported when other modules may use it.

A store has symbols under keys, and each symbol stored has its name with it. Symbols are looked up
by key and listed by name, which is the same only if each is stored under its own name. A table is a
store of which this is known: it holds at most one symbol for each name and lists them in the order
of their names. An operation on a table that fails gives no table, so that the one at hand is still
the one before.
-/

namespace PageMachine

/-- What a table knows of a name. -/
structure Symbol where
  /-- The value, which is zero for an imported symbol. -/
  value : Int
  /-- Whether the value moves with the program. -/
  relocatable : Bool
  /-- Whether another module supplies the value. -/
  imported : Bool
  /-- Whether other modules may use the symbol. -/
  exported : Bool
  deriving DecidableEq, Repr

namespace Symbol

/-- A symbol that the program itself defines. -/
def ofValue (value : Int) (relocatable : Bool) : Symbol where
  value := value
  relocatable := relocatable
  imported := false
  exported := false

/-- A symbol that another module defines. -/
def ofImport : Symbol where
  value := 0
  relocatable := false
  imported := true
  exported := false

/-- The low sixteen bits of the value. -/
def word (symbol : Symbol) : BitVec 16 :=
  BitVec.ofInt 16 symbol.value

/-- The symbol with its value moved, if it moves at all. -/
def shift (delta : Int) (symbol : Symbol) : Symbol :=
  if symbol.relocatable then { symbol with value := symbol.value + delta } else symbol

/-- The line that shows a symbol in a listing. -/
def render (name : String) (symbol : Symbol) : String :=
  String.ofList (Text.padRight 8 name.toList) ++ " " ++
    String.ofList (Text.hex 4 symbol.word.toNat) ++
    (if symbol.relocatable then " R" else " A") ++
    (if symbol.imported then " import" else "") ++
    (if symbol.exported then " export" else "")

/-- Whether a text may name a symbol: it is not empty, does not begin like another kind of
operand, and contains nothing that separates operands. -/
def isValidName : List Char → Bool
  | [] => false
  | c :: rest =>
      c != 'x' && c != 'R' && c != '#' && c != '=' &&
        (c :: rest).all fun d => d != ' ' && d != ','

end Symbol

/-- Why a table cannot be changed. -/
inductive SymbolError where
  /-- The name has a symbol already. -/
  | redefinition (name : String)
  /-- The name has no symbol. -/
  | undefined (name : String)
  /-- A name cannot stand for itself. -/
  | aliasToSelf
  /-- The value of an imported symbol is not known yet. -/
  | aliasToImport (name : String)
  deriving DecidableEq, Repr

/-- The wording of an error. -/
def SymbolError.message : SymbolError → String
  | .redefinition name => "Symbol \"" ++ name ++ "\" is already defined."
  | .undefined name => "Undefined symbol \"" ++ name ++ "\"."
  | .aliasToSelf => "Cannot alias a symbol to itself."
  | .aliasToImport name => "Cannot alias imported symbol \"" ++ name ++ "\"."

/-- A symbol with its name, as it is stored. -/
structure NamedSymbol extends Symbol where
  /-- The name. -/
  name : String
  deriving DecidableEq, Repr

/-- Symbols as they are stored, each under a key. -/
abbrev SymbolStore :=
  Std.ExtTreeMap String NamedSymbol

namespace SymbolStore

/-- Store a symbol under its name, whatever is there. -/
def put (store : SymbolStore) (stored : NamedSymbol) : SymbolStore :=
  store.insert stored.name stored

/-- Mark the symbol under a key as exported, if there is one. -/
def mark (store : SymbolStore) (key : String) : SymbolStore :=
  store.modify key fun stored => { stored with exported := true }

/-- Move the values of all relocatable symbols. -/
def shift (store : SymbolStore) (delta : Int) : SymbolStore :=
  store.map fun _ stored => { stored with toSymbol := stored.toSymbol.shift delta }

/-- Whether every symbol is stored under its own name. -/
def Named (store : SymbolStore) : Prop :=
  ∀ (key : String) (stored : NamedSymbol), store[key]? = some stored → stored.name = key

variable {store : SymbolStore}

/-- What is stored under a key after a symbol was put there or elsewhere. -/
theorem getElem?_put (store : SymbolStore) (new : NamedSymbol) (key : String) :
    (store.put new)[key]? = if key = new.name then some new else store[key]? := by
  simp [put, Std.ExtTreeMap.getElem?_insert, eq_comm (a := key)]

/-- What is stored under a key after one was marked. -/
theorem getElem?_mark (store : SymbolStore) (marked key : String) :
    (store.mark marked)[key]? =
      if key = marked then store[marked]?.map fun stored => { stored with exported := true }
      else store[key]? := by
  simp [mark, Std.ExtTreeMap.getElem?_modify, eq_comm (a := key)]

/-- What is stored under a key after all was moved. -/
theorem getElem?_shift (store : SymbolStore) (delta : Int) (key : String) :
    (store.shift delta)[key]? =
      store[key]?.map fun stored => { stored with toSymbol := stored.toSymbol.shift delta } := by
  simp [shift, Std.ExtTreeMap.getElem?_map]

/-- An empty store has no symbol under another name. -/
theorem named_empty : Named ∅ := by
  intro key stored h
  simp at h

/-- A symbol stored under its name leaves each under its own. -/
theorem Named.put (h : store.Named) (new : NamedSymbol) : (store.put new).Named := by
  intro key stored hstored
  rw [getElem?_put] at hstored
  split at hstored
  · rename_i hkey
    rw [← Option.some.inj hstored, hkey]
  · exact h key stored hstored

/-- A mark does not rename a symbol. -/
theorem Named.mark (h : store.Named) (marked : String) : (store.mark marked).Named := by
  intro key stored hstored
  rw [getElem?_mark] at hstored
  split at hstored
  · rename_i hkey
    obtain ⟨known, hknown, rfl⟩ := Option.map_eq_some_iff.mp hstored
    exact (h marked known hknown).trans hkey.symm
  · exact h key stored hstored

/-- A change of all symbols that keeps their names leaves each under its own. -/
theorem Named.map (h : store.Named) {change : String → NamedSymbol → NamedSymbol}
    (hname : ∀ key stored, (change key stored).name = stored.name) : Named (store.map change) := by
  intro key stored hstored
  rw [Std.ExtTreeMap.getElem?_map] at hstored
  obtain ⟨known, hknown, rfl⟩ := Option.map_eq_some_iff.mp hstored
  exact (hname key known).trans (h key known hknown)

/-- A move does not rename symbols. -/
theorem Named.shift (h : store.Named) (delta : Int) : (store.shift delta).Named :=
  h.map fun _ _ => rfl

end SymbolStore

/-- Symbols by name. -/
structure SymbolTable where
  /-- The symbols as they are stored. -/
  symbols : SymbolStore
  /-- Each is stored under its own name. -/
  named : symbols.Named

namespace SymbolTable

/-- The table without symbols. -/
def empty : SymbolTable :=
  ⟨∅, SymbolStore.named_empty⟩

instance : Inhabited SymbolTable :=
  ⟨empty⟩

/-- The symbol of a name. -/
def get? (table : SymbolTable) (name : String) : Option Symbol :=
  (table.symbols[name]?).map NamedSymbol.toSymbol

/-- Whether a name has a symbol. -/
def contains (table : SymbolTable) (name : String) : Bool :=
  table.symbols.contains name

/-- The number of symbols. -/
def size (table : SymbolTable) : Nat :=
  table.symbols.size

/-- The symbols with the names stored with them, in the order of their keys. -/
def toList (table : SymbolTable) : List (String × Symbol) :=
  table.symbols.toList.map fun entry => (entry.2.name, entry.2.toSymbol)

/-- The exported symbols with their names, in the order of the names. -/
def exports (table : SymbolTable) : List (String × Symbol) :=
  table.toList.filter fun entry => entry.2.exported

/-- Give a symbol to a name that has none. -/
def define (table : SymbolTable) (name : String) (symbol : Symbol) :
    Except SymbolError SymbolTable :=
  if table.contains name then .error (.redefinition name)
  else .ok ⟨table.symbols.put ⟨symbol, name⟩, table.named.put _⟩

/-- Declare a name that another module defines. -/
def defineImport (table : SymbolTable) (name : String) : Except SymbolError SymbolTable :=
  table.define name .ofImport

/-- Let a name stand for the present value of another. -/
def defineAlias (table : SymbolTable) (name target : String) : Except SymbolError SymbolTable :=
  if name = target then .error .aliasToSelf
  else
    match table.get? target with
    | none => .error (.undefined target)
    | some symbol =>
        if symbol.imported then .error (.aliasToImport target)
        else table.define name (.ofValue symbol.value symbol.relocatable)

/-- Let other modules use a symbol. -/
def markExport (table : SymbolTable) (name : String) : Except SymbolError SymbolTable :=
  if table.contains name then .ok ⟨table.symbols.mark name, table.named.mark name⟩
  else .error (.undefined name)

/-- Move the values of all relocatable symbols. -/
def relocate (table : SymbolTable) (delta : Int) : SymbolTable :=
  ⟨table.symbols.shift delta, table.named.shift delta⟩

/-- What is stored under a name is the symbol of the name, with the name. -/
theorem getElem?_symbols (table : SymbolTable) (name : String) :
    table.symbols[name]? = (table.get? name).map (NamedSymbol.mk · name) := by
  rw [get?, Option.map_map]
  cases hstored : table.symbols[name]? with
  | none => rfl
  | some stored =>
    obtain rfl := table.named name stored hstored
    rfl

/-- Tables with the same symbols are the same. -/
theorem ext_get? {left right : SymbolTable} (h : ∀ name, left.get? name = right.get? name) :
    left = right := by
  have hsymbols : left.symbols = right.symbols := Std.ExtTreeMap.ext_getElem? fun name => by
    rw [getElem?_symbols, getElem?_symbols, h]
  cases left
  cases right
  congr

/-- The names with a symbol are those that a table contains. -/
theorem contains_iff {table : SymbolTable} {name : String} :
    table.contains name = true ↔ table.get? name ≠ none := by
  simp [contains, get?]

/-- A definition fails for a name that has a symbol, and only then. -/
theorem define_eq_error_iff {table : SymbolTable} {name : String} {symbol : Symbol}
    {error : SymbolError} :
    table.define name symbol = .error error ↔
      table.get? name ≠ none ∧ error = .redefinition name := by
  rw [define, ← contains_iff]
  split
  · rename_i hknown
    exact ⟨fun h => ⟨hknown, (Except.error.inj h).symm⟩, fun h => congrArg Except.error h.2.symm⟩
  · rename_i hnew
    exact iff_of_false nofun fun h => hnew h.1

/-- A name that has no symbol can be given one. -/
theorem exists_define_eq_ok {table : SymbolTable} {name : String} (symbol : Symbol)
    (h : table.get? name = none) : ∃ grown, table.define name symbol = .ok grown :=
  ⟨_, if_neg fun hknown => contains_iff.mp hknown h⟩

/-- A definition that succeeds was of a new name. -/
theorem get?_eq_none_of_define {table grown : SymbolTable} {name : String} {symbol : Symbol}
    (h : table.define name symbol = .ok grown) : table.get? name = none := by
  cases hget : table.get? name with
  | none => rfl
  | some known =>
    have hknown : table.get? name ≠ none := by simp [hget]
    cases (define_eq_error_iff.mpr ⟨hknown, rfl⟩).symm.trans h

/-- A name just defined has the symbol given to it, and no other name has changed. -/
theorem get?_define {table grown : SymbolTable} {name : String} {symbol : Symbol}
    (h : table.define name symbol = .ok grown) (other : String) :
    grown.get? other = if other = name then some symbol else table.get? other := by
  unfold define at h
  split at h
  · exact nomatch h
  · cases h
    rw [get?, SymbolStore.getElem?_put, apply_ite (Option.map _)]
    rfl

/-- A definition adds its name to those that a table contains. -/
theorem contains_define_iff {table grown : SymbolTable} {name : String} {symbol : Symbol}
    (h : table.define name symbol = .ok grown) (other : String) :
    grown.contains other = true ↔ table.contains other = true ∨ other = name := by
  rw [contains_iff, contains_iff, get?_define h]
  split
  · rename_i heq
    exact iff_of_true nofun (.inr heq)
  · rename_i hne
    rw [or_iff_left hne]

/-- A definition keeps the symbols there are. -/
theorem get?_define_of_get? {table grown : SymbolTable} {name other : String}
    {symbol known : Symbol} (h : table.define name symbol = .ok grown)
    (hknown : table.get? other = some known) : grown.get? other = some known := by
  rw [get?_define h, if_neg, hknown]
  rintro rfl
  cases (get?_eq_none_of_define h).symm.trans hknown

/-- A definition adds one symbol. -/
theorem size_define {table grown : SymbolTable} {name : String} {symbol : Symbol}
    (h : table.define name symbol = .ok grown) : grown.size = table.size + 1 := by
  unfold define at h
  split at h
  · cases h
  · rename_i hnew
    obtain rfl := Except.ok.inj h
    exact Std.ExtTreeMap.size_insert.trans (if_neg hnew)

/-- A symbol that is known can be marked as exported. -/
theorem exists_markExport_eq_ok {table : SymbolTable} {name : String} {symbol : Symbol}
    (h : table.get? name = some symbol) : ∃ marked, table.markExport name = .ok marked :=
  ⟨_, if_pos (contains_iff.mpr (by simp [h]))⟩

/-- A symbol that is not known cannot be marked. -/
theorem markExport_eq_error {table : SymbolTable} {name : String} (h : table.get? name = none) :
    table.markExport name = .error (.undefined name) :=
  if_neg fun hknown => contains_iff.mp hknown h

/-- Marking a symbol as exported changes this mark and no other symbol. -/
theorem get?_markExport {table marked : SymbolTable} {name : String} {symbol : Symbol}
    (hsome : table.get? name = some symbol) (h : table.markExport name = .ok marked)
    (other : String) :
    marked.get? other =
      if other = name then some { symbol with exported := true } else table.get? other := by
  unfold markExport at h
  split at h
  · obtain rfl := Except.ok.inj h
    have hstored := table.getElem?_symbols name
    rw [hsome] at hstored
    rw [get?, SymbolStore.getElem?_mark, hstored, apply_ite (Option.map _)]
    rfl
  · cases h

/-- Marking a symbol as exported adds none. -/
theorem size_markExport {table marked : SymbolTable} {name : String}
    (h : table.markExport name = .ok marked) : marked.size = table.size := by
  unfold markExport at h
  split at h
  · obtain rfl := Except.ok.inj h
    exact Std.ExtTreeMap.size_modify
  · cases h

/-- A table lists exactly its symbols. -/
theorem mem_toList_iff {table : SymbolTable} {name : String} {symbol : Symbol} :
    (name, symbol) ∈ table.toList ↔ table.get? name = some symbol := by
  rw [toList, List.mem_map]
  constructor
  · rintro ⟨⟨key, stored⟩, hmem, heq⟩
    cases heq
    have hstored := Std.ExtTreeMap.mem_toList_iff_getElem?_eq_some.mp hmem
    rw [get?, table.named key stored hstored, hstored, Option.map_some]
  · intro hsome
    refine ⟨(name, ⟨symbol, name⟩), ?_, rfl⟩
    rw [Std.ExtTreeMap.mem_toList_iff_getElem?_eq_some, getElem?_symbols, hsome, Option.map_some]

/-- A table lists each name once. -/
theorem nodup_toList (table : SymbolTable) : (table.toList.map Prod.fst).Nodup := by
  have hkeys : table.toList.map Prod.fst = table.symbols.toList.map Prod.fst := by
    rw [toList, List.map_map]
    refine List.map_congr_left fun entry hentry => ?_
    exact table.named _ _ (Std.ExtTreeMap.mem_toList_iff_getElem?_eq_some.mp hentry)
  rw [hkeys, List.Nodup, List.pairwise_map]
  refine Std.ExtTreeMap.distinct_keys_toList.imp ?_
  intro left right hdistinct heq
  exact hdistinct (heq ▸ Std.ReflCmp.compare_self)

/-- A table lists exactly its exported symbols as exports. -/
theorem mem_exports_iff {table : SymbolTable} {entry : String × Symbol} :
    entry ∈ table.exports ↔ table.get? entry.1 = some entry.2 ∧ entry.2.exported = true := by
  rw [exports, List.mem_filter]
  exact and_congr_left' mem_toList_iff

/-- A table lists each exported name once. -/
theorem nodup_exports (table : SymbolTable) : (table.exports.map Prod.fst).Nodup :=
  table.nodup_toList.sublist (List.filter_sublist.map Prod.fst)

/-- Relocation moves each symbol by itself. -/
theorem get?_relocate (table : SymbolTable) (delta : Int) (name : String) :
    (table.relocate delta).get? name = (table.get? name).map (Symbol.shift delta) := by
  rw [get?, relocate, SymbolStore.getElem?_shift, get?, Option.map_map, Option.map_map]
  rfl

/-- Relocation adds no symbol. -/
theorem size_relocate (table : SymbolTable) (delta : Int) :
    (table.relocate delta).size = table.size :=
  Std.ExtTreeMap.size_map

end SymbolTable

end PageMachine
