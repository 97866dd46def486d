import PageMachine.Symbol

/-!
# The history of a symbol table

An action on a table is refused, and then the table is as it was, or it makes one of three changes:
it adds one symbol, marks one as exported, or moves all that move. `Changes` says so once for all,
and `Symbol.follow` is what is left of it for a symbol that is in the table: no later action can
remove it or give its name another meaning.

A store that is changed in place could keep part of what fails, and nothing but the way in which it
is changed keeps a symbol under its own name. `SymbolStore.Edit` is what is done with such a store.
It comes to the same as with a table: nothing is written before the last check, a symbol is put
under the name that it has, and no later change renames it.

So a table is determined by the actions that added its symbols and by what came after each. An alias
is a symbol of its own. That it moves with its target is a consequence: the two have the same value
when the alias is made, and all that follows treats them alike.

Values are integers here; nothing is said of relocations that leave the range of a machine's
numbers.
-/

namespace PageMachine

/-- What can be done to a table. -/
inductive SymbolAction where
  | define (name : String) (symbol : Symbol)
  | defineImport (name : String)
  | defineAlias (name target : String)
  | markExport (name : String)
  | relocate (delta : Int)
  deriving DecidableEq

/-- The distance by which actions move what moves. -/
def SymbolAction.distance : List SymbolAction → Int
  | [] => 0
  | relocate delta :: rest => delta + distance rest
  | define .. :: rest | defineImport _ :: rest | defineAlias .. :: rest | markExport _ :: rest =>
      distance rest

namespace Symbol

/-- What an action makes of the symbol that a name has. -/
def follow (name : String) (symbol : Symbol) : SymbolAction → Symbol
  | .relocate delta => symbol.shift delta
  | .markExport other => if name = other then { symbol with exported := true } else symbol
  | .define .. | .defineImport _ | .defineAlias .. => symbol

/-- The symbol after some actions: moved by their distance, if it moves, and exported if one of them
says so. -/
def after (name : String) (actions : List SymbolAction) (symbol : Symbol) : Symbol :=
  { symbol with
    value := symbol.value + if symbol.relocatable then SymbolAction.distance actions else 0
    exported := symbol.exported || decide (.markExport name ∈ actions) }

/-- The actions on a symbol add up. -/
theorem foldl_follow (name : String) (actions : List SymbolAction) (symbol : Symbol) :
    actions.foldl (follow name) symbol = symbol.after name actions := by
  induction actions generalizing symbol with
  | nil => simp [after, SymbolAction.distance]
  | cons action rest ih =>
    rw [List.foldl_cons, ih]
    cases action with
    | relocate delta =>
      cases hmoves : symbol.relocatable <;>
        simp [follow, shift, after, SymbolAction.distance, hmoves, Int.add_assoc]
    | markExport other =>
      by_cases hname : name = other <;> simp [follow, after, SymbolAction.distance, hname]
    | define | defineImport | defineAlias =>
      change symbol.after name rest = _
      simp [after, SymbolAction.distance]

end Symbol

namespace SymbolTable

/-- What comes of an action. -/
def perform (table : SymbolTable) : SymbolAction → Except SymbolError SymbolTable
  | .define name symbol => table.define name symbol
  | .defineImport name => table.defineImport name
  | .defineAlias name target => table.defineAlias name target
  | .markExport name => table.markExport name
  | .relocate delta => .ok (table.relocate delta)

/-- The table at hand after an action, which is the one before if the action failed. -/
def act (table : SymbolTable) (action : SymbolAction) : SymbolTable :=
  match table.perform action with
  | .ok changed => changed
  | .error _ => table

/-- The table at hand after several actions in turn. -/
def actAll (table : SymbolTable) (actions : List SymbolAction) : SymbolTable :=
  actions.foldl act table

end SymbolTable

namespace SymbolStore

/-- What is done with a store that is changed in place, and may fail. Changes made before a failure
stay. -/
abbrev Edit :=
  ExceptT SymbolError (StateM SymbolStore) Unit

namespace Edit

/-- Put a symbol under its name, if nothing is there. -/
def define (new : NamedSymbol) : Edit := do
  if (← get).contains new.name then throw (.redefinition new.name)
  else modify (·.put new)

/-- Let a name stand for the present value of another. -/
def defineAlias (name target : String) : Edit :=
  if name = target then throw .aliasToSelf
  else do
    match (← get)[target]? with
    | none => throw (.undefined target)
    | some known =>
        if known.imported then throw (.aliasToImport target)
        else define ⟨.ofValue known.value known.relocatable, name⟩

/-- Let other modules use a symbol. -/
def markExport (name : String) : Edit := do
  if (← get).contains name then modify (·.mark name)
  else throw (.undefined name)

/-- An action, done in place. -/
def ofAction : SymbolAction → Edit
  | .define name symbol => define ⟨symbol, name⟩
  | .defineImport name => define ⟨.ofImport, name⟩
  | .defineAlias name target => defineAlias name target
  | .markExport name => markExport name
  | .relocate delta => modify (·.shift delta)

variable {store : SymbolStore}

/-- What begins by looking at the store goes on with the store at hand. -/
theorem run_get_bind (store : SymbolStore) (next : SymbolStore → Edit) :
    (get >>= next : Edit).run.run store = (next store).run.run store :=
  rfl

/-- A definition keeps every symbol under its name. -/
theorem named_define (h : store.Named) (new : NamedSymbol) :
    Named ((define new).run.run store).2 := by
  rw [define, run_get_bind]
  split
  · exact h
  · exact h.put new

/-- An alias keeps every symbol under its name. -/
theorem named_defineAlias (h : store.Named) (name target : String) :
    Named ((defineAlias name target).run.run store).2 := by
  rw [defineAlias]
  split
  · exact h
  · rw [run_get_bind]
    split
    · exact h
    · split
      · exact h
      · exact named_define h _

/-- An exported symbol stays under its name, and so does every other. -/
theorem named_markExport (h : store.Named) (name : String) :
    Named ((markExport name).run.run store).2 := by
  rw [markExport, run_get_bind]
  split
  · exact h.mark name
  · exact h

end Edit

/-- The store at hand after an action, whether it failed or not. -/
def act (store : SymbolStore) (action : SymbolAction) : SymbolStore :=
  ((Edit.ofAction action).run.run store).2

/-- The store at hand after several actions in turn. -/
def actAll (store : SymbolStore) (actions : List SymbolAction) : SymbolStore :=
  actions.foldl act store

/-- An action keeps every symbol under its name. -/
theorem Named.act {store : SymbolStore} (h : store.Named) (action : SymbolAction) :
    (store.act action).Named := by
  cases action with
  | define name symbol => exact Edit.named_define h _
  | defineImport name => exact Edit.named_define h _
  | defineAlias name target => exact Edit.named_defineAlias h name target
  | markExport name => exact Edit.named_markExport h name
  | relocate delta => exact h.shift delta

/-- Several actions keep every symbol under its name. -/
theorem Named.actAll {store : SymbolStore} (h : store.Named) (actions : List SymbolAction) :
    (store.actAll actions).Named := by
  induction actions generalizing store with
  | nil => exact h
  | cons action rest ih => exact ih (h.act action)

end SymbolStore

namespace SymbolTable

open SymbolStore (Edit)

/-- The result and the store at hand when an action has given another table or an error. -/
def outcome (table : SymbolTable) :
    Except SymbolError SymbolTable → Except SymbolError Unit × SymbolStore
  | .ok changed => (.ok (), changed.symbols)
  | .error error => (.error error, table.symbols)

/-- A definition in place. -/
theorem run_define (table : SymbolTable) (name : String) (symbol : Symbol) :
    (Edit.define ⟨symbol, name⟩).run.run table.symbols =
      table.outcome (table.define name symbol) := by
  rw [Edit.define, Edit.run_get_bind, SymbolTable.define]
  change _ = table.outcome (if table.symbols.contains name then _ else _)
  split <;> rfl

/-- An alias made in place. -/
theorem run_defineAlias (table : SymbolTable) (name target : String) :
    (Edit.defineAlias name target).run.run table.symbols =
      table.outcome (table.defineAlias name target) := by
  rw [Edit.defineAlias, SymbolTable.defineAlias]
  by_cases hself : name = target
  · rw [if_pos hself, if_pos hself]
    rfl
  · rw [if_neg hself, if_neg hself, Edit.run_get_bind, getElem?_symbols]
    cases table.get? target with
    | none => rfl
    | some symbol =>
      dsimp only [Option.map_some]
      split
      · rfl
      · exact table.run_define name _

/-- An export marked in place. -/
theorem run_markExport (table : SymbolTable) (name : String) :
    (Edit.markExport name).run.run table.symbols = table.outcome (table.markExport name) := by
  rw [Edit.markExport, Edit.run_get_bind, SymbolTable.markExport]
  change _ = table.outcome (if table.symbols.contains name then _ else _)
  split <;> rfl

/-- Every action in place ends with the result and the symbols that come of it. -/
theorem run_ofAction (table : SymbolTable) (action : SymbolAction) :
    (Edit.ofAction action).run.run table.symbols = table.outcome (table.perform action) := by
  cases action with
  | define name symbol => exact table.run_define name symbol
  | defineImport name => exact table.run_define name .ofImport
  | defineAlias name target => exact table.run_defineAlias name target
  | markExport name => exact table.run_markExport name
  | relocate delta => rfl

/-- An action in place leaves the symbols of the table at hand after it. -/
theorem act_symbols (table : SymbolTable) (action : SymbolAction) :
    table.symbols.act action = (table.act action).symbols := by
  rw [SymbolStore.act, run_ofAction, act]
  cases table.perform action <;> rfl

/-- Actions in place leave the symbols of the table at hand after them. -/
theorem actAll_symbols (table : SymbolTable) (actions : List SymbolAction) :
    table.symbols.actAll actions = (table.actAll actions).symbols := by
  induction actions generalizing table with
  | nil => rfl
  | cons action rest ih =>
    change (table.symbols.act action).actAll rest = ((table.act action).actAll rest).symbols
    rw [act_symbols, ih]

/-- The symbol that an action gives to a name, if the name has none. -/
inductive Gives (table : SymbolTable) : SymbolAction → String → Symbol → Prop
  | define (name : String) (symbol : Symbol) : Gives table (.define name symbol) name symbol
  | defineImport (name : String) : Gives table (.defineImport name) name .ofImport
  | defineAlias {name target : String} {known : Symbol} (hne : name ≠ target)
      (htarget : table.get? target = some known) (hlocal : known.imported = false) :
      Gives table (.defineAlias name target) name (.ofValue known.value known.relocatable)

/-- The actions that a table refuses. -/
inductive Refuses (table : SymbolTable) : SymbolAction → SymbolError → Prop
  | redefinition {action : SymbolAction} {name : String} {symbol : Symbol}
      (hgives : table.Gives action name symbol) (hknown : table.get? name ≠ none) :
      Refuses table action (.redefinition name)
  | aliasToSelf (name : String) : Refuses table (.defineAlias name name) .aliasToSelf
  | aliasToNone {name target : String} (hne : name ≠ target) (htarget : table.get? target = none) :
      Refuses table (.defineAlias name target) (.undefined target)
  | aliasToImport {name target : String} {known : Symbol} (hne : name ≠ target)
      (htarget : table.get? target = some known) (himported : known.imported = true) :
      Refuses table (.defineAlias name target) (.aliasToImport target)
  | exportOfNone {name : String} (hname : table.get? name = none) :
      Refuses table (.markExport name) (.undefined name)

/-- What an action that is not refused changes. -/
inductive Changes (table changed : SymbolTable) : SymbolAction → Prop
  /-- One symbol is added, to a name that had none. -/
  | adds {action : SymbolAction} {name : String} {symbol : Symbol}
      (hgives : table.Gives action name symbol) (hnew : table.get? name = none)
      (hsize : changed.size = table.size + 1)
      (hget : ∀ other, changed.get? other =
        if other = name then some symbol else table.get? other) :
      Changes table changed action
  /-- One symbol is marked. -/
  | marks {name : String} {symbol : Symbol} (hknown : table.get? name = some symbol)
      (hsize : changed.size = table.size)
      (hget : ∀ other, changed.get? other =
        if other = name then some { symbol with exported := true } else table.get? other) :
      Changes table changed (.markExport name)
  /-- All symbols move that can. -/
  | moves {delta : Int} (hsize : changed.size = table.size)
      (hget : ∀ other, changed.get? other = (table.get? other).map (Symbol.shift delta)) :
      Changes table changed (.relocate delta)

variable {table changed : SymbolTable} {action : SymbolAction} {name : String} {symbol : Symbol}

/-- An action that gives a symbol to a name defines the name. -/
theorem perform_of_gives (h : table.Gives action name symbol) :
    table.perform action = table.define name symbol := by
  cases h with
  | define => rfl
  | defineImport => rfl
  | defineAlias hne htarget hlocal =>
    rw [perform, defineAlias, if_neg hne, htarget]
    simp [hlocal]

/-- What is refused fails. -/
theorem perform_of_refuses {error : SymbolError} (h : table.Refuses action error) :
    table.perform action = .error error := by
  cases h with
  | redefinition hgives hknown =>
    rw [perform_of_gives hgives]
    exact define_eq_error_iff.mpr ⟨hknown, rfl⟩
  | aliasToSelf => exact if_pos rfl
  | aliasToNone hne htarget => rw [perform, defineAlias, if_neg hne, htarget]
  | aliasToImport hne htarget himported =>
    rw [perform, defineAlias, if_neg hne, htarget]
    simp [himported]
  | exportOfNone hname => exact markExport_eq_error hname

/-- An alias is refused for what its target is, or given the value of its target. -/
theorem refuses_or_gives_alias (table : SymbolTable) (name target : String) :
    (∃ error, table.Refuses (.defineAlias name target) error) ∨
      ∃ symbol, table.Gives (.defineAlias name target) name symbol := by
  by_cases hself : name = target
  · subst hself
    exact .inl ⟨_, .aliasToSelf name⟩
  · cases htarget : table.get? target with
    | none => exact .inl ⟨_, .aliasToNone hself htarget⟩
    | some known =>
      cases himported : known.imported with
      | true => exact .inl ⟨_, .aliasToImport hself htarget himported⟩
      | false => exact .inr ⟨_, .defineAlias hself htarget himported⟩

/-- What gives a symbol to a name fails only if the name has one. -/
theorem Gives.refuses {error : SymbolError} (h : table.Gives action name symbol)
    (herror : table.perform action = .error error) : table.Refuses action error := by
  rw [perform_of_gives h] at herror
  obtain ⟨hknown, rfl⟩ := define_eq_error_iff.mp herror
  exact .redefinition h hknown

/-- What is refused is what fails. -/
theorem perform_eq_error_iff {error : SymbolError} :
    table.perform action = .error error ↔ table.Refuses action error := by
  refine ⟨fun h => ?_, perform_of_refuses⟩
  cases action with
  | define name symbol => exact (Gives.define name symbol).refuses h
  | defineImport name => exact (Gives.defineImport name).refuses h
  | defineAlias name target =>
    obtain ⟨other, hrefuses⟩ | ⟨symbol, hgives⟩ := table.refuses_or_gives_alias name target
    · obtain rfl := Except.error.inj ((perform_of_refuses hrefuses).symm.trans h)
      exact hrefuses
    · exact hgives.refuses h
  | markExport name =>
    cases hname : table.get? name with
    | none =>
      have hrefuses : table.Refuses (.markExport name) (.undefined name) := .exportOfNone hname
      obtain rfl := Except.error.inj ((perform_of_refuses hrefuses).symm.trans h)
      exact hrefuses
    | some known =>
      obtain ⟨marked, hmarked⟩ := exists_markExport_eq_ok hname
      cases hmarked.symm.trans h
  | relocate delta => cases h

/-- What gives a symbol to a name and succeeds adds the symbol. -/
theorem Gives.changes (h : table.Gives action name symbol)
    (hchanged : table.perform action = .ok changed) : table.Changes changed action := by
  rw [perform_of_gives h] at hchanged
  exact .adds h (get?_eq_none_of_define hchanged) (size_define hchanged) (get?_define hchanged)

/-- What succeeds makes one of the changes. -/
theorem changes_of_perform (h : table.perform action = .ok changed) :
    table.Changes changed action := by
  cases action with
  | define name symbol => exact (Gives.define name symbol).changes h
  | defineImport name => exact (Gives.defineImport name).changes h
  | defineAlias name target =>
    obtain ⟨error, hrefuses⟩ | ⟨symbol, hgives⟩ := table.refuses_or_gives_alias name target
    · cases (perform_of_refuses hrefuses).symm.trans h
    · exact hgives.changes h
  | markExport name =>
    cases hname : table.get? name with
    | none => cases (perform_of_refuses (.exportOfNone hname)).symm.trans h
    | some known => exact .marks hname (size_markExport h) (get?_markExport hname h)
  | relocate delta =>
    obtain rfl := Except.ok.inj h
    exact .moves (table.size_relocate delta) (table.get?_relocate delta)

/-- A table is as it was after what it refuses. -/
theorem act_of_refuses {error : SymbolError} (h : table.Refuses action error) :
    table.act action = table := by
  rw [act, perform_of_refuses h]

/-- A table is what comes of an action that it does not refuse. -/
theorem act_of_perform (h : table.perform action = .ok changed) : table.act action = changed := by
  rw [act, h]

/-- An action makes of a symbol that a name has what can be said without the table. -/
theorem get?_act_of_get? (h : table.get? name = some symbol) (action : SymbolAction) :
    (table.act action).get? name = some (symbol.follow name action) := by
  cases hperform : table.perform action with
  | error error =>
    have hrefuses := perform_eq_error_iff.mp hperform
    rw [act_of_refuses hrefuses, h]
    cases hrefuses with
    | redefinition hgives => cases hgives <;> rfl
    | aliasToSelf | aliasToNone | aliasToImport => rfl
    | exportOfNone hname =>
      rw [Symbol.follow, if_neg]
      rintro rfl
      cases hname.symm.trans h
  | ok changed =>
    rw [act_of_perform hperform]
    cases changes_of_perform hperform with
    | adds hgives hnew _ hget =>
      rw [hget, if_neg, h]
      · cases hgives <;> rfl
      · rintro rfl
        cases hnew.symm.trans h
    | marks hknown _ hget =>
      rw [hget, Symbol.follow]
      split
      · next hname =>
        subst hname
        rw [Option.some.inj (hknown.symm.trans h)]
      · exact h
    | moves _ hget =>
      rw [hget, h]
      rfl

/-- Several actions make of a symbol what they make of it in turn. -/
theorem get?_actAll_of_get? (h : table.get? name = some symbol) (actions : List SymbolAction) :
    (table.actAll actions).get? name = some (symbol.after name actions) := by
  rw [← Symbol.foldl_follow]
  induction actions generalizing table symbol with
  | nil => exact h
  | cons action rest ih => exact ih (get?_act_of_get? h action)

/-- A name gets a symbol by an action that gives it one. -/
theorem gives_of_get?_act (hnew : table.get? name = none)
    (h : (table.act action).get? name = some symbol) : table.Gives action name symbol := by
  cases hperform : table.perform action with
  | error error =>
    rw [act_of_refuses (perform_eq_error_iff.mp hperform), hnew] at h
    cases h
  | ok changed =>
    rw [act_of_perform hperform] at h
    cases changes_of_perform hperform with
    | adds hgives _ _ hget =>
      rw [hget] at h
      split at h
      · next hname =>
        subst hname
        exact Option.some.inj h ▸ hgives
      · cases hnew.symm.trans h
    | marks hknown _ hget =>
      rw [hget] at h
      split at h
      · next hname =>
        subst hname
        cases hnew.symm.trans hknown
      · cases hnew.symm.trans h
    | moves _ hget =>
      rw [hget, hnew] at h
      cases h

/-- What gives a symbol to a name that has none succeeds. -/
theorem Gives.get?_act (h : table.Gives action name symbol) (hnew : table.get? name = none) :
    ∃ changed, table.perform action = .ok changed ∧ (table.act action).get? name = some symbol := by
  obtain ⟨changed, hdefine⟩ := exists_define_eq_ok symbol hnew
  have hperform := (perform_of_gives h).trans hdefine
  refine ⟨changed, hperform, ?_⟩
  rw [act_of_perform hperform, get?_define hdefine, if_pos rfl]

/-- Actions in turn, the last ones on what the others made of the table. -/
theorem actAll_append (table : SymbolTable) (before later : List SymbolAction) :
    table.actAll (before ++ later) = (table.actAll before).actAll later :=
  List.foldl_append

/-- A symbol of a table was given to its name by one of the actions. -/
theorem exists_gives_of_get? (hnew : table.get? name = none) {actions : List SymbolAction}
    (h : (table.actAll actions).get? name = some symbol) :
    ∃ before action later given, actions = before ++ action :: later ∧
      (table.actAll before).get? name = none ∧
      (table.actAll before).Gives action name given ∧ symbol = given.after name later := by
  induction actions generalizing table with
  | nil => cases hnew.symm.trans h
  | cons action rest ih =>
    cases hact : (table.act action).get? name with
    | none =>
      obtain ⟨before, giving, later, given, rfl, hnone, hgives, hsymbol⟩ := ih hact h
      exact ⟨action :: before, giving, later, given, rfl, hnone, hgives, hsymbol⟩
    | some given =>
      refine ⟨[], action, rest, given, rfl, hnew, gives_of_get?_act hnew hact, ?_⟩
      exact (Option.some.inj ((get?_actAll_of_get? hact rest).symm.trans h)).symm

/-- An alias that is not refused has the value of its target, and later actions treat the two
alike. -/
theorem alias_follows {target : String}
    (h : table.perform (.defineAlias name target) = .ok changed) (later : List SymbolAction) :
    ∃ known, table.get? target = some known ∧
      (changed.actAll later).get? name =
        some ((Symbol.ofValue known.value known.relocatable).after name later) ∧
      (changed.actAll later).get? target = some (known.after target later) := by
  cases changes_of_perform h with
  | adds hgives hnew _ hget =>
    cases hgives with
    | @defineAlias _ _ known hne htarget =>
      have hown : changed.get? name = some (.ofValue known.value known.relocatable) :=
        (hget name).trans (if_pos rfl)
      have hkept : changed.get? target = some known := by rw [hget, if_neg hne.symm, htarget]
      exact ⟨known, htarget, get?_actAll_of_get? hown later, get?_actAll_of_get? hkept later⟩

/-- Whether a table is what actions make of an empty one, and changes only as asked. -/
structure Follows (table : SymbolTable) (actions : List SymbolAction) : Prop where
  /-- The actions that fail are those that the table refuses. -/
  refused : ∀ action error, table.perform action = .error error ↔ table.Refuses action error
  /-- They leave the table as it is, also if it is changed in place. -/
  unchanged : ∀ action error, table.perform action = .error error →
    table.act action = table ∧
      (Edit.ofAction action).run.run table.symbols = (.error error, table.symbols)
  /-- All others make one of the changes, in place or not. -/
  changed : ∀ action grown, table.perform action = .ok grown →
    table.Changes grown action ∧
      (Edit.ofAction action).run.run table.symbols = (.ok (), grown.symbols)
  /-- A store that is changed in place has the symbols of the table in the end. -/
  inPlace : SymbolStore.actAll ∅ actions = table.symbols
  /-- Every symbol that it has is stored under its own name. -/
  named : ∀ (key : String) (stored : NamedSymbol),
    (SymbolStore.actAll ∅ actions)[key]? = some stored → stored.name = key
  /-- Each name is listed once. -/
  once : (table.toList.map Prod.fst).Nodup
  /-- It is listed with its own symbol. -/
  listed : ∀ name symbol, (name, symbol) ∈ table.toList ↔ table.get? name = some symbol
  /-- The symbols are those that were given to names that had none, with what came after. -/
  given : ∀ name symbol, table.get? name = some symbol ↔
    ∃ before action later given, actions = before ++ action :: later ∧
      (empty.actAll before).get? name = none ∧
      (empty.actAll before).Gives action name given ∧ symbol = given.after name later
  /-- An alias has the value that its target had when it was made, and moves with the target. It is
  not imported. -/
  aliased : ∀ before name target later made, actions = before ++ .defineAlias name target :: later →
    (empty.actAll before).perform (.defineAlias name target) = .ok made →
      ∃ known own now, (empty.actAll before).get? target = some known ∧
        table.get? name = some own ∧ table.get? target = some now ∧
        own.relocatable = known.relocatable ∧
        own.value = known.value +
          (if known.relocatable then SymbolAction.distance later else 0) ∧
        now.relocatable = own.relocatable ∧ now.value = own.value ∧ own.imported = false

/-- Whatever is done with a table: it refuses what it has to and is then as it was; each symbol is
stored under its own name, once; and each has the value with which it was defined, moved by all
distances since, if it moves. An alias is no import and keeps the value of its target. -/
theorem follows_of_actions (actions : List SymbolAction) :
    (empty.actAll actions).Follows actions where
  refused _ _ := perform_eq_error_iff
  unchanged action error h := by
    refine ⟨act_of_refuses (perform_eq_error_iff.mp h), ?_⟩
    rw [run_ofAction, h, outcome]
  changed action grown h := by
    refine ⟨changes_of_perform h, ?_⟩
    rw [run_ofAction, h, outcome]
  inPlace := empty.actAll_symbols actions
  named := SymbolStore.named_empty.actAll actions
  once := nodup_toList _
  listed _ _ := mem_toList_iff
  given name symbol := by
    constructor
    · exact exists_gives_of_get? (by simp [get?, empty])
    · rintro ⟨before, action, later, given, rfl, hnew, hgives, rfl⟩
      obtain ⟨-, -, hgiven⟩ := hgives.get?_act hnew
      rw [actAll_append]
      exact get?_actAll_of_get? hgiven later
  aliased := by
    rintro before name target later made rfl hmade
    obtain ⟨known, hknown, hown, hnow⟩ := alias_follows hmade later
    rw [← act_of_perform hmade] at hown hnow
    rw [actAll_append]
    exact ⟨known, _, _, hknown, hown, hnow, rfl, rfl, rfl, rfl, rfl⟩

/-- A table with a label that moves, an alias of it and an import. Another meaning for the label is
refused, and so is an alias of the import. -/
def aliasedActions : List SymbolAction :=
  [.define "START" (.ofValue 4 true), .defineImport "EXT", .relocate 1,
    .defineAlias "BEGIN" "START", .define "START" (.ofValue 9 false), .defineAlias "A" "EXT",
    .relocate 0x3000, .markExport "BEGIN", .relocate (-16)]

/-- The alias has moved with its label since it was made, and is exported under its own name. -/
theorem follows_aliasedActions :
    (∃ own now, (empty.actAll aliasedActions).get? "BEGIN" = some own ∧
        (empty.actAll aliasedActions).get? "START" = some now ∧
        own.value = 5 + (0x3000 - 16) ∧ now.value = own.value ∧ own.imported = false) ∧
      (empty.actAll aliasedActions).get? "BEGIN" = some ⟨0x2FF5, true, false, true⟩ ∧
      (∃ stored, (SymbolStore.actAll ∅ aliasedActions)["BEGIN"]? = some stored ∧
        stored.value = 0x2FF5 ∧ stored.exported = true ∧ stored.name = "BEGIN") ∧
      (empty.actAll aliasedActions).Refuses (.defineAlias "A" "EXT") (.aliasToImport "EXT") ∧
      ((Edit.ofAction (.defineAlias "A" "EXT")).run.run
        (empty.actAll aliasedActions).symbols).2 = (empty.actAll aliasedActions).symbols := by
  have hfollows := follows_of_actions aliasedActions
  let before := aliasedActions.take 3
  obtain ⟨made, hmade⟩ : ∃ made, (empty.actAll before).perform (.defineAlias "BEGIN" "START") =
      .ok made := ⟨_, rfl⟩
  obtain ⟨known, own, now, hknown, hown, hnow, -, hvalue, -, hsame, hlocal⟩ :=
    hfollows.aliased before "BEGIN" "START" (aliasedActions.drop 4) made rfl hmade
  have hbegin : (empty.actAll before).get? "START" = some ⟨5, true, false, false⟩ := by
    decide +kernel
  obtain rfl := Option.some.inj (hknown.symm.trans hbegin)
  have hfails : (empty.actAll aliasedActions).perform (.defineAlias "A" "EXT") =
      .error (.aliasToImport "EXT") := by rfl
  have hexported : (empty.actAll aliasedActions).get? "BEGIN" =
      some ⟨0x2FF5, true, false, true⟩ := by
    decide +kernel
  have hstored : (SymbolStore.actAll ∅ aliasedActions)["BEGIN"]? =
      some ⟨⟨0x2FF5, true, false, true⟩, "BEGIN"⟩ := by
    rw [hfollows.inPlace, getElem?_symbols, hexported, Option.map_some]
  exact ⟨⟨own, now, hown, hnow, hvalue, hsame, hlocal⟩, hexported,
    ⟨_, hstored, rfl, rfl, hfollows.named _ _ hstored⟩, (hfollows.refused _ _).mp hfails,
    congrArg Prod.snd (hfollows.unchanged _ _ hfails).2⟩

end SymbolTable

end PageMachine
