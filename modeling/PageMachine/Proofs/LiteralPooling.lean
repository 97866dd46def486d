import Mathlib.Data.List.Basic
import PageMachine.Proofs.Result
import PageMachine.Assembly

/-!
# Every literal has its place

The pool holds the values of the literals of all instructions laid out so far, each of them once and
no others. This is so after every line, whether or not errors were found before it, since an
instruction whose literals cannot all be read leaves the pool alone and is not laid out as one. So
the second pass finds a place for every literal that it meets, and the error for a literal without
one is not among those of any source text.
-/

namespace PageMachine

/-- Whether an operand is a literal of a value. -/
def Operand.IsLiteral (operand : Operand) (value : Word) : Prop :=
  operand.kind = .literal ∧ parseLiteral operand.text = .ok value

namespace LiteralPool

variable {pool : LiteralPool} {value other : Word}

/-- Defining a value puts it behind the others, unless it is there. -/
theorem Indexed.values_define (h : pool.Indexed) (value : Word) :
    (pool.define value).1.values =
      if value ∈ pool.values then pool.values else pool.values ++ [value] := by
  cases hindex : pool.index? value with
  | some place =>
    rw [define_of_index? hindex, if_pos (h.isSome_index?.mp (Option.isSome_of_eq_some hindex))]
  | none => rw [define_of_index?_eq_none hindex, if_neg (h.index?_eq_none.mp hindex)]

/-- A pool with a value defined has it and what was there. -/
theorem Indexed.mem_values_define (h : pool.Indexed) :
    other ∈ (pool.define value).1.values ↔ other ∈ pool.values ∨ other = value := by
  rw [h.values_define]
  split
  · rename_i hmem
    exact ⟨.inl, fun h => h.elim id fun heq => heq ▸ hmem⟩
  · simp

/-- The values of a pool are those that have an address. -/
theorem Indexed.isSome_addressOf? (h : pool.Indexed) :
    (pool.addressOf? value).isSome = true ↔ value ∈ pool.values := by
  rw [addressOf?, Option.isSome_map, h.isSome_index?]

/-- A value that has an address is stored there. -/
theorem Indexed.mem_toList_of_addressOf? {place : Word} (h : pool.Indexed)
    (hplace : pool.addressOf? value = some place) : (place, value) ∈ pool.toList := by
  obtain ⟨n, hindex, rfl⟩ := Option.map_eq_some_iff.mp hplace
  obtain ⟨hbound, hvalue⟩ := List.getElem?_eq_some_iff.mp ((h value n).mp hindex)
  exact List.mem_mapIdx.mpr ⟨n, hbound, by rw [hvalue]⟩

end LiteralPool

/-- Whether an error is not that of a literal without a place. -/
def OperandError.Ordinary : OperandError → Prop
  | .unpooledLiteral _ => False
  | _ => True

/-- Whether a fault is not that of a literal without a place. -/
def AssemblyFault.Ordinary : AssemblyFault → Prop
  | .operand error => error.Ordinary
  | _ => True

/-- A constant that cannot be read is no literal without a place. -/
theorem ordinary_of_parseConstant {text : String} {error : OperandError}
    (h : parseConstant text = .error error) : error.Ordinary := by
  unfold parseConstant at h
  split at h <;> (try split at h) <;> cases h <;> trivial

/-- A literal that cannot be read is no literal without a place. -/
theorem ordinary_of_parseLiteral {text : String} {error : OperandError}
    (h : parseLiteral text = .error error) : error.Ordinary := by
  unfold parseLiteral at h
  split at h
  · split at h
    · rename_i _ hconstant
      cases h
      exact ordinary_of_parseConstant hconstant
    · split at h <;> cases h
      trivial
  · cases h
    trivial

/-- Whether a content's literals all have a place in a pool. -/
def Content.PooledIn (pool : LiteralPool) : Content → Prop
  | .machine _ operands =>
      ∀ operand ∈ operands, operand.kind = .literal →
        ∃ value ∈ pool.values, operand.IsLiteral value
  | .fill operand => operand.kind ≠ .literal
  | .nothing | .reserve _ | .unknown | .data _ => True

/-- A place in a pool is kept when the pool grows. -/
theorem Content.PooledIn.mono {pool grown : LiteralPool} {content : Content}
    (h : content.PooledIn pool) (hgrows : pool.values ⊆ grown.values) : content.PooledIn grown := by
  cases content with
  | machine definition operands =>
    intro operand hoperand hkind
    obtain ⟨value, hvalue, hliteral⟩ := h operand hoperand hkind
    exact ⟨value, hgrows hvalue, hliteral⟩
  | fill => exact h
  | nothing => trivial
  | reserve => trivial
  | unknown => trivial
  | data => trivial

/-- Whether a content is an instruction with a literal of a value. -/
def Content.Uses (content : Content) (value : Word) : Prop :=
  ∃ definition operands, content = .machine definition operands ∧
    ∃ operand ∈ operands, operand.IsLiteral value

namespace Layout

/-- Literals that could be pooled can be read, and the pool then has them and what was there. -/
theorem poolLiterals_spec {pool grown : LiteralPool} {operands : List Operand}
    (hindexed : pool.Indexed) (h : poolLiterals pool operands = .ok grown) :
    (∀ operand ∈ operands, operand.kind = .literal → ∃ value, operand.IsLiteral value) ∧
      (∀ value, value ∈ grown.values ↔
        value ∈ pool.values ∨ ∃ operand ∈ operands, operand.IsLiteral value) ∧
      grown.Indexed := by
  induction operands generalizing pool with
  | nil =>
    obtain rfl : pool = grown := Except.ok.inj h
    simpa using hindexed
  | cons operand rest ih =>
    unfold poolLiterals at h
    rw [List.foldlM_cons] at h
    obtain ⟨next, hnext, h⟩ := exists_of_bind_eq_ok h
    split at hnext
    · rename_i hkind
      obtain ⟨value, hparse, hnext⟩ := exists_of_bind_eq_ok hnext
      obtain rfl := Except.ok.inj hnext
      obtain ⟨hread, hvalues, hgrown⟩ := ih (hindexed.define value) h
      have hliteral : ∀ other, operand.IsLiteral other ↔ other = value := fun other =>
        ⟨fun h => Except.ok.inj (h.2.symm.trans hparse), fun h => ⟨hkind, h ▸ hparse⟩⟩
      refine ⟨List.forall_mem_cons.mpr ⟨fun _ => ⟨value, hkind, hparse⟩, hread⟩, fun other => ?_,
        hgrown⟩
      rw [hvalues, hindexed.mem_values_define, List.exists_mem_cons_iff, hliteral, or_assoc]
    · rename_i hkind
      obtain rfl := Except.ok.inj hnext
      obtain ⟨hread, hvalues, hgrown⟩ := ih hindexed h
      have hliteral : ∀ other, ¬operand.IsLiteral other := fun other h => hkind h.1
      refine ⟨List.forall_mem_cons.mpr ⟨fun h => absurd h hkind, hread⟩, fun other => ?_, hgrown⟩
      rw [hvalues, List.exists_mem_cons_iff, or_iff_right (hliteral other)]

/-- Literals that could not be pooled could not be read. -/
theorem ordinary_of_poolLiterals {pool : LiteralPool} {operands : List Operand}
    {error : OperandError} (h : poolLiterals pool operands = .error error) : error.Ordinary := by
  induction operands generalizing pool with
  | nil => cases h
  | cons operand rest ih =>
    unfold poolLiterals at h
    rw [List.foldlM_cons] at h
    rcases error_or_of_bind_eq_error h with hfirst | ⟨next, -, hrest⟩
    · split at hfirst
      · rcases error_or_of_bind_eq_error hfirst with hparse | ⟨_, -, hdefined⟩
        · exact ordinary_of_parseLiteral hparse
        · cases hdefined
      · cases hfirst
    · exact ih hrest

/-- Whether one layout comes from another without regard to literals: it has the same statements and
literals, and no error for a literal without a place was added. -/
structure KeepsLiterals (layout after : Layout) : Prop where
  /-- The statements are the same. -/
  statements : after.statements = layout.statements
  /-- The literals are the same. -/
  literals : after.literals = layout.literals
  /-- New errors are not for a literal without a place. -/
  errors : ∀ error ∈ after.errors, error ∈ layout.errors ∨ error.fault.Ordinary

namespace KeepsLiterals

variable {layout before after : Layout}

/-- A layout with the same statements, literals and errors keeps the literals. -/
theorem of_eq (hstatements : after.statements = layout.statements)
    (hliterals : after.literals = layout.literals) (herrors : after.errors = layout.errors) :
    layout.KeepsLiterals after :=
  ⟨hstatements, hliterals, fun _ h => .inl (herrors ▸ h)⟩

/-- A layout keeps its own literals. -/
theorem refl (layout : Layout) : layout.KeepsLiterals layout :=
  .of_eq rfl rfl rfl

/-- Literals that are kept twice are kept. -/
theorem trans (hfirst : layout.KeepsLiterals before) (hsecond : before.KeepsLiterals after) :
    layout.KeepsLiterals after where
  statements := hsecond.statements.trans hfirst.statements
  literals := hsecond.literals.trans hfirst.literals
  errors := fun error herror => (hsecond.errors error herror).elim (hfirst.errors error) .inr

/-- Noting an ordinary error keeps the literals. -/
theorem report (line : Nat) (kind : ErrorClass) {fault : AssemblyFault} (hfault : fault.Ordinary) :
    layout.KeepsLiterals (layout.report line kind fault) where
  statements := rfl
  literals := rfl
  errors := fun error herror => by
    rcases List.mem_append.mp herror with hold | hnew
    · exact .inl hold
    · obtain rfl := List.mem_singleton.mp hnew
      exact .inr hfault

/-- What keeps the literals in each of several steps keeps them in all. -/
theorem foldl {α : Type} {step : Layout → α → Layout}
    (h : ∀ layout item, Layout.KeepsLiterals layout (step layout item)) (items : List α) :
    layout.KeepsLiterals (items.foldl step layout) := by
  induction items generalizing layout with
  | nil => exact .refl layout
  | cons item rest ih => exact (h layout item).trans ih

end KeepsLiterals

/-- A label keeps the literals. -/
theorem keepsLiterals_defineLabel (layout : Layout) (line : Nat) (label : String) :
    layout.KeepsLiterals (layout.defineLabel line label) := by
  unfold defineLabel
  split
  · dsimp only
    split
    · exact .of_eq rfl rfl rfl
    · exact .report line .meaning trivial
  · exact .refl layout

/-- The origin's operands keep the literals. -/
theorem keepsLiterals_placeOrigin (layout : Layout) (line : Nat) (operands : List Operand) :
    layout.KeepsLiterals (layout.placeOrigin line operands) := by
  unfold placeOrigin
  split
  · exact .of_eq rfl rfl rfl
  · split
    · split
      · rename_i hparse
        exact .report line .form (ordinary_of_parseConstant hparse)
      · split
        · exact .of_eq rfl rfl rfl
        · exact .report line .meaning trivial
    · exact .report line .meaning trivial
  · exact .report line .meaning trivial

/-- The beginning of the program keeps the literals. -/
theorem keepsLiterals_begin (layout : Layout) (line : Nat) (label : String)
    (operands : List Operand) : layout.KeepsLiterals (layout.begin line label operands) := by
  unfold begin
  split
  · exact .report line .whole trivial
  · let checked :=
      if layout.statements.isEmpty then layout else layout.report line .whole .lateOrigin
    have hchecked : layout.KeepsLiterals checked := by
      unfold checked
      split
      · exact .refl layout
      · exact .report line .whole trivial
    have hseen : layout.KeepsLiterals { checked with originSeen := true } :=
      hchecked.trans (.of_eq rfl rfl rfl)
    let placed := { checked with originSeen := true }.placeOrigin line operands
    have hplaced : layout.KeepsLiterals placed :=
      hseen.trans (keepsLiterals_placeOrigin _ line operands)
    have hnamed : layout.KeepsLiterals
        { placed with segmentName := String.ofList (Record.segmentName label.toList) } :=
      hplaced.trans (.of_eq rfl rfl rfl)
    change layout.KeepsLiterals (if label.isEmpty then placed else _)
    split
    · exact hplaced
    · exact hnamed.trans (keepsLiterals_defineLabel _ line label)

/-- The end of the program keeps the literals. -/
theorem keepsLiterals_finish (layout : Layout) (line : Nat) (operands : List Operand) :
    layout.KeepsLiterals (layout.finish line operands) := by
  have hended : layout.KeepsLiterals { layout with endSeen := true } := .of_eq rfl rfl rfl
  unfold finish
  split
  · exact .report line .whole trivial
  · dsimp only
    split
    · exact hended
    · split
      · exact .of_eq rfl rfl rfl
      · exact .of_eq rfl rfl rfl
      · exact hended.trans (.report line .meaning trivial)
    · exact hended.trans (.report line .meaning trivial)

/-- A name to be exported keeps the literals. -/
theorem keepsLiterals_exportName (line : Nat) (layout : Layout) (operand : Operand) :
    layout.KeepsLiterals (exportName line layout operand) := by
  unfold exportName
  split
  · exact .of_eq rfl rfl rfl
  · exact .report line .meaning trivial

/-- A name to be imported keeps the literals. -/
theorem keepsLiterals_importName (line : Nat) (layout : Layout) (operand : Operand) :
    layout.KeepsLiterals (importName line layout operand) := by
  unfold importName
  split
  · split
    · exact .of_eq rfl rfl rfl
    · exact .report line .meaning trivial
  · exact .report line .meaning trivial

/-- Names keep the literals if each of them does. -/
theorem keepsLiterals_forNames {act : Nat → Layout → Operand → Layout} {missing : AssemblyFault}
    (layout : Layout) (line : Nat) (operands : List Operand) (hmissing : missing.Ordinary)
    (hact : ∀ layout operand, Layout.KeepsLiterals layout (act line layout operand)) :
    layout.KeepsLiterals (layout.forNames line operands missing act) := by
  unfold forNames
  split
  · exact .report line .meaning hmissing
  · exact .foldl hact operands

/-- The label of a line keeps the literals. -/
theorem keepsLiterals_labelLine (layout : Layout) (line : Nat) (source : SourceLine) :
    layout.KeepsLiterals (layout.labelLine line source) := by
  unfold labelLine
  split
  · exact .refl layout
  · split
    · exact .refl layout
    · exact .refl layout
    · exact .report line .meaning trivial
    · exact .report line .meaning trivial
    · exact .report line .meaning trivial
    · exact keepsLiterals_defineLabel layout line source.label

/-- A name that could not be equated has an ordinary error. -/
theorem ordinary_of_equate {symbols : SymbolTable} {label : String} {operands : List Operand}
    {fault : AssemblyFault} (h : equate symbols label operands = .error fault) :
    fault.Ordinary := by
  have hsymbol : ∀ {result : Except SymbolError SymbolTable},
      result.mapError AssemblyFault.symbol = .error fault → fault.Ordinary := by
    intro result h
    cases result with
    | error error =>
      cases h
      trivial
    | ok table => cases h
  unfold equate at h
  split at h
  · split at h
    · cases h
      trivial
    · split at h
      · exact hsymbol h
      · split at h
        · rename_i hparse
          cases h
          exact ordinary_of_parseConstant hparse
        · exact hsymbol h
      · cases h
        trivial
  · cases h
    trivial

/-- A word that could not be filled has an ordinary error. -/
theorem ordinary_of_fillOperand {operands : List Operand} {fault : AssemblyFault}
    (h : fillOperand operands = .error fault) : fault.Ordinary := by
  unfold fillOperand at h
  split at h
  · split at h <;> cases h
    trivial
  · cases h
    trivial

/-- No literal fills a word. -/
theorem kind_of_fillOperand {operands : List Operand} {operand : Operand}
    (h : fillOperand operands = .ok operand) : operand.kind ≠ .literal := by
  unfold fillOperand at h
  split at h
  · split at h
    · rename_i hkind
      cases h
      simp [hkind]
    · rename_i hkind
      cases h
      simp [hkind]
    · cases h
  · cases h

/-- A text that does not fit has an ordinary error. -/
theorem ordinary_of_textContent {operands : List Operand} {fault : AssemblyFault}
    (h : textContent operands = .error fault) : fault.Ordinary := by
  have hwords : ∀ {chars : List Char}, textWords chars = .error fault → fault.Ordinary := by
    intro chars
    induction chars with
    | nil => exact fun h => nomatch h
    | cons c rest ih =>
      intro h
      unfold textWords at h
      split at h
      · cases hrest : textWords rest with
        | error other =>
          rw [hrest] at h
          cases h
          exact ih hrest
        | ok words =>
          rw [hrest] at h
          cases h
      · cases h
        trivial
  unfold textContent at h
  split at h
  · split at h
    · exact hwords h
    · cases h
      trivial
  · cases h
    trivial

/-- A count that is not known has an ordinary error. -/
theorem ordinary_of_reserveCount {symbols : SymbolTable} {operands : List Operand}
    {fault : AssemblyFault} (h : reserveCount symbols operands = .error fault) :
    fault.Ordinary := by
  unfold reserveCount at h
  split at h
  · dsimp only at h
    split at h
    · rename_i other hvalue
      cases h
      split at hvalue
      · cases hparse : parseConstant _ with
        | error error =>
          rw [hparse] at hvalue
          cases hvalue
          exact ordinary_of_parseConstant hparse
        | ok value =>
          rw [hparse] at hvalue
          cases hvalue
      · split at hvalue
        · split at hvalue <;> cases hvalue
          trivial
        · cases hvalue
          trivial
      · cases hvalue
        trivial
    · split at h <;> cases h
      trivial
  · cases h
    trivial

/-- What carrying out an operation does with literals: those of its content are added to the pool,
and no error for a literal without a place is. -/
structure Pools (layout after : Layout) (content : Content) : Prop where
  /-- The statements are the same. -/
  statements : after.statements = layout.statements
  /-- New errors are not for a literal without a place. -/
  errors : ∀ error ∈ after.errors, error ∈ layout.errors ∨ error.fault.Ordinary
  /-- The content's literals have their places. -/
  pooled : content.PooledIn after.literals
  /-- The pool has the values that were there and those of the content. -/
  values : ∀ value, value ∈ after.literals.values ↔
    value ∈ layout.literals.values ∨ content.Uses value
  /-- The index of the pool is in step with its values. -/
  indexed : after.literals.Indexed

/-- A content without literals pools nothing, if the literals are kept. -/
theorem KeepsLiterals.pools {layout after : Layout} {content : Content}
    (h : layout.KeepsLiterals after) (hindexed : layout.literals.Indexed)
    (hpooled : content.PooledIn layout.literals)
    (hfree : ∀ definition operands, content ≠ .machine definition operands) :
    layout.Pools after content where
  statements := h.statements
  errors := h.errors
  pooled := h.literals ▸ hpooled
  values := fun value => by
    rw [h.literals, or_iff_left]
    rintro ⟨definition, operands, hcontent, -⟩
    exact hfree definition operands hcontent
  indexed := h.literals ▸ hindexed

/-- An instruction pools its literals. -/
theorem pools_machine {layout : Layout} (hindexed : layout.literals.Indexed) (line : Nat)
    (operation : String) (operands : List Operand) :
    layout.Pools (layout.machine line operation operands).1
      (layout.machine line operation operands).2 := by
  unfold machine
  split
  · refine KeepsLiterals.pools (.report line .meaning ?_) hindexed trivial nofun
    split <;> trivial
  · rename_i definition hfind
    split
    · rename_i error hpool
      exact KeepsLiterals.pools (.report line .form (ordinary_of_poolLiterals hpool)) hindexed
        trivial nofun
    · rename_i literals hpool
      obtain ⟨hread, hvalues, hgrown⟩ := poolLiterals_spec hindexed hpool
      have huses : ∀ value, (Content.machine definition operands).Uses value ↔
          ∃ operand ∈ operands, operand.IsLiteral value := by
        intro value
        constructor
        · rintro ⟨_, _, hcontent, hliteral⟩
          cases hcontent
          exact hliteral
        · exact fun hliteral => ⟨definition, operands, rfl, hliteral⟩
      exact
        { statements := rfl
          errors := fun _ => .inl
          pooled := fun operand hoperand hkind => by
            obtain ⟨value, hliteral⟩ := hread operand hoperand hkind
            exact ⟨value, (hvalues value).mpr (.inr ⟨operand, hoperand, hliteral⟩), hliteral⟩
          values := fun value => (hvalues value).trans (or_congr_right (huses value).symm)
          indexed := hgrown }

/-- A directive pools nothing. -/
theorem pools_direct {layout : Layout} (hindexed : layout.literals.Indexed) (line : Nat)
    (label : String) (operands : List Operand) (directive : Directive) :
    layout.Pools (layout.direct line label operands directive).1
      (layout.direct line label operands directive).2 := by
  unfold direct
  cases directive with
  | origin =>
    exact (keepsLiterals_begin layout line label operands).pools hindexed trivial nofun
  | equate =>
    dsimp only
    split
    · rename_i symbols _
      have hkeeps : layout.KeepsLiterals { layout with symbols := symbols } := .of_eq rfl rfl rfl
      exact hkeeps.pools hindexed trivial nofun
    · rename_i fault hequate
      exact (KeepsLiterals.report line .meaning (ordinary_of_equate hequate)).pools hindexed
        trivial nofun
  | fill =>
    dsimp only
    split
    · rename_i operand hfill
      exact (KeepsLiterals.refl layout).pools hindexed (kind_of_fillOperand hfill) nofun
    · rename_i fault hfill
      exact (KeepsLiterals.report line .meaning (ordinary_of_fillOperand hfill)).pools hindexed
        trivial nofun
  | text =>
    dsimp only
    split
    · exact (KeepsLiterals.refl layout).pools hindexed trivial nofun
    · rename_i fault htext
      exact (KeepsLiterals.report line .meaning (ordinary_of_textContent htext)).pools hindexed
        trivial nofun
  | reserve =>
    dsimp only
    split
    · exact (KeepsLiterals.refl layout).pools hindexed trivial nofun
    · rename_i fault hreserve
      exact (KeepsLiterals.report line .meaning (ordinary_of_reserveCount hreserve)).pools hindexed
        trivial nofun
  | finish =>
    exact (keepsLiterals_finish layout line operands).pools hindexed trivial nofun
  | exports =>
    have hkeeps : layout.KeepsLiterals (layout.forNames line operands .noExports exportName) :=
      keepsLiterals_forNames layout line operands trivial (keepsLiterals_exportName line)
    exact hkeeps.pools hindexed trivial nofun
  | imports =>
    have hkeeps : layout.KeepsLiterals (layout.forNames line operands .noImports importName) :=
      keepsLiterals_forNames layout line operands trivial (keepsLiterals_importName line)
    exact hkeeps.pools hindexed trivial nofun

/-- The operation of a line pools the literals of its content. -/
theorem pools_operate {layout : Layout} (hindexed : layout.literals.Indexed) (line : Nat)
    (source : SourceLine) :
    layout.Pools (layout.operate line source).1 (layout.operate line source).2 := by
  unfold operate
  dsimp only
  split
  · rename_i directive _
    exact pools_direct hindexed line source.label _ directive
  · split
    · split
      · exact (KeepsLiterals.refl layout).pools hindexed trivial nofun
      · have hkeeps : layout.KeepsLiterals (layout.report line .form .missingOperation) :=
          .report line .form trivial
        exact hkeeps.pools hindexed trivial nofun
    · exact pools_machine hindexed line source.operation _

/-- Whether a layout has pooled the literals of its statements, each once and no others, and found
no literal without a place. -/
structure Pooled (layout : Layout) : Prop where
  /-- No error is for a literal without a place. -/
  errors : ∀ error ∈ layout.errors, error.fault.Ordinary
  /-- The literals of all statements have their places. -/
  statements : ∀ statement ∈ layout.statements, statement.content.PooledIn layout.literals
  /-- The pool has the values of the statements' literals and no others. -/
  values : ∀ value, value ∈ layout.literals.values ↔
    ∃ statement ∈ layout.statements, statement.content.Uses value
  /-- The index of the pool is in step with its values. -/
  indexed : layout.literals.Indexed

/-- No value is in the pool twice. -/
theorem Pooled.nodup {layout : Layout} (hpooled : layout.Pooled) :
    layout.literals.values.Nodup :=
  hpooled.indexed.nodup

/-- The values of a pooled layout have addresses in its pool. -/
theorem Pooled.exists_addressOf? {layout : Layout} (hpooled : layout.Pooled) {value : Word}
    (h : value ∈ layout.literals.values) : ∃ place, layout.pool.addressOf? value = some place := by
  have hindexed := hpooled.indexed.setOffset (BitVec.ofNat 16 layout.location)
  exact Option.isSome_iff_exists.mp (hindexed.isSome_addressOf?.mpr h)

/-- Before the first line there are no literals. -/
theorem pooled_initial (hint : String) : (initial hint).Pooled where
  errors := by simp [initial]
  statements := by simp [initial]
  values := by simp [initial, LiteralPool.empty]
  indexed := LiteralPool.indexed_empty

/-- What keeps the literals keeps them pooled. -/
theorem Pooled.of_keepsLiterals {layout after : Layout} (hpooled : layout.Pooled)
    (h : layout.KeepsLiterals after) : after.Pooled where
  errors := fun error herror => (h.errors error herror).elim (hpooled.errors error) id
  statements := by
    rw [h.statements, h.literals]
    exact hpooled.statements
  values := by
    rw [h.statements, h.literals]
    exact hpooled.values
  indexed := by
    rw [h.literals]
    exact hpooled.indexed

/-- A statement whose literals were pooled keeps the literals pooled. -/
theorem Pooled.push {layout after : Layout} {content : Content} (hpooled : layout.Pooled)
    (h : layout.Pools after content) (line : Nat) (text : String) :
    (after.push line text content).Pooled where
  errors := fun error herror => (h.errors error herror).elim (hpooled.errors error) id
  statements := by
    intro statement hstatement
    rcases List.mem_append.mp hstatement with hold | hnew
    · rw [h.statements] at hold
      exact (hpooled.statements statement hold).mono fun value hvalue =>
        (h.values value).mpr (.inl hvalue)
    · obtain rfl := List.mem_singleton.mp hnew
      exact h.pooled
  values := by
    intro value
    change value ∈ after.literals.values ↔
      ∃ statement ∈ after.statements ++ [_], statement.content.Uses value
    rw [h.values, hpooled.values, h.statements]
    simp only [List.mem_append, List.mem_singleton, or_and_right, exists_or, exists_eq_left]
  indexed := h.indexed

/-- A line keeps the literals pooled, whatever is wrong with it. -/
theorem Pooled.addLine {layout : Layout} (hpooled : layout.Pooled) (line : Nat) (text : String) :
    (layout.addLine line text).Pooled := by
  unfold Layout.addLine
  split
  · exact hpooled
  · have hfault : ∀ fault, (AssemblyFault.line fault).Ordinary := fun _ => trivial
    have hnoted : layout.KeepsLiterals
        ((SourceLine.scan text.toList).1.foldl
          (fun l fault => l.report line .form (.line fault)) layout) :=
      .foldl (fun _ fault => .report line .form (hfault fault)) _
    dsimp only
    split
    · exact hpooled.of_keepsLiterals hnoted
    · rename_i source _
      have hlabelled := hnoted.trans (keepsLiterals_labelLine _ line source)
      have hready := hpooled.of_keepsLiterals hlabelled
      exact hready.push (pools_operate hready.indexed line source) line text

/-- The layout of any source text has pooled its literals. -/
theorem pooled_ofSource (hint source : String) : (ofSource hint source).Pooled := by
  have hlines : ∀ (lines : List String) (layout : Layout) (first : Nat), layout.Pooled →
      (layout.addLines first lines).Pooled := by
    intro lines
    induction lines with
    | nil => exact fun _ _ h => h
    | cons text rest ih => exact fun layout first h => ih _ _ (h.addLine first text)
  exact hlines _ _ _ (pooled_initial hint)

end Layout

/-- A number that is out of range has an ordinary error. -/
theorem ordinary_of_check {slot : OperandSlot} {text : String} {value : Int} {error : OperandError}
    (h : slot.check text value = .error error) : error.Ordinary := by
  unfold OperandSlot.check at h
  split at h <;> cases h
  trivial

namespace EncodingContext

/-- A reference has an ordinary error if those that it may have are. -/
theorem ordinary_of_refer {context : EncodingContext} {address : Word} {slot : OperandSlot}
    {text : String} {value : Int} {moves : Bool} {offPage moving error : OperandError}
    (hoffPage : offPage.Ordinary) (hmoving : moving.Ordinary)
    (h : context.refer address slot text value moves offPage moving = .error error) :
    error.Ordinary := by
  unfold refer at h
  split at h
  · split at h <;> cases h
    exact hoffPage
  · split at h
    · split at h <;> cases h
      exact hmoving
    · rcases error_or_of_bind_eq_error h with hcheck | ⟨_, -, hdone⟩
      · exact ordinary_of_check hcheck
      · cases hdone

/-- An operand whose literal has its place has an ordinary error, if it has one. -/
theorem ordinary_of_resolve {context : EncodingContext} {address : Word} {slot : OperandSlot}
    {operand : Operand} {error : OperandError} (hindexed : context.literals.Indexed)
    (hplace : operand.kind = .literal →
      ∃ value ∈ context.literals.values, operand.IsLiteral value)
    (h : context.resolve address slot operand = .error error) : error.Ordinary := by
  unfold resolve at h
  dsimp only at h
  split at h
  · rcases error_or_of_bind_eq_error h with hparse | ⟨value, -, h⟩
    · exact ordinary_of_parseConstant hparse
    · rcases error_or_of_bind_eq_error h with hcheck | ⟨_, -, h⟩
      · exact ordinary_of_check hcheck
      · split at h <;> cases h
  · rcases error_or_of_bind_eq_error h with hparse | ⟨value, -, h⟩
    · unfold parseRegister at hparse
      split at hparse
      · split at hparse <;> cases hparse
        trivial
      · cases hparse
        trivial
    · rcases error_or_of_bind_eq_error h with hcheck | ⟨_, -, h⟩
      · exact ordinary_of_check hcheck
      · cases h
  · rename_i hkind
    obtain ⟨value, hvalue, hliteral⟩ := hplace hkind
    rcases error_or_of_bind_eq_error h with hparse | ⟨parsed, hparsed, h⟩
    · exact ordinary_of_parseLiteral hparse
    · obtain rfl := Except.ok.inj (hliteral.2.symm.trans hparsed)
      split at h
      · rename_i hnone
        have hsome := hindexed.isSome_addressOf?.mpr hvalue
        rw [hnone] at hsome
        cases hsome
      · have hoffPage : (OperandError.literalOffPage operand.text).Ordinary := trivial
        have hmoving : (OperandError.relocatableLiteral operand.text).Ordinary := trivial
        exact ordinary_of_refer hoffPage hmoving h
  · split at h
    · cases h
      trivial
    · split at h
      · cases h
      · have hoffPage : (OperandError.symbolOffPage operand.text).Ordinary := trivial
        have hmoving : (OperandError.relocatableSymbol operand.text).Ordinary := trivial
        exact ordinary_of_refer hoffPage hmoving h
  · cases h
    trivial

end EncodingContext

/-- Operands whose literals have their places add ordinary errors only. -/
theorem WordEncoding.ordinary_of_putAll {context : EncodingContext} {address : Word}
    {slots : List OperandSlot} {operands : List Operand} {encoding : WordEncoding}
    (hindexed : context.literals.Indexed)
    (hplace : ∀ operand ∈ operands, operand.kind = .literal →
      ∃ value ∈ context.literals.values, operand.IsLiteral value)
    (hencoding : ∀ error ∈ encoding.errors, error.Ordinary) :
    ∀ error ∈ (encoding.putAll context address slots operands).errors, error.Ordinary := by
  induction slots generalizing operands encoding with
  | nil => simpa [putAll] using hencoding
  | cons slot slots ih =>
    cases operands with
    | nil => simpa [putAll] using hencoding
    | cons operand operands =>
      rw [List.forall_mem_cons] at hplace
      refine ih hplace.2 ?_
      unfold put
      split
      · rename_i error hresolve
        intro other hother
        rcases List.mem_append.mp hother with hold | hnew
        · exact hencoding other hold
        · obtain rfl := List.mem_singleton.mp hnew
          exact EncodingContext.ordinary_of_resolve hindexed hplace.1 hresolve
      · exact hencoding
      · exact hencoding

/-- A statement whose literals have their places has ordinary errors only. -/
theorem Statement.ordinary_of_encode {statement : Statement} {context : EncodingContext}
    (hindexed : context.literals.Indexed) (h : statement.content.PooledIn context.literals) :
    ∀ error ∈ (statement.encode context).errors, error.Ordinary := by
  have hnone : ∀ error ∈ ([] : List OperandError), error.Ordinary := fun _ h => nomatch h
  obtain ⟨line, source, address, content⟩ := statement
  cases content with
  | machine definition operands => exact WordEncoding.ordinary_of_putAll hindexed h hnone
  | fill operand =>
    refine WordEncoding.ordinary_of_putAll hindexed (fun other hother hkind => ?_) hnone
    obtain rfl := List.mem_singleton.mp hother
    exact absurd hkind h
  | nothing => exact hnone
  | reserve => exact hnone
  | unknown => exact hnone
  | data => exact hnone

namespace AssemblyError

/-- Putting an error among others adds it and leaves the others. -/
theorem mem_insert {error other : AssemblyError} {errors : List AssemblyError} :
    other ∈ insert error errors ↔ other = error ∨ other ∈ errors := by
  induction errors with
  | nil => simp [insert]
  | cons first rest ih =>
    unfold insert
    split
    · rw [List.mem_cons, ih, List.mem_cons, or_left_comm]
    · rw [List.mem_cons]

/-- Errors in their order are the same errors. -/
theorem mem_sort {error : AssemblyError} {errors : List AssemblyError} :
    error ∈ sort errors ↔ error ∈ errors := by
  induction errors with
  | nil => rfl
  | cons first rest ih =>
    change error ∈ insert first (sort rest) ↔ _
    rw [mem_insert, ih, List.mem_cons]

end AssemblyError

namespace Layout

/-- Marking exports adds ordinary errors only. -/
theorem ordinary_of_exportedSymbols (layout : Layout) :
    ∀ error ∈ layout.exportedSymbols.2, error.fault.Ordinary := by
  have hfold : ∀ (names : List (Nat × String)) (table : SymbolTable × List AssemblyError),
      (∀ error ∈ table.2, error.fault.Ordinary) →
      ∀ error ∈ (names.foldl markExport table).2, error.fault.Ordinary := by
    intro names
    induction names with
    | nil => exact fun _ h => h
    | cons name rest ih =>
      intro table h
      refine ih _ ?_
      have hfail : ∀ {fault : AssemblyFault}, fault.Ordinary →
          ∀ error ∈ table.2 ++ [⟨some name.1, .meaning, fault⟩], error.fault.Ordinary := by
        intro fault hfault error herror
        rcases List.mem_append.mp herror with hold | hnew
        · exact h error hold
        · obtain rfl := List.mem_singleton.mp hnew
          exact hfault
      unfold markExport
      dsimp only
      split
      · exact hfail trivial
      · split
        · exact hfail trivial
        · split
          · exact h
          · exact hfail trivial
  exact hfold _ _ (fun _ h => nomatch h)

/-- A start that cannot be told has an ordinary error. -/
theorem ordinary_of_startAddress {layout : Layout} {symbols : SymbolTable} {error : AssemblyError}
    (h : layout.startAddress symbols = .error error) : error.fault.Ordinary := by
  unfold startAddress at h
  split at h
  · cases h
  · split at h
    · rename_i kind fault hstart
      cases h
      unfold startValue at hstart
      split at hstart
      · split at hstart
        · cases hstart
        · rename_i hparse
          cases hstart
          exact ordinary_of_parseConstant hparse
      · split at hstart
        · cases hstart
          trivial
        · split at hstart <;> cases hstart
          trivial
      · cases hstart
        trivial
    · split at h
      · split at h <;> cases h
        trivial
      · cases h
        trivial

/-- What is wrong with a program as a whole is ordinary. -/
theorem ordinary_of_problems (layout : Layout) :
    ∀ fault ∈ layout.problems, fault.Ordinary := by
  intro fault hfault
  simp only [problems, List.mem_append, List.mem_ite_nil_right, List.mem_ite_nil_left,
    List.mem_singleton] at hfault
  obtain (((((h | h) | h) | h) | h) | h) := hfault <;> rw [h.2] <;> trivial

end Layout

/-- No source text has an error for a literal without a place. -/
theorem ordinary_of_assemble {hint source : String} {errors : List AssemblyError}
    (h : assemble hint source = .error errors) : ∀ error ∈ errors, error.fault.Ordinary := by
  have hpooled := Layout.pooled_ofSource hint source
  unfold assemble Layout.toProgram at h
  dsimp only at h
  split at h
  · cases h
  · cases h
    intro error herror
    rw [AssemblyError.mem_sort] at herror
    simp only [List.mem_append, List.mem_map, List.mem_flatMap] at herror
    obtain (((hfound | ⟨fault, hproblem, rfl⟩) | hexport) | hstart) |
      ⟨encoded, ⟨statement, hstatement, rfl⟩, herror⟩ := herror
    · exact hpooled.errors error hfound
    · exact Layout.ordinary_of_problems _ fault hproblem
    · exact Layout.ordinary_of_exportedSymbols _ error hexport
    · split at hstart
      · cases hstart
      · rename_i other hother
        obtain rfl := List.mem_singleton.mp hstart
        exact Layout.ordinary_of_startAddress hother
    · obtain ⟨own, hown, rfl⟩ := List.mem_map.mp herror
      exact Statement.ordinary_of_encode hpooled.indexed (hpooled.statements statement hstatement)
        own hown

end PageMachine
