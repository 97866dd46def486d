import PageMachine.Proofs.Assembled

/-!
# Labels

A label is given the address of its statement when its line is read, and a symbol once defined is
never changed by the first pass. So in a faultless layout every label still has the address of its
statement at the end, and moves with the program if the program does. The label of an equation is
left out: it stands for what its operand says.
-/

namespace PageMachine

namespace Layout

/-- A label keeps the symbols there are. -/
theorem Labels.get?_of_get? {layout labelled : Layout} {label name : String} {symbol : Symbol}
    (h : layout.Labels label labelled) (hsome : layout.symbols.get? name = some symbol) :
    labelled.symbols.get? name = some symbol := by
  cases h with
  | absent => exact hsome
  | defined _ _ _ _ hdefine => exact SymbolTable.get?_define_of_get? hdefine hsome

/-- A label is defined. -/
theorem Labels.get?_label {layout labelled : Layout} {label : String}
    (h : layout.Labels label labelled) (hne : label ≠ "") :
    labelled.symbols.get? label =
      some (.ofValue (min labelled.location Text.maxInt32 : Nat) labelled.relocatable) := by
  cases h with
  | absent => exact absurd rfl hne
  | defined _ _ _ _ hdefine => exact (SymbolTable.get?_define hdefine label).trans (if_pos rfl)

/-- Imports keep the symbols there are. -/
theorem get?_of_imports {operands : List Operand} {table grown : SymbolTable} {name : String}
    {symbol : Symbol}
    (h : operands.foldlM (fun table operand => table.defineImport operand.text) table = .ok grown)
    (hsome : table.get? name = some symbol) : grown.get? name = some symbol := by
  induction operands generalizing table with
  | nil =>
    obtain rfl : table = grown := Except.ok.inj h
    exact hsome
  | cons operand rest ih =>
    rw [List.foldlM_cons] at h
    obtain ⟨defined, hdefine, h⟩ := exists_of_bind_eq_ok h
    exact ih h (SymbolTable.get?_define_of_get? hdefine hsome)

/-- A step keeps the symbols there are. -/
theorem Step.get?_of_get? {layout after : Layout} {line : Nat} {source : SourceLine}
    {directive : Option Directive} {content : Content} {name : String} {symbol : Symbol}
    (hstep : layout.Step line source directive after content)
    (hsome : layout.symbols.get? name = some symbol) : after.symbols.get? name = some symbol := by
  cases hstep with
  | blank labelled hlabel => exact hlabel.get?_of_get? hsome
  | machine labelled _ _ hlabel => exact @Labels.get?_of_get? layout labelled _ _ _ hlabel hsome
  | origin placed labelled _ _ hplace hlabel =>
    refine hlabel.get?_of_get? ?_
    rw [(hplace.symbols_eq source.label).1]
    exact hsome
  | equate symbols symbol _ _ hdefine => exact SymbolTable.get?_define_of_get? hdefine hsome
  | fill labelled _ hlabel => exact hlabel.get?_of_get? hsome
  | text labelled _ hlabel => exact hlabel.get?_of_get? hsome
  | reserve labelled _ hlabel => exact hlabel.get?_of_get? hsome
  | imports symbols _ _ _ hdefine => exact get?_of_imports hdefine hsome
  | _ => exact hsome

/-- A step gives its label the address of its statement, unless it is an equation. -/
theorem Step.get?_label {layout after : Layout} {line : Nat} {source : SourceLine}
    {directive : Option Directive} {content : Content}
    (hstep : layout.Step line source directive after content) (hne : source.label ≠ "")
    (hequate : directive ≠ some .equate) :
    after.symbols.get? source.label =
      some (.ofValue (min after.location Text.maxInt32 : Nat) after.relocatable) := by
  cases hstep with
  | blank labelled hlabel => exact hlabel.get?_label hne
  | machine labelled _ _ hlabel => exact @Labels.get?_label layout labelled _ hlabel hne
  | origin placed labelled _ _ _ hlabel => exact hlabel.get?_label hne
  | equate => exact absurd rfl hequate
  | fill labelled _ hlabel => exact hlabel.get?_label hne
  | text labelled _ hlabel => exact hlabel.get?_label hne
  | reserve labelled _ hlabel => exact hlabel.get?_label hne
  | finish hlabel => exact absurd hlabel hne
  | finishAt _ hlabel => exact absurd hlabel hne
  | exports hlabel => exact absurd hlabel hne
  | imports _ hlabel => exact absurd hlabel hne

/-- Whether each statement of a layout was read from its line without faults, and its label, if it
is no equation, still has the statement's address. -/
def Labelled (layout : Layout) : Prop :=
  ∀ statement ∈ layout.statements, ∃ source,
    SourceLine.scan statement.source.toList = ([], some source) ∧
      (source.label ≠ "" → Directive.ofText? source.operation ≠ some .equate →
        layout.symbols.get? source.label =
          some (.ofValue (min statement.address Text.maxInt32 : Nat) layout.relocatable))

/-- A step with its statement keeps the labels. -/
theorem Labelled.push {layout after : Layout} {line : Nat} {text : String} {source : SourceLine}
    {content : Content} (hlabelled : layout.Labelled)
    (hscan : SourceLine.scan text.toList = ([], some source))
    (hstep : layout.Step line source (Directive.ofText? source.operation) after content) :
    (after.push line text content).Labelled := by
  have hstatements := hstep.statements_push text
  intro statement hstatement
  rw [hstatements] at hstatement
  rcases List.mem_append.mp hstatement with hold | hnew
  · -- A statement before this one was not there yet when the origin was given, so that whether the
    -- program moves has not changed since.
    have horigin : Directive.ofText? source.operation ≠ some .origin := by
      intro horigin
      rw [horigin] at hstep
      rw [hstep.origin_spec.1] at hold
      cases hold
    obtain ⟨own, hown, hlabel⟩ := hlabelled statement hold
    refine ⟨own, hown, fun hne hequate => ?_⟩
    change after.symbols.get? own.label = some (.ofValue _ after.relocatable)
    rw [(hstep.head_eq horigin).2.2.2.1]
    exact hstep.get?_of_get? (hlabel hne hequate)
  · obtain rfl := List.mem_singleton.mp hnew
    exact ⟨source, hscan, hstep.get?_label⟩

/-- The labels of a source text without errors have the addresses of their statements. -/
theorem labelled_ofSource {hint source : String} (h : (ofSource hint source).errors = []) :
    (ofSource hint source).Labelled :=
  ofSource_induction (fun _ hstatement => nomatch hstatement)
    (fun _ _ _ _ _ _ hlabelled _ hscan hstep => hlabelled.push hscan hstep) h

end Layout

namespace Program

/-- Whether a name is the label in front of the statement of a program at an address. The name that
an equation defines is none. -/
inductive LabelAt (program : Program) (name : String) : Word → Prop
  | intro (encoded : EncodedStatement) (source : SourceLine)
      (hencoded : encoded ∈ program.statements)
      (hscan : (SourceLine.scan encoded.statement.source.toList).2 = some source)
      (hlabel : source.label = name) (hne : name ≠ "") (hoperation : source.operation ≠ ".EQU") :
      LabelAt program name encoded.statement.place

end Program

/-- The symbol of a label in an accepted program has the address of its statement, and moves if the
program does. -/
theorem Layout.Yields.get?_of_labelAt {layout : Layout} {program : Program}
    (hyields : layout.Yields program) (hsound : layout.Sound) (hlabelled : layout.Labelled)
    {name : String} {address : Word} (h : program.LabelAt name address) :
    ∃ symbol, program.symbols.get? name = some symbol ∧ symbol.word = address ∧
      symbol.relocatable = program.relocatable ∧ symbol.imported = false := by
  cases h with
  | intro encoded source hencoded hscan hlabel hne hoperation =>
    rw [hyields.statements] at hencoded
    obtain ⟨statement, hstatement, rfl⟩ := List.mem_map.mp hencoded
    rw [Statement.statement_encode] at hscan ⊢
    obtain ⟨own, hown, hsymbol⟩ := hlabelled statement hstatement
    rw [hown] at hscan
    obtain rfl : own = source := Option.some.inj hscan
    subst hlabel
    have hequate : Directive.ofText? own.operation ≠ some .equate := by
      intro hdirective
      unfold Directive.ofText? at hdirective
      split at hdirective <;> simp_all
    have hsome := hsymbol hne hequate
    have hend : statement.address ≤ Text.maxInt32 := by
      obtain ⟨-, hmemory, -⟩ := bounds_of_problems hyields.problems
      have hplace := hsound.places statement hstatement
      simp only [stop, addressLimit, maxLocation, Text.maxInt32] at hmemory hplace ⊢
      omega
    rw [Nat.min_eq_left hend] at hsome
    refine ⟨_, by rw [hyields.get?_symbols, hsome]; rfl, ?_⟩
    rw [marked_eq]
    exact ⟨BitVec.ofInt_natCast 16 statement.address, hyields.relocatable.symm, rfl⟩

end PageMachine
