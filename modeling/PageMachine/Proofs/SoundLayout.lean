import PageMachine.Proofs.LayoutStep
import PageMachine.Proofs.LiteralPooling

/-!
# What every faultless layout has

`Sound` collects what all steps preserve: the segment name has its length, the location counter
never falls behind the origin, statements hold what the instruction set allows, and names fit a
line. Symbols change in a few ways only, so what holds of a table is proved through
`Step.forall_symbols` instead of once for each kind of statement. Whether the program as a whole is
too large is not a matter of single steps and is left to the checks that follow the pass.
-/

namespace PageMachine

open Record (FitsLine)

namespace SourceLine

/-- Putting a character in front keeps pieces within the text. -/
theorem extendFirst_subset {c : Char} {rest : List Char} {others : List (List Char)}
    (hothers : ∀ piece ∈ others, piece ⊆ rest) :
    ∀ piece ∈ extendFirst c others, piece ⊆ c :: rest := by
  cases others with
  | nil => simp [extendFirst]
  | cons first others =>
    intro piece hpiece
    rcases List.mem_cons.mp hpiece with rfl | hpiece
    · exact List.cons_subset_cons c (hothers first List.mem_cons_self)
    · exact List.subset_cons_of_subset c (hothers piece (List.mem_cons_of_mem _ hpiece))

/-- The pieces of an operand field consist of its characters. -/
theorem pieces_subset {quoted : Bool} {field : List Char} {cut : List (List Char)}
    (h : pieces quoted field = some cut) : ∀ piece ∈ cut, piece ⊆ field := by
  fun_induction pieces quoted field generalizing cut with
  | case1 =>
    obtain rfl : [[]] = cut := by simpa using h
    simp
  | case2 => cases h
  | case3 c rest ih =>
    obtain ⟨others, hothers, rfl⟩ := Option.map_eq_some_iff.mp h
    exact extendFirst_subset (ih hothers)
  | case4 rest ih =>
    obtain ⟨others, hothers, rfl⟩ := Option.map_eq_some_iff.mp h
    exact extendFirst_subset (ih hothers)
  | case5 =>
    obtain rfl : [[]] = cut := by simpa using h
    simp
  | case6 rest _ _ ih =>
    obtain ⟨others, hothers, rfl⟩ := Option.map_eq_some_iff.mp h
    intro piece hpiece
    rcases List.mem_cons.mp hpiece with rfl | hpiece
    · exact List.nil_subset _
    · exact List.subset_cons_of_subset _ (ih hothers piece hpiece)
  | case7 c rest _ _ _ ih =>
    obtain ⟨others, hothers, rfl⟩ := Option.map_eq_some_iff.mp h
    exact extendFirst_subset (ih hothers)

/-- The operands of a field are not empty, have no blanks at their ends, and consist of the
field's characters. -/
theorem splitOperands_spec {field : List Char} {operands : List (List Char)}
    (h : splitOperands field = .ok operands) :
    ∀ operand ∈ operands, operand ≠ [] ∧ Text.trimEnd operand = operand ∧ operand ⊆ field := by
  unfold splitOperands at h
  split at h
  · cases h
  · rename_i cut hcut
    dsimp only at h
    split at h
    · obtain rfl := Except.ok.inj h
      simp
    · split at h
      · cases h
      · rename_i hempty
        obtain rfl := Except.ok.inj h
        intro operand hoperand
        refine ⟨?_, ?_, ?_⟩
        · rintro rfl
          exact hempty (List.any_eq_true.mpr ⟨[], hoperand, rfl⟩)
        · obtain ⟨piece, -, rfl⟩ := List.mem_map.mp hoperand
          exact Text.trimEnd_trim piece
        · obtain ⟨piece, hpiece, rfl⟩ := List.mem_map.mp hoperand
          exact fun c hc => pieces_subset hcut piece hpiece (Text.mem_of_mem_trim hc)

/-- The label and the operands of a line fit a line. -/
theorem fitsLine_of_scan {text : List Char} {faults : List LineFault} {source : SourceLine}
    (hline : '\n' ∉ text) (h : scan text = (faults, some source)) :
    FitsLine source.label.toList ∧
      ∀ operand ∈ source.operands, operand ≠ "" ∧ FitsLine operand.toList := by
  obtain ⟨operands, hsplit, -, rfl⟩ := Layout.scan_eq_some h
  have hsubset : Text.trimEnd text ⊆ text := (Text.trimEnd_prefix_self text).subset
  constructor
  · rw [String.toList_ofList]
    refine ⟨fun hmem => hline (hsubset ?_), Text.trimEnd_trim _⟩
    exact List.mem_of_mem_drop (List.mem_of_mem_take (Text.mem_of_mem_trim hmem))
  · intro operand hoperand
    obtain ⟨chars, hchars, rfl⟩ := List.mem_map.mp hoperand
    obtain ⟨hne, htrim, hwithin⟩ := splitOperands_spec hsplit chars hchars
    rw [String.toList_ofList]
    refine ⟨?_, fun hmem => hline (hsubset (List.mem_of_mem_drop (hwithin hmem))), htrim⟩
    intro hempty
    exact hne (by simpa using congrArg String.toList hempty)

end SourceLine

/-- Whether a statement's content is one that the instruction set allows, and its operands fit a
line. -/
def Content.Formed : Content → Prop
  | .nothing | .reserve _ | .data _ => True
  | .unknown => False
  | .machine definition operands =>
      definition ∈ InstructionSet.table ∧ definition.fits (operands.map Operand.kind) ∧
        ∀ operand ∈ operands, FitsLine operand.text.toList
  | .fill operand =>
      (operand.kind = .immediate ∨ operand.kind = .symbol) ∧ FitsLine operand.text.toList

namespace Layout

/-- What holds of a symbol and of all symbols in a table holds of all behind its definition. -/
theorem forall_symbols_of_define {P : String → Symbol → Prop} {table grown : SymbolTable}
    {name : String} {symbol : Symbol} (h : table.define name symbol = .ok grown)
    (hnew : P name symbol) (hall : ∀ other known, table.get? other = some known → P other known) :
    ∀ other known, grown.get? other = some known → P other known := by
  intro other known hknown
  rw [SymbolTable.get?_define h] at hknown
  split at hknown
  · rename_i hname
    rw [hname, ← Option.some.inj hknown]
    exact hnew
  · exact hall other known hknown

/-- What holds of a label's symbol and of the symbols at hand holds of all behind the label. -/
theorem Labels.forall_symbols {P : String → Symbol → Prop} {layout labelled : Layout}
    {label : String} (h : layout.Labels label labelled)
    (hlabel : label ≠ "" →
      P label (.ofValue (min layout.location Text.maxInt32 : Nat) layout.relocatable))
    (hall : ∀ name symbol, layout.symbols.get? name = some symbol → P name symbol) :
    ∀ name symbol, labelled.symbols.get? name = some symbol → P name symbol := by
  cases h with
  | absent => exact hall
  | defined _ symbols hne hvalid hdefine =>
    exact forall_symbols_of_define hdefine (hlabel hne) hall

/-- What holds of every import and of the symbols at hand holds of all behind a list of imports. -/
theorem forall_symbols_of_imports {P : String → Symbol → Prop} {operands : List Operand}
    {table grown : SymbolTable}
    (h : operands.foldlM (fun table operand => table.defineImport operand.text) table = .ok grown)
    (himport : ∀ operand ∈ operands, P operand.text .ofImport)
    (hall : ∀ name symbol, table.get? name = some symbol → P name symbol) :
    ∀ name symbol, grown.get? name = some symbol → P name symbol := by
  induction operands generalizing table with
  | nil =>
    obtain rfl : table = grown := Except.ok.inj h
    exact hall
  | cons operand rest ih =>
    rw [List.foldlM_cons] at h
    cases hdefine : table.defineImport operand.text with
    | error error =>
      rw [hdefine] at h
      cases h
    | ok defined =>
      rw [hdefine] at h
      refine ih h (fun other hother => himport other (List.mem_cons_of_mem _ hother)) ?_
      exact forall_symbols_of_define hdefine (himport operand List.mem_cons_self) hall

/-- A label does not move the layout. -/
theorem Labels.location_eq {layout labelled : Layout} {label : String}
    (h : layout.Labels label labelled) :
    labelled.location = layout.location ∧ labelled.relocatable = layout.relocatable := by
  obtain ⟨symbols, rfl⟩ := h.exists_eq
  exact ⟨rfl, rfl⟩

/-- Naming the segment changes nothing else. -/
theorem named_eq (layout : Layout) (label : String) :
    layout.named label = { layout with segmentName := (layout.named label).segmentName } := by
  unfold named
  split <;> rfl

/-- A segment keeps its name only if there is no label. -/
theorem segmentName_named (layout : Layout) (label : String) :
    (layout.named label).segmentName =
      if label = "" then layout.segmentName
      else String.ofList (Record.segmentName label.toList) := by
  unfold named
  split <;> rfl

/-- Placing the origin does not define symbols, nor does naming the segment. -/
theorem Places.symbols_eq {layout placed : Layout} {operands : List Operand}
    (h : layout.Places operands placed) (label : String) :
    (placed.named label).symbols = layout.symbols ∧
      (placed.named label).location = placed.location ∧
      (placed.named label).relocatable = placed.relocatable := by
  rw [named_eq]
  cases h <;> exact ⟨rfl, rfl, rfl⟩

/-- What holds of the symbols at hand, and of each symbol that a step can define, holds of all
symbols behind the step. Symbols are imported by the names of one directive. -/
theorem Step.forall_defined {P : String → Symbol → Prop} {layout after : Layout} {line : Nat}
    {source : SourceLine} {directive : Option Directive} {content : Content}
    (hstep : layout.Step line source directive after content)
    (hlabel : source.label ≠ "" →
      P source.label (.ofValue (min after.location Text.maxInt32 : Nat) after.relocatable))
    (hequate : source.label ≠ "" → ∀ symbol,
      Equates layout.symbols (source.operands.map Operand.mk) symbol → P source.label symbol)
    (himport : directive = some .imports → ∀ operand ∈ source.operands,
      (Operand.mk operand).kind = .symbol → P operand .ofImport)
    (hall : ∀ name symbol, layout.symbols.get? name = some symbol → P name symbol) :
    ∀ name symbol, after.symbols.get? name = some symbol → P name symbol := by
  have hlabels : ∀ {labelled : Layout}, layout.Labels source.label labelled →
      (source.label ≠ "" → P source.label
        (.ofValue (min labelled.location Text.maxInt32 : Nat) labelled.relocatable)) →
      ∀ name symbol, labelled.symbols.get? name = some symbol → P name symbol := by
    intro labelled h hnew
    rw [h.location_eq.1, h.location_eq.2] at hnew
    exact h.forall_symbols hnew hall
  cases hstep with
  | blank labelled h => exact hlabels h hlabel
  | machine labelled _ _ h => exact @hlabels labelled h hlabel
  | origin placed labelled _ _ hplace h =>
    obtain ⟨hsymbols, -, -⟩ := hplace.symbols_eq source.label
    rw [h.location_eq.1, h.location_eq.2] at hlabel
    refine h.forall_symbols hlabel ?_
    rw [hsymbols]
    exact hall
  | equate symbols symbol hne hequates hdefine =>
    exact forall_symbols_of_define hdefine (hequate hne symbol hequates) hall
  | fill labelled _ h => exact hlabels h hlabel
  | text labelled _ h => exact hlabels h hlabel
  | reserve labelled _ h => exact hlabels h hlabel
  | finish => exact hall
  | finishAt => exact hall
  | exports => exact hall
  | imports symbols _ _ hkinds hdefine =>
    refine forall_symbols_of_imports hdefine ?_ hall
    intro operand hoperand
    obtain ⟨text, htext, rfl⟩ := List.mem_map.mp hoperand
    exact himport rfl text htext (hkinds _ hoperand)

/-- What holds of the symbols at hand and of each symbol that a line can define, whatever its
operation, holds of all symbols behind its step. -/
theorem Step.forall_symbols {P : String → Symbol → Prop} {layout after : Layout} {line : Nat}
    {source : SourceLine} {directive : Option Directive} {content : Content}
    (hstep : layout.Step line source directive after content)
    (hlabel : source.label ≠ "" →
      P source.label (.ofValue (min after.location Text.maxInt32 : Nat) after.relocatable))
    (hequate : source.label ≠ "" → ∀ symbol,
      Equates layout.symbols (source.operands.map Operand.mk) symbol → P source.label symbol)
    (himport : ∀ operand ∈ source.operands, P operand .ofImport)
    (hall : ∀ name symbol, layout.symbols.get? name = some symbol → P name symbol) :
    ∀ name symbol, after.symbols.get? name = some symbol → P name symbol :=
  hstep.forall_defined hlabel hequate (fun _ operand hoperand _ => himport operand hoperand) hall

/-- Only the origin moves the layout before the statement is added, or changes its head. -/
theorem Step.head_eq {layout after : Layout} {line : Nat} {source : SourceLine}
    {directive : Option Directive} {content : Content}
    (hstep : layout.Step line source directive after content) (hne : directive ≠ some .origin) :
    after.location = layout.location ∧ after.originSeen = layout.originSeen ∧
      after.origin = layout.origin ∧ after.relocatable = layout.relocatable ∧
      after.segmentName = layout.segmentName := by
  have hlabels : ∀ {labelled : Layout}, layout.Labels source.label labelled →
      labelled.location = layout.location ∧ labelled.originSeen = layout.originSeen ∧
        labelled.origin = layout.origin ∧ labelled.relocatable = layout.relocatable ∧
        labelled.segmentName = layout.segmentName := by
    intro labelled h
    obtain ⟨symbols, rfl⟩ := h.exists_eq
    exact ⟨rfl, rfl, rfl, rfl, rfl⟩
  cases hstep with
  | blank labelled h => exact hlabels h
  | machine labelled _ _ h => exact @hlabels labelled h
  | origin => exact absurd rfl hne
  | fill labelled _ h => exact hlabels h
  | text labelled _ h => exact hlabels h
  | reserve labelled _ h => exact hlabels h
  | _ => exact ⟨rfl, rfl, rfl, rfl, rfl⟩

/-- The origin is given once. -/
theorem Step.ne_origin {layout after : Layout} {line : Nat} {source : SourceLine}
    {directive : Option Directive} {content : Content}
    (hstep : layout.Step line source directive after content)
    (hseen : layout.originSeen = true) : directive ≠ some .origin := by
  rintro rfl
  cases hstep with
  | origin _ _ hunseen => exact Bool.false_ne_true (hunseen.symm.trans hseen)

/-- No step changes the statements before its own is added. -/
theorem Step.statements_eq {layout after : Layout} {line : Nat} {source : SourceLine}
    {directive : Option Directive} {content : Content}
    (hstep : layout.Step line source directive after content) :
    after.statements = layout.statements := by
  have hlabels : ∀ {start labelled : Layout}, start.Labels source.label labelled →
      labelled.statements = start.statements := by
    intro start labelled h
    obtain ⟨symbols, rfl⟩ := h.exists_eq
    rfl
  cases hstep with
  | blank labelled h => exact hlabels h
  | machine labelled _ _ h => exact @hlabels layout labelled h
  | origin placed labelled _ _ hplace h =>
    rw [hlabels h, named_eq]
    cases hplace <;> rfl
  | fill labelled _ h => exact hlabels h
  | text labelled _ h => exact hlabels h
  | reserve labelled _ h => exact hlabels h
  | _ => rfl

/-- A step adds one statement. -/
theorem Step.statements_push {layout after : Layout} {line : Nat} {source : SourceLine}
    {directive : Option Directive} {content : Content}
    (hstep : layout.Step line source directive after content) (text : String) :
    (after.push line text content).statements =
      layout.statements ++ [⟨line, text, after.location, content⟩] := by
  rw [← hstep.statements_eq]
  rfl

/-- Where the origin is placed, and how the segment is then named. -/
theorem Step.origin_spec {layout after : Layout} {line : Nat} {source : SourceLine}
    {content : Content} (hstep : layout.Step line source (some .origin) after content) :
    layout.statements = [] ∧ after.location = after.origin.toNat ∧
      (after.relocatable = true → after.origin = 0 ∨ layout.relocatable = true) ∧
      after.segmentName = if source.label = "" then layout.segmentName
        else String.ofList (Record.segmentName source.label.toList) := by
  cases hstep with
  | origin placed labelled hseen hfirst hplace hlabel =>
    obtain ⟨symbols, rfl⟩ := hlabel.exists_eq
    have hname := named_eq placed source.label
    have hsegment := segmentName_named placed source.label
    rw [hname]
    cases hplace with
    | free => exact ⟨hfirst, rfl, fun _ => .inl rfl, hsegment⟩
    | given => exact ⟨hfirst, rfl, .inr, hsegment⟩

/-- The content of a faultless statement is one that the instruction set allows. -/
theorem Step.formed {layout after : Layout} {line : Nat} {source : SourceLine}
    {directive : Option Directive} {content : Content}
    (hstep : layout.Step line source directive after content)
    (hoperands : ∀ operand ∈ source.operands, FitsLine operand.toList) : content.Formed := by
  have hfits : ∀ operand ∈ source.operands.map Operand.mk, FitsLine operand.text.toList := by
    intro operand hoperand
    obtain ⟨text, htext, rfl⟩ := List.mem_map.mp hoperand
    exact hoperands text htext
  cases hstep with
  | machine labelled definition literals hlabel hfind hpool =>
    unfold InstructionSet.find? at hfind
    have hmatch := List.find?_some hfind
    simp only [Bool.and_eq_true] at hmatch
    exact ⟨List.mem_of_find?_eq_some hfind, hmatch.2, hfits⟩
  | fill labelled operand hlabel hfill =>
    unfold fillOperand at hfill
    split at hfill
    · rename_i single hsingle
      rw [hsingle] at hfits
      split at hfill
      · rename_i hkind
        obtain rfl := Except.ok.inj hfill
        exact ⟨.inl hkind, hfits _ List.mem_cons_self⟩
      · rename_i hkind
        obtain rfl := Except.ok.inj hfill
        exact ⟨.inr hkind, hfits _ List.mem_cons_self⟩
      · cases hfill
    · cases hfill
  | _ => exact trivial

/-- The index of the literals stays in step with them. -/
theorem Step.indexed {layout after : Layout} {line : Nat} {source : SourceLine}
    {directive : Option Directive} {content : Content}
    (hstep : layout.Step line source directive after content)
    (hindexed : layout.literals.Indexed) : after.literals.Indexed := by
  cases hstep with
  | blank labelled h => exact h.literals_eq ▸ hindexed
  | machine labelled _ literals _ _ hpool => exact (poolLiterals_spec hindexed hpool).2.2
  | origin placed labelled _ _ hplace h =>
    rw [h.literals_eq, named_eq]
    cases hplace <;> exact hindexed
  | fill labelled _ h => exact h.literals_eq ▸ hindexed
  | text labelled _ h => exact h.literals_eq ▸ hindexed
  | reserve labelled _ h => exact h.literals_eq ▸ hindexed
  | _ => exact hindexed

/-- Whether a layout has what a faultless first pass gives every program. -/
structure Sound (layout : Layout) : Prop where
  /-- A layout without statements is the initial one. -/
  fresh : layout.statements = [] → ∃ hint, layout = initial hint
  /-- The segment name has its length. -/
  segmentName : layout.segmentName.toList.length = Record.nameLength
  /-- The location counter stays in its range. -/
  location_le : layout.location ≤ maxLocation
  /-- The next statement does not lie before the origin. -/
  origin_le : layout.origin.toNat ≤ layout.location
  /-- The origin of a relocatable program is zero. -/
  origin_eq : layout.relocatable = true → layout.origin = 0
  /-- The statements hold what the instruction set allows. -/
  formed : ∀ statement ∈ layout.statements, statement.content.Formed
  /-- The statements lie before the next one, unless the location counter is at its end. -/
  places : ∀ statement ∈ layout.statements,
    statement.address + statement.content.size ≤ layout.location ∨ layout.location = maxLocation
  /-- Names of symbols fit a line, and no symbol is exported yet. -/
  symbols : ∀ name symbol, layout.symbols.get? name = some symbol →
    FitsLine name.toList ∧ symbol.exported = false
  /-- Addresses that move lie in the program. -/
  moving : ∀ name symbol, layout.symbols.get? name = some symbol → symbol.relocatable = true →
    symbol.imported = false ∧ 0 ≤ symbol.value ∧ symbol.value ≤ layout.location
  /-- The index of the literals is in step with them. -/
  indexed : layout.literals.Indexed

/-- Before the first line a layout is sound. -/
theorem sound_initial (hint : String) : (initial hint).Sound where
  fresh := fun _ => ⟨hint, rfl⟩
  segmentName := by simp [initial, Record.length_segmentName]
  location_le := by simp [initial]
  origin_le := by simp [initial]
  origin_eq := fun _ => rfl
  formed := by simp [initial]
  places := by simp [initial]
  symbols := by simp [initial, SymbolTable.get?, SymbolTable.empty]
  moving := by simp [initial, SymbolTable.get?, SymbolTable.empty]
  indexed := LiteralPool.indexed_empty

/-- Where a step puts its statement: where the layout was, or at an origin that begins the
program. -/
theorem Sound.location_spec {layout after : Layout} {line : Nat} {source : SourceLine}
    {directive : Option Directive} {content : Content} (hsound : layout.Sound)
    (hstep : layout.Step line source directive after content) :
    layout.location ≤ after.location ∧ after.location ≤ maxLocation ∧
      after.origin.toNat ≤ after.location ∧ (after.relocatable = true → after.origin = 0) := by
  by_cases hdirective : directive = some .origin
  · subst hdirective
    obtain ⟨hfirst, hlocation, hrelocatable, -⟩ := hstep.origin_spec
    obtain ⟨hint, rfl⟩ := hsound.fresh hfirst
    have hsmall := after.origin.isLt
    refine ⟨Nat.zero_le _, ?_, hlocation.ge, fun h => ?_⟩
    · rw [hlocation, maxLocation]
      omega
    · rcases hrelocatable h with horigin | hold
      · exact horigin
      · cases hold
  · obtain ⟨hlocation, -, horigin, hrelocatable, -⟩ := hstep.head_eq hdirective
    rw [hlocation, horigin, hrelocatable]
    exact ⟨Nat.le_refl _, hsound.location_le, hsound.origin_le, hsound.origin_eq⟩

/-- A step leaves a segment name of its length. -/
theorem Sound.length_segmentName {layout after : Layout} {line : Nat} {source : SourceLine}
    {directive : Option Directive} {content : Content} (hsound : layout.Sound)
    (hstep : layout.Step line source directive after content) :
    after.segmentName.toList.length = Record.nameLength := by
  by_cases hdirective : directive = some .origin
  · subst hdirective
    rw [hstep.origin_spec.2.2.2]
    split
    · exact hsound.segmentName
    · rw [String.toList_ofList, Record.length_segmentName]
  · rw [(hstep.head_eq hdirective).2.2.2.2]
    exact hsound.segmentName

/-- Addresses that move do not lie behind the statement of a step. -/
theorem Sound.moving_of_step {layout after : Layout} {line : Nat} {source : SourceLine}
    {directive : Option Directive} {content : Content} (hsound : layout.Sound)
    (hstep : layout.Step line source directive after content) :
    ∀ name symbol, after.symbols.get? name = some symbol → symbol.relocatable = true →
      symbol.imported = false ∧ 0 ≤ symbol.value ∧ symbol.value ≤ after.location := by
  have hgrow := Int.ofNat_le.mpr (hsound.location_spec hstep).1
  refine hstep.forall_symbols ?_ ?_ ?_ ?_
  · exact fun _ _ => ⟨rfl, Int.natCast_nonneg _, Int.ofNat_le.mpr (Nat.min_le_left _ _)⟩
  · intro _ symbol hequates hmoves
    cases hequates with
    | copy operand target _ _ hsome himported =>
      obtain ⟨-, hlow, hhigh⟩ := hsound.moving operand.text target hsome hmoves
      exact ⟨rfl, hlow, hhigh.trans hgrow⟩
    | constant => cases hmoves
  · exact fun _ _ hmoves => nomatch hmoves
  · intro name symbol hsome hmoves
    obtain ⟨himported, hlow, hhigh⟩ := hsound.moving name symbol hsome hmoves
    exact ⟨himported, hlow, hhigh.trans hgrow⟩

/-- A step with its statement keeps a layout sound. -/
theorem Sound.push {layout after : Layout} {line : Nat} {text : String} {source : SourceLine}
    {directive : Option Directive} {content : Content} (hsound : layout.Sound)
    (hlabel : FitsLine source.label.toList)
    (hoperands : ∀ operand ∈ source.operands, FitsLine operand.toList)
    (hstep : layout.Step line source directive after content) :
    (after.push line text content).Sound := by
  obtain ⟨hgrow, hmax, horigin, hrelocatable⟩ := hsound.location_spec hstep
  have hlength := hsound.length_segmentName hstep
  have hmoving := hsound.moving_of_step hstep
  have hlocation : (after.push line text content).location =
      min maxLocation (after.location + content.size) := rfl
  have hstatements := hstep.statements_push text
  exact
    { fresh := by
        rw [hstatements]
        exact fun h => absurd h (by simp)
      segmentName := hlength
      location_le := hlocation ▸ Nat.min_le_left _ _
      origin_le := by
        rw [hlocation]
        exact Nat.le_min.mpr ⟨Nat.le_trans horigin hmax, Nat.le_add_right_of_le horigin⟩
      origin_eq := hrelocatable
      formed := by
        rw [hstatements]
        intro statement hstatement
        rcases List.mem_append.mp hstatement with hold | hnew
        · exact hsound.formed statement hold
        · obtain rfl := List.mem_singleton.mp hnew
          exact hstep.formed hoperands
      places := by
        rw [hstatements, hlocation]
        intro statement hstatement
        rcases List.mem_append.mp hstatement with hold | hnew
        · rcases hsound.places statement hold with hplace | hplace <;> omega
        · obtain rfl := List.mem_singleton.mp hnew
          change after.location + content.size ≤ _ ∨ _
          omega
      symbols := by
        refine hstep.forall_symbols (fun _ => ⟨hlabel, rfl⟩) ?_ ?_ hsound.symbols
        · intro _ symbol hequates
          cases hequates <;> exact ⟨hlabel, rfl⟩
        · exact fun operand hoperand => ⟨hoperands operand hoperand, rfl⟩
      moving := by
        intro name symbol hsome hmoves
        obtain ⟨himported, hlow, hhigh⟩ := hmoving name symbol hsome hmoves
        refine ⟨himported, hlow, ?_⟩
        rw [hlocation]
        omega
      indexed := hstep.indexed hsound.indexed }

/-- A line of a source text, laid out by a step, keeps a layout sound. -/
theorem Sound.addLine {layout after : Layout} {line : Nat} {text source : String}
    {scanned : SourceLine} {directive : Option Directive} {content : Content}
    (hsound : layout.Sound) (htext : text ∈ Text.lines source)
    (hscan : SourceLine.scan text.toList = ([], some scanned))
    (hstep : layout.Step line scanned directive after content) :
    (after.push line text content).Sound := by
  obtain ⟨chars, hchars, rfl⟩ := List.mem_map.mp htext
  rw [String.toList_ofList] at hscan
  have hline := Text.newline_not_mem_splitLines hchars
  obtain ⟨hlabel, hoperands⟩ := SourceLine.fitsLine_of_scan hline hscan
  exact hsound.push hlabel (fun operand hoperand => (hoperands operand hoperand).2) hstep

/-- The layout of a source text without errors is sound. -/
theorem sound_ofSource {hint source : String} (h : (ofSource hint source).errors = []) :
    (ofSource hint source).Sound :=
  ofSource_induction (sound_initial hint)
    (fun _ _ _ _ _ _ hsound htext hscan hstep => hsound.addLine htext hscan hstep) h

end Layout

end PageMachine
