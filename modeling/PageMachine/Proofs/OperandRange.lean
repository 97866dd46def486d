import PageMachine.Proofs.DecodedStatement
import PageMachine.Proofs.LiteralPooling

/-!
# The range of an operand

Filling a field masks the number that goes into it, so that a number which does not fit would leave
no trace. Before that, a constant, a register and a name for a constant are held against the range
of their slot, and a name in a page offset against the page of the instruction behind. This is said
here for every source text: a number that is refused is an error of its statement, and then there is
no program. The page of a program that moves is not looked at, nor is then whether the number of the
name is an address at all.

Names that other modules define and addresses that move with the program are left out.
-/

namespace PageMachine

/-- The number of an operand that neither another module nor the place of the program decides. -/
inductive FixedNumber (symbols : SymbolTable) (operand : Operand) (value : Int) : Prop
  | constant (hkind : operand.kind = .immediate)
      (hparse : parseConstant operand.text = .ok value)
  | register (hkind : operand.kind = .register) (hparse : parseRegister operand.text = .ok value)
  | symbol (symbol : Symbol) (hkind : operand.kind = .symbol)
      (hsome : symbols.get? operand.text = some symbol) (himported : symbol.imported = false)
      (hstays : symbol.relocatable = false) (hvalue : symbol.value = value)

/-- The operands of a content with their slots. -/
def Content.fields (content : Content) : List (OperandSlot × Operand) :=
  (content.form?.map Prod.snd).getD []

/-- Whether an operand is the name of an address of which the slot holds the page offset. -/
def NamesPage (slot : OperandSlot) (operand : Operand) : Prop :=
  operand.kind = .symbol ∧ slot.pageRelative = true

instance (slot : OperandSlot) (operand : Operand) : Decidable (NamesPage slot operand) :=
  inferInstanceAs (Decidable (_ ∧ _))

/-- The error for an operand whose number is refused. -/
def refusal (slot : OperandSlot) (operand : Operand) : OperandError :=
  if NamesPage slot operand then .symbolOffPage operand.text
  else .outOfRange operand.text slot.minValue slot.maxValue

namespace EncodingContext

/-- Whether an operand's number is taken for a slot of the word at an address. -/
def Admits (context : EncodingContext) (address : Word) (slot : OperandSlot) (operand : Operand)
    (value : Int) : Prop :=
  if NamesPage slot operand then context.relocatable = true ∨ OnPage address value
  else slot.InRange value

instance (context : EncodingContext) (address : Word) (slot : OperandSlot) (operand : Operand)
    (value : Int) : Decidable (context.Admits address slot operand value) :=
  inferInstanceAs (Decidable (ite _ _ _))

variable {context : EncodingContext} {address : Word} {slot : OperandSlot} {operand : Operand}
  {value : Int}

/-- The name of a fixed number refers to it as to what does not move. -/
theorem resolve_symbol {symbol : Symbol} (hkind : operand.kind = .symbol)
    (hsome : context.symbols.get? operand.text = some symbol) (himported : symbol.imported = false)
    (hstays : symbol.relocatable = false) :
    context.resolve address slot operand =
      context.refer address slot operand.text symbol.value false (.symbolOffPage operand.text)
        (.relocatableSymbol operand.text) := by
  rw [resolve, hkind]
  dsimp only
  rw [hsome]
  dsimp only
  rw [himported, if_neg Bool.false_ne_true, hstays]

/-- An operand that names a page resolves to its number if that is on the page, or if the program
moves. -/
theorem resolve_of_namesPage (hnumber : FixedNumber context.symbols operand value)
    (hnames : NamesPage slot operand) :
    context.resolve address slot operand =
      if context.relocatable ∨ OnPage address value then .ok (.number value false)
      else .error (.symbolOffPage operand.text) := by
  obtain ⟨hkind, hpage⟩ := hnames
  cases hnumber with
  | constant hother => cases hkind.symm.trans hother
  | register hother => cases hkind.symm.trans hother
  | symbol symbol _ hsome himported hstays hvalue =>
    rw [resolve_symbol hkind hsome himported hstays, refer, if_pos hpage, hvalue]

/-- An operand that does not name an address of a page resolves to a number that stays, if its
number passes the check. -/
theorem exists_resolve_eq_map (address : Word)
    (hnumber : FixedNumber context.symbols operand value) (hnames : ¬NamesPage slot operand) :
    ∃ held, context.resolve address slot operand =
      (slot.check operand.text value).map fun _ => .number held false := by
  cases hnumber with
  | constant hkind hparse =>
    refine ⟨if slot.pageRelative then value - (context.origin &&& 0x1FF).toNat else value, ?_⟩
    rw [resolve, hkind]
    dsimp only
    rw [hparse]
    change slot.check operand.text value >>= _ = _
    cases slot.check operand.text value <;> cases slot.pageRelative <;> rfl
  | register hkind hparse =>
    refine ⟨value, ?_⟩
    rw [resolve, hkind]
    dsimp only
    rw [hparse]
    change slot.check operand.text value >>= _ = _
    cases slot.check operand.text value <;> rfl
  | symbol symbol hkind hsome himported hstays hvalue =>
    refine ⟨value, ?_⟩
    have hpage : ¬slot.pageRelative = true := fun hpage => hnames ⟨hkind, hpage⟩
    rw [resolve_symbol hkind hsome himported hstays, refer, if_neg hpage,
      if_neg Bool.false_ne_true, hvalue]
    cases slot.check operand.text value <;> rfl

/-- An operand whose number is taken resolves to a number that stays. -/
theorem exists_resolve_of_admits (hnumber : FixedNumber context.symbols operand value)
    (hadmits : context.Admits address slot operand value) :
    ∃ held, context.resolve address slot operand = .ok (.number held false) := by
  unfold Admits at hadmits
  split at hadmits
  · next hnames => exact ⟨value, (resolve_of_namesPage hnumber hnames).trans (if_pos hadmits)⟩
  · next hnames =>
    obtain ⟨held, hresolve⟩ := exists_resolve_eq_map address hnumber hnames
    refine ⟨held, hresolve.trans ?_⟩
    rw [OperandSlot.check, if_pos hadmits]
    rfl

/-- An operand whose number is not taken is refused. -/
theorem resolve_of_not_admits (hnumber : FixedNumber context.symbols operand value)
    (hadmits : ¬context.Admits address slot operand value) :
    context.resolve address slot operand = .error (refusal slot operand) := by
  unfold Admits at hadmits
  rw [refusal]
  split at hadmits
  · next hnames => rw [resolve_of_namesPage hnumber hnames, if_neg hadmits, if_pos hnames]
  · next hnames =>
    obtain ⟨held, hresolve⟩ := exists_resolve_eq_map address hnumber hnames
    rw [hresolve, OperandSlot.check, if_neg hadmits, if_neg hnames]
    rfl

/-- An operand that resolves has a number, if it is a constant or a register. -/
theorem Resolves.exists_fixedNumber {held : FieldValue}
    (h : context.Resolves address slot operand held)
    (hkind : operand.kind = .immediate ∨ operand.kind = .register) :
    ∃ value, FixedNumber context.symbols operand value := by
  rcases hkind with hkind | hkind
  · obtain ⟨value, hparse, -⟩ := h.constant_of_kind hkind
    exact ⟨value, .constant hkind hparse⟩
  · obtain ⟨value, hparse, -, -⟩ := h.register_of_kind hkind
    exact ⟨value, .register hkind hparse⟩

end EncodingContext

/-- The errors of a word in the making are those of its operands. -/
theorem WordEncoding.mem_errors_putPairs {context : EncodingContext} {address : Word}
    {encoding : WordEncoding} {pairs : List (OperandSlot × Operand)} {error : OperandError} :
    error ∈ (encoding.putPairs context address pairs).errors ↔
      error ∈ encoding.errors ∨
        ∃ pair ∈ pairs, context.resolve address pair.1 pair.2 = .error error := by
  induction pairs generalizing encoding with
  | nil => simp [putPairs]
  | cons pair rest ih =>
    change error ∈ (WordEncoding.putPairs _ _ _ rest).errors ↔ _
    rw [ih, List.exists_mem_cons_iff, ← or_assoc]
    refine or_congr_left ?_
    dsimp only
    cases hresolve : context.resolve address pair.1 pair.2 with
    | error own => simp [put, hresolve, eq_comm]
    | ok held => cases held <;> simp [put, hresolve]

/-- The errors of a statement are those of its operands in their slots. -/
theorem Statement.mem_errors_encode {statement : Statement} {context : EncodingContext}
    {error : OperandError} :
    error ∈ (statement.encode context).errors ↔
      ∃ field ∈ statement.content.fields,
        context.resolve statement.place field.1 field.2 = .error error := by
  have hword : ∀ pattern slots operands,
      error ∈ (statement.encodeWord context pattern slots operands).errors ↔
        ∃ field ∈ slots.zip operands,
          context.resolve statement.place field.1 field.2 = .error error := by
    intro pattern slots operands
    rw [encodeWord, WordEncoding.putAll_eq_putPairs, WordEncoding.mem_errors_putPairs]
    exact or_iff_right List.not_mem_nil
  unfold encode
  cases statement.content with
  | machine definition operands => exact hword _ _ _
  | fill operand => exact hword _ _ _
  | nothing => simp [Content.fields, Content.form?]
  | reserve => simp [Content.fields, Content.form?]
  | unknown => simp [Content.fields, Content.form?]
  | data => simp [Content.fields, Content.form?]

namespace Layout

/-- What the statements of a layout are encoded against. -/
def finalContext (layout : Layout) : EncodingContext :=
  layout.context layout.exportedSymbols.1

/-- An error of a statement leaves no program, and is given with the line of the statement. -/
theorem exists_errors_of_encode {layout : Layout} {statement : Statement}
    (hstatement : statement ∈ layout.statements) {error : OperandError}
    (herror : error ∈ (statement.encode layout.finalContext).errors) :
    ∃ errors, layout.toProgram = .error errors ∧
      ⟨some statement.line, .meaning, .operand error⟩ ∈ errors := by
  cases hresult : layout.toProgram with
  | ok program =>
    have hyields := yields_of_toProgram hresult
    have hclean := hyields.encodes statement hstatement
    rw [finalContext, hyields.symbols, hclean] at herror
    cases herror
  | error errors =>
    refine ⟨errors, rfl, ?_⟩
    unfold toProgram at hresult
    dsimp only at hresult
    split at hresult
    · cases hresult
    · cases hresult
      refine AssemblyError.mem_sort.mpr (List.mem_append_right _ (List.mem_flatMap.mpr ?_))
      refine ⟨_, List.mem_map_of_mem hstatement, List.mem_map.mpr ⟨error, herror, ?_⟩⟩
      rw [Statement.statement_encode]

end Layout

/-- No number of an operand is cut to its field unseen. In an accepted program constants and
registers have numbers, and these and the names of fixed numbers are in the range of their slots,
but for names of addresses in a page offset: those are on the page of the instruction behind, unless
the program moves. A number that is not so is an error of its statement, in any source text. -/
theorem admits_of_assemble (hint source : String) :
    (∀ program, assemble hint source = .ok program → ∀ encoded ∈ program.statements,
      ∀ field ∈ encoded.statement.content.fields,
        (field.2.kind = .immediate ∨ field.2.kind = .register →
          ∃ value, FixedNumber program.symbols field.2 value) ∧
        ∀ value, FixedNumber program.symbols field.2 value →
          (¬NamesPage field.1 field.2 → field.1.InRange value) ∧
          (NamesPage field.1 field.2 → program.relocatable = false →
            EncodingContext.OnPage encoded.statement.place value)) ∧
    ∀ statement ∈ (Layout.ofSource hint source).statements, ∀ field ∈ statement.content.fields,
      ∀ value, FixedNumber (Layout.ofSource hint source).finalContext.symbols field.2 value →
        ((∃ held, (Layout.ofSource hint source).finalContext.resolve statement.place field.1
            field.2 = .ok held) ↔
          (Layout.ofSource hint source).finalContext.Admits statement.place field.1 field.2
            value) ∧
        (¬(Layout.ofSource hint source).finalContext.Admits statement.place field.1 field.2
            value →
          ∃ errors, assemble hint source = .error errors ∧
            ⟨some statement.line, .meaning, .operand (refusal field.1 field.2)⟩ ∈ errors) := by
  let layout := Layout.ofSource hint source
  have hfails : ∀ statement ∈ layout.statements, ∀ field ∈ statement.content.fields, ∀ error,
      layout.finalContext.resolve statement.place field.1 field.2 = .error error →
        ∃ errors, assemble hint source = .error errors ∧
          ⟨some statement.line, .meaning, .operand error⟩ ∈ errors := by
    intro statement hstatement field hfield error hresolve
    exact Layout.exists_errors_of_encode hstatement
      (Statement.mem_errors_encode.mpr ⟨field, hfield, hresolve⟩)
  constructor
  · intro program hprogram encoded hencoded field hfield
    have hyields : layout.Yields program := yields_of_assemble hprogram
    have hsymbols : layout.finalContext.symbols = program.symbols :=
      congrArg Prod.fst hyields.symbols
    rw [hyields.statements] at hencoded
    obtain ⟨statement, hstatement, rfl⟩ := List.mem_map.mp hencoded
    rw [Statement.statement_encode] at hfield ⊢
    rw [← hsymbols, hyields.relocatable]
    cases hresolve : layout.finalContext.resolve statement.place field.1 field.2 with
    | error error =>
      obtain ⟨errors, herrors, -⟩ := hfails statement hstatement field hfield error hresolve
      cases hprogram.symm.trans herrors
    | ok held =>
      have hresolves := EncodingContext.resolves_of_resolve hresolve
      refine ⟨hresolves.exists_fixedNumber, fun value hnumber => ?_⟩
      have hadmits : layout.finalContext.Admits statement.place field.1 field.2 value := by
        by_contra hrefused
        cases hresolve.symm.trans (EncodingContext.resolve_of_not_admits hnumber hrefused)
      rw [EncodingContext.Admits] at hadmits
      constructor
      · intro hnames
        rwa [if_neg hnames] at hadmits
      · intro hnames hstays
        rw [if_pos hnames] at hadmits
        exact hadmits.resolve_left fun hmoves => Bool.false_ne_true (hstays.symm.trans hmoves)
  · intro statement hstatement field hfield value hnumber
    refine ⟨⟨fun ⟨held, hresolve⟩ => ?_, fun hadmits => ?_⟩, fun hrefused => ?_⟩
    · by_contra hrefused
      cases hresolve.symm.trans (EncodingContext.resolve_of_not_admits hnumber hrefused)
    · obtain ⟨held, hresolve⟩ := EncodingContext.exists_resolve_of_admits hnumber hadmits
      exact ⟨_, hresolve⟩
    · exact hfails statement hstatement field hfield _
        (EncodingContext.resolve_of_not_admits hnumber hrefused)

/-- The lines of a program that adds a named number. -/
def addingLines (value : String) : List String :=
  ["         .ORIG", "N        .EQU    " ++ value, "         ADD     R0,R0,N", "         .END"]

/-- The program that adds the greatest number that fits, and its module. -/
def adding : Build "main" (addingLines "#15") :=
  .ofLines (by decide +kernel)

/-- The greatest number that fits is taken, and the next one is an error of its line. -/
theorem admits_addingLines :
    (∃ program, assemble "main" (Text.unlines (addingLines "#15")) = .ok program ∧
      FixedNumber program.symbols ⟨"N"⟩ 15 ∧ InstructionSet.smallConstant.InRange 15) ∧
    ∃ errors, assemble "main" (Text.unlines (addingLines "#16")) = .error errors ∧
      ⟨some 3, .meaning, .operand (.outOfRange "N" (-16) 15)⟩ ∈ errors := by
  constructor
  · obtain ⟨encoded, hencoded, hfield⟩ : ∃ encoded ∈ adding.program.statements,
        (InstructionSet.smallConstant, ⟨"N"⟩) ∈ encoded.statement.content.fields := by
      decide +kernel
    have hsome : adding.program.symbols.get? "N" = some ⟨15, false, false, false⟩ := by
      decide +kernel
    have hnumber : FixedNumber adding.program.symbols ⟨"N"⟩ 15 :=
      .symbol _ (by decide) hsome rfl rfl rfl
    have hadmits := (admits_of_assemble _ _).1 _ adding.assembled encoded hencoded _ hfield
    exact ⟨_, adding.assembled, hnumber, (hadmits.2 15 hnumber).1 (by decide)⟩
  · have hspec := (admits_of_assemble "main" (Text.unlines (addingLines "#16"))).2
    have hlayout : Layout.ofSource "main" (Text.unlines (addingLines "#16")) =
        (Layout.initial "main").addLines 1 (addingLines "#16") := by
      rw [Layout.ofSource, Text.lines_unlines (by decide +kernel)]
    rw [hlayout] at hspec
    obtain ⟨statement, hstatement, hline, hfield⟩ :
        ∃ statement ∈ ((Layout.initial "main").addLines 1 (addingLines "#16")).statements,
          statement.line = 3 ∧
            (InstructionSet.smallConstant, ⟨"N"⟩) ∈ statement.content.fields := by
      decide +kernel
    have hsome : ((Layout.initial "main").addLines 1
        (addingLines "#16")).finalContext.symbols.get? "N" = some ⟨16, false, false, false⟩ := by
      decide +kernel
    have hnames : ¬NamesPage InstructionSet.smallConstant ⟨"N"⟩ := by decide
    have hwide : ¬InstructionSet.smallConstant.InRange 16 := by decide
    obtain ⟨-, hrefused⟩ := hspec statement hstatement _ hfield 16
      (.symbol _ (by decide) hsome rfl rfl rfl)
    obtain ⟨errors, herrors, hmem⟩ :=
      hrefused (by rwa [EncodingContext.Admits, if_neg hnames])
    rw [hline] at hmem
    exact ⟨errors, herrors, hmem⟩

/-- The lines of a program that loads from a named address beyond memory. -/
def wideLines : List String :=
  ["         .ORIG", "N        .EQU    #100000", "         LD      R0,N", "         .END"]

/-- The program that loads from an address beyond memory, and its module. -/
def wide : Build "main" wideLines :=
  .ofLines (by decide +kernel)

/-- In a program that moves, a number that is no address is cut to a page offset: the load names the
address 160 for 100000. -/
theorem exists_wide_pageOffset :
    ∃ program encoded, assemble "main" (Text.unlines wideLines) = .ok program ∧
      encoded ∈ program.statements ∧
      (OperandSlot.literalPage, ⟨"N"⟩) ∈ encoded.statement.content.fields ∧
      NamesPage .literalPage ⟨"N"⟩ ∧ FixedNumber program.symbols ⟨"N"⟩ 100000 ∧
      ¬(100000 : Int) < addressLimit ∧ encoded.words = [⟨0, 0x20A0, none⟩] := by
  obtain ⟨encoded, hencoded, hfield, hwords⟩ : ∃ encoded ∈ wide.program.statements,
      (OperandSlot.literalPage, ⟨"N"⟩) ∈ encoded.statement.content.fields ∧
        encoded.words = [⟨0, 0x20A0, none⟩] := by
    decide +kernel
  have hsome : wide.program.symbols.get? "N" = some ⟨100000, false, false, false⟩ := by
    decide +kernel
  exact ⟨_, encoded, wide.assembled, hencoded, hfield, by decide,
    .symbol _ (by decide) hsome rfl rfl rfl, by decide, hwords⟩

end PageMachine
