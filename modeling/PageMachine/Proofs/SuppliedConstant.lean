import PageMachine.Proofs.AlikeLayouts
import PageMachine.Proofs.Assembled

/-!
# A constant in place of an import

A program that imports a name, and the same program with a constant under that name, go through the
same steps and differ in the slots of that name only: where the first leaves a field to the linker,
the second holds the constant. What the linker puts there afterwards is compared with it bit by bit.
The two agree but for one instruction, the indexed store, whose index slot reaches one bit into the
base register. Nothing is said of programs that the assembler does not accept with the constant.
-/

namespace PageMachine

/-- Whether a symbol stays as it is or is an import of the name, for which there now is a
constant. -/
def Supplies (name : String) (value : Word) (other : String) (symbol twin : Symbol) : Prop :=
  twin = symbol ∨
    other = name ∧ symbol.imported = true ∧ twin = .ofValue (value.toNat : Int) false

/-- Supplying a constant allows for all that programs can define. -/
theorem compatible_supplies (name : String) (value : Word) (moves : Bool) :
    Compatible 0 moves moves (Supplies name value) where
  label := fun _ _ => .inl rfl
  constant := fun _ _ => .inl rfl
  imported := fun _ => .inl rfl
  copy := by
    rintro other target symbol twin (rfl | ⟨-, himported, -⟩) hlocal -
    · exact .inl rfl
    · cases hlocal.symm.trans himported
  value := by
    rintro other symbol twin (rfl | ⟨-, himported, -⟩) hlocal - - -
    · rfl
    · cases hlocal.symm.trans himported

/-- Whether two contexts differ only in that the second has a constant for an import of the
first. -/
structure EncodingContext.Supplied (name : String) (value : Word)
    (context supplied : EncodingContext) : Prop where
  /-- The symbols are the same, but for the constant. -/
  symbols : context.symbols.Related (Supplies name value) supplied.symbols
  /-- The literals are the same. -/
  literals : supplied.literals = context.literals
  /-- The origin is the same. -/
  origin : supplied.origin = context.origin
  /-- The one program moves if the other does. -/
  relocatable : supplied.relocatable = context.relocatable

namespace EncodingContext.Supplied

variable {name : String} {value : Word} {context supplied : EncodingContext}

/-- What an operand refers to stays the same. -/
theorem target (hsupplied : context.Supplied name value supplied) {operand : Operand}
    {own : Int} {moves : Bool} (htarget : context.Target operand own moves) :
    supplied.Target operand own moves := by
  cases htarget with
  | symbol symbol hkind hsome himported =>
    obtain ⟨twin, htwin, rfl | ⟨-, himported', -⟩⟩ := hsupplied.symbols.exists_twin hsome
    · exact .symbol twin hkind htwin himported
    · cases himported.symm.trans himported'
  | literal literal place hkind hparse hplace =>
    rw [← hsupplied.relocatable]
    rw [← hsupplied.literals] at hplace
    exact .literal literal place hkind hparse hplace

/-- What a slot holds with the constant, from what it holds with the import. -/
inductive Fills (name : String) (value : Word) (slot : OperandSlot) :
    FieldValue → FieldValue → Prop
  | same (held : FieldValue) : Fills name value slot held held
  | constant (hrange : slot.pageRelative = true ∨ slot.InRange (value.toNat : Int)) :
      Fills name value slot (.imported name) (.number (value.toNat : Int) false)

/-- A slot with a name or a literal holds the same, unless it holds the constant for the import. -/
theorem fills_of_reference (hsupplied : context.Supplied name value supplied) {address : Word}
    {slot : OperandSlot} {operand : Operand} {held twinHeld : FieldValue}
    (hresolves : context.Resolves address slot operand held)
    (htwin : supplied.Resolves address slot operand twinHeld)
    (hkind : operand.kind = .symbol ∨ operand.kind = .literal) :
    Fills name value slot held twinHeld := by
  rcases hresolves.target_of_kind hkind with
    ⟨symbol, hsome, himported, hname, rfl⟩ | ⟨own, moves, htarget, rfl, -⟩
  · have htwinHeld := htwin.target_of_kind hkind
    obtain ⟨twin, htwinSome, rfl | ⟨rfl, -, rfl⟩⟩ := hsupplied.symbols.exists_twin hsome
    · rcases htwinHeld with ⟨-, -, -, -, rfl⟩ | ⟨_, _, htarget, -, -⟩
      · exact .same _
      · cases (htarget.imported_eq_false hname htwinSome).symm.trans himported
    · have hown : supplied.Target operand (value.toNat : Int) false :=
        .symbol _ hname htwinSome rfl
      rcases htwinHeld with ⟨other, hother, himported', -, -⟩ | ⟨_, _, htarget, rfl, hslot⟩
      · cases (hown.imported_eq_false hname hother).symm.trans himported'
      · obtain ⟨rfl, rfl⟩ := hown.unique htarget
        rcases hslot with hpage | ⟨hmoves, -⟩ | ⟨-, hrange⟩
        · exact .constant (.inl hpage)
        · cases hmoves
        · exact .constant (.inr hrange)
  · obtain rfl := htwin.eq_number_of_target (hsupplied.target htarget)
    exact .same _

/-- A slot holds the same, unless it holds the constant for the import. -/
theorem fills_of_resolves (hsupplied : context.Supplied name value supplied) {address : Word}
    {slot : OperandSlot} {operand : Operand} {held twinHeld : FieldValue}
    (hresolves : context.Resolves address slot operand held)
    (htwin : supplied.Resolves address slot operand twinHeld) :
    Fills name value slot held twinHeld := by
  by_cases hkind : operand.kind = .symbol ∨ operand.kind = .literal
  · exact hsupplied.fills_of_reference hresolves htwin hkind
  · obtain ⟨rfl, -⟩ := hresolves.eq_of_kind htwin hkind fun _ _ => by rw [hsupplied.origin]
    exact .same _

end EncodingContext.Supplied

/-- Whether a statement with the import and the same statement with the constant come out alike:
they have the same words and imports, or the one slot is left open in the first and holds the
constant in the second. -/
inductive EncodedStatement.Supplied (name : String) (value : Word) :
    EncodedStatement → EncodedStatement → Prop
  | same (encoded twin : EncodedStatement) (hwords : twin.words = encoded.words)
      (himports : twin.imports = encoded.imports) : Supplied name value encoded twin
  | filled (encoded twin : EncodedStatement) (word : Word) (slot : OperandSlot)
      (operand : Operand) (hlast : encoded.statement.content.last? = some (word, slot, operand))
      (hrange : slot.pageRelative = true ∨ slot.InRange (value.toNat : Int))
      (hwords : encoded.words = [⟨encoded.statement.place, word, none⟩])
      (himports : encoded.imports = [⟨encoded.statement.place, slot.field, name⟩])
      (htwin : twin.words =
        [⟨encoded.statement.place, slot.field.orInto word (value.toNat : Int), none⟩]) :
      Supplied name value encoded twin

/-- A statement comes out alike with the import and with the constant. -/
theorem Statement.Alike.encode_supplied {name : String} {value : Word}
    {context supplied : EncodingContext} (hsupplied : context.Supplied name value supplied)
    {statement twin : Statement} (halike : Statement.Alike 0 statement twin)
    (hformed : statement.content.Formed) (h : (statement.encode context).errors = [])
    (htwin : (twin.encode supplied).errors = []) :
    EncodedStatement.Supplied name value (statement.encode context) (twin.encode supplied) := by
  have hcontent := halike.content
  have haddress : twin.address = statement.address := halike.address
  have hplace : twin.place = statement.place := congrArg (BitVec.ofNat 16) haddress
  have htwinFormed : twin.content.Formed := by rwa [hcontent]
  cases hlast : statement.content.last? with
  | none =>
    have htwinLast : twin.content.last? = none := by rw [hcontent, hlast]
    rw [encode_of_last?_eq_none hformed hlast, encode_of_last?_eq_none htwinFormed htwinLast,
      hcontent, haddress]
    exact .same _ _ rfl rfl
  | some last =>
    obtain ⟨word, slot, operand⟩ := last
    have htwinLast : twin.content.last? = some (word, slot, operand) := by rw [hcontent, hlast]
    obtain ⟨held, hresolves, hencode⟩ := encode_of_last? hformed hlast h
    obtain ⟨twinHeld, htwinResolves, htwinEncode⟩ := encode_of_last? htwinFormed htwinLast htwin
    rw [hplace] at htwinResolves htwinEncode
    rw [hencode, htwinEncode]
    cases hsupplied.fills_of_resolves hresolves htwinResolves with
    | same =>
      refine .same _ _ ?_ rfl
      simp only [finished, hplace]
    | constant hrange =>
      refine .filled _ _ word slot operand hlast hrange rfl rfl ?_
      simp only [finished, hplace]
      rfl

/-- Whether two texts, given by their lines, have the same lines but for one, which imports a name
in the first text and gives it a constant value in the second. -/
inductive ConstantGiven (name : String) (value : Word) : List String → List String → Prop
  | intro (before after : List String) (line given : String) (operand : Operand)
      (hline : SourceLine.isEmptyLine line.toList = false)
      (hgiven : SourceLine.isEmptyLine given.toList = false)
      (hscan : (SourceLine.scan line.toList).2 = some ⟨"", ".EXT", [name]⟩)
      (hscanGiven : (SourceLine.scan given.toList).2 = some ⟨name, ".EQU", [operand.text]⟩)
      (hkind : operand.kind = .immediate)
      (hparse : parseConstant operand.text = .ok (value.toNat : Int)) :
      ConstantGiven name value (before ++ line :: after) (before ++ given :: after)

namespace Layout

/-- Whether two layouts are alike, the second having a constant for an import of the first. -/
def AlikeWith (name : String) (value : Word) (layout twin : Layout) : Prop :=
  Alike 0 layout.relocatable layout.relocatable (Supplies name value) layout twin ∧
    twin.origin = layout.origin

/-- A layout whose origin is given, with a name imported and with a constant under that name. -/
theorem alikeWith_of_steps {name : String} {value : Word} {layout after twinAfter : Layout}
    {operand : Operand} {line : Nat} {content twinContent : Content}
    (hseen : layout.originSeen = true) (hkind : operand.kind = .immediate)
    (hparse : parseConstant operand.text = .ok (value.toNat : Int))
    (hstep : layout.Step line ⟨"", ".EXT", [name]⟩ (some .imports) after content)
    (htwin : layout.Step line ⟨name, ".EQU", [operand.text]⟩ (some .equate) twinAfter
      twinContent) :
    twinContent = content ∧ after.AlikeWith name value twinAfter := by
  cases hstep with
  | imports symbols _ _ _ hdefine =>
    cases htwin with
    | equate twinSymbols symbol _ hequates htwinDefine =>
      have hdefine : layout.symbols.defineImport name = .ok symbols := by
        obtain ⟨defined, hdefined, hrest⟩ := exists_of_bind_eq_ok hdefine
        obtain rfl : defined = symbols := Except.ok.inj hrest
        exact hdefined
      obtain rfl : symbol = .ofValue (value.toNat : Int) false := by
        cases hequates with
        | copy known _ hoperands hname =>
          obtain rfl : operand = known := by simpa using hoperands
          cases hkind.symm.trans hname
        | constant known own hoperands _ hown =>
          obtain rfl : operand = known := by simpa using hoperands
          rw [Except.ok.inj (hown.symm.trans hparse)]
      have hrefl : layout.symbols.Related (Supplies name value) layout.symbols :=
        .refl (fun _ _ => .inl rfl) layout.symbols
      refine ⟨rfl, ?_, rfl⟩
      exact
        { symbols := hrefl.define (.inr ⟨rfl, rfl, rfl⟩) hdefine htwinDefine
          literals := rfl
          statements := List.forall₂_same.mpr fun _ _ => ⟨rfl, rfl, rfl⟩
          location := rfl
          originSeen := ⟨hseen, hseen⟩
          relocatable := ⟨rfl, rfl⟩
          start := rfl
          exports := rfl }

/-- Layouts of lines that differ only in a name that is imported or has a constant value. -/
theorem alikeWith_of_constantGiven {name : String} {value : Word} {hint : String}
    {lines givenLines : List String} (hgiven : ConstantGiven name value lines givenLines)
    (h : ((initial hint).addLines 1 lines).errors = [])
    (hseen : ((initial hint).addLines 1 lines).originSeen = true)
    (htwin : ((initial hint).addLines 1 givenLines).errors = [])
    (hbound : ((initial hint).addLines 1 givenLines).location ≤ addressLimit) :
    ((initial hint).addLines 1 lines).AlikeWith name value
      ((initial hint).addLines 1 givenLines) := by
  cases hgiven with
  | intro before after line given operand hline hgivenLine hscan hscanGiven hkind hparse =>
    rw [addLines_append, Layout.addLines] at h hseen htwin hbound ⊢
    rw [addLines_append, Layout.addLines]
    generalize (initial hint).addLines 1 before = layout at *
    obtain ⟨first, content, hstep, hpush⟩ :=
      step_of_scan (errors_eq_nil_of_addLines h) hline hscan
    obtain ⟨twinFirst, twinContent, htwinStep, htwinPush⟩ :=
      step_of_scan (errors_eq_nil_of_addLines htwin) hgivenLine hscanGiven
    rw [hpush] at h hseen ⊢
    rw [htwinPush] at htwin hbound ⊢
    have hfirst : layout.originSeen = true := by
      have hbehind := originSeen_of_addLines (by simp [push]) h hseen
      have hdirective : some Directive.imports ≠ some .origin := by decide
      exact (hstep.head_eq hdirective).2.1.symm.trans hbehind
    obtain ⟨rfl, halike, horigin⟩ := alikeWith_of_steps hfirst hkind hparse hstep htwinStep
    have hpushedSeen : (first.push (1 + before.length) line twinContent).originSeen = true :=
      halike.originSeen.1
    have htwinSeen : (twinFirst.push (1 + before.length) given twinContent).originSeen = true :=
      halike.originSeen.2
    have hpushed := halike.push (1 + before.length) line given twinContent
      (location_le_of_addLines htwinSeen htwin hbound)
    obtain ⟨-, hkeptOrigin, hkeptMoves, -⟩ := head_addLines hpushedSeen h
    obtain ⟨-, htwinOrigin, -, -⟩ := head_addLines htwinSeen htwin
    refine ⟨?_, htwinOrigin.trans (horigin.trans hkeptOrigin.symm)⟩
    rw [hkeptMoves]
    exact hpushed.addLines (compatible_supplies name value first.relocatable) h htwin hbound

end Layout

namespace Layout.AlikeWith

variable {name : String} {value : Word} {layout twin : Layout} {program twinProgram : Program}

/-- The program with the constant is encoded against what the program with the import is, and
against the constant. -/
theorem context_supplied (halike : layout.AlikeWith name value twin)
    (hyields : layout.Yields program) (htwin : twin.Yields twinProgram) :
    (layout.context program.symbols).Supplied name value (twin.context twinProgram.symbols) := by
  obtain ⟨halike, horigin⟩ := halike
  exact
    { symbols := by
        intro other
        change Option.Rel _ (program.symbols.get? other) (twinProgram.symbols.get? other)
        rw [hyields.get?_symbols, htwin.get?_symbols, halike.exports]
        cases hsome : layout.symbols.get? other with
        | none =>
          rw [halike.symbols.get?_eq_none hsome]
          exact .none
        | some symbol =>
          obtain ⟨twinSymbol, htwinSome, hsupplies⟩ := halike.symbols.exists_twin hsome
          rw [htwinSome]
          refine .some ?_
          rcases hsupplies with rfl | ⟨rfl, himported, rfl⟩
          · exact .inl rfl
          · have hkept : other ∉ layout.exports.map Prod.snd := fun hmem =>
              nomatch (hyields.imported_eq_false hmem hsome).symm.trans himported
            rw [marked, marked, if_neg hkept, if_neg hkept]
            exact .inr ⟨rfl, himported, rfl⟩
      literals := by
        change twin.pool = layout.pool
        have hlocation : twin.location = layout.location := halike.location
        simp only [pool, halike.literals, hlocation]
      origin := horigin
      relocatable := halike.relocatable.2 }

/-- Each statement with the import comes out alike with the constant. -/
theorem exists_supplied (halike : layout.AlikeWith name value twin)
    (hyields : layout.Yields program) (htwin : twin.Yields twinProgram) (hsound : layout.Sound)
    {encoded : EncodedStatement} (hencoded : encoded ∈ program.statements) :
    encoded.statement.content.Formed ∧ ∃ other ∈ twinProgram.statements,
      EncodedStatement.Supplied name value encoded other := by
  rw [hyields.statements] at hencoded
  obtain ⟨statement, hstatement, rfl⟩ := List.mem_map.mp hencoded
  obtain ⟨other, hother, hstatements⟩ := halike.1.exists_statement hstatement
  have hformed := hsound.formed statement hstatement
  rw [htwin.statements, Statement.statement_encode]
  exact ⟨hformed, _, List.mem_map_of_mem hother,
    hstatements.encode_supplied (halike.context_supplied hyields htwin) hformed
      (hyields.encodes statement hstatement) (htwin.encodes other hother)⟩

/-- The literals are the same with the import and with the constant. -/
theorem literalWords_eq (halike : layout.AlikeWith name value twin)
    (hyields : layout.Yields program) (htwin : twin.Yields twinProgram) :
    twinProgram.literalWords = program.literalWords := by
  have hliterals : twin.pool = layout.pool := (halike.context_supplied hyields htwin).literals
  rw [Program.literalWords, Program.literalWords, htwin.literals, hyields.literals, hliterals]

end Layout.AlikeWith

end PageMachine
