import PageMachine.LinkedImage
import PageMachine.Proofs.AlikeLayouts
import PageMachine.Proofs.Linking
import PageMachine.Proofs.RoundTrip

/-!
# Moving a program and assembling it in place

A program whose origin is left to the linker, moved to a base address, is the program assembled at
that address. Every label lies the base further on in the second, and every other symbol is the
same, so that a word differs exactly in the field that its tag moves. One thing stands apart: a page
offset that is given as a number is counted from the page of the origin, and the two agree on it
only when the base begins a page. Which bases the page checks of the second program allow is not
the question here.
-/

namespace PageMachine

/-- The symbol when its program lies at a base address and no longer moves. -/
def Symbol.settle (base : Nat) (symbol : Symbol) : Symbol :=
  { symbol.shift base with relocatable := false }

/-- The value of a symbol lies further on if it moves. -/
theorem Symbol.value_settle (base : Nat) (symbol : Symbol) :
    (symbol.settle base).value =
      if symbol.relocatable then symbol.value + base else symbol.value := by
  unfold settle shift
  cases symbol.relocatable <;> rfl

/-- Settling does not change whether a symbol is imported. -/
theorem Symbol.imported_settle (base : Nat) (symbol : Symbol) :
    (symbol.settle base).imported = symbol.imported := by
  unfold settle shift
  cases symbol.relocatable <;> rfl

/-- The word when its program lies at a base address and no longer moves. -/
def TaggedWord.settle (base : Word) (word : TaggedWord) : TaggedWord where
  address := ObjectModule.shift base.toNat word.address
  value := ObjectModule.movedWord base.toNat word.relocation word.value
  relocation := none

/-- The import when its program lies at a base address. -/
def ImportSite.settle (base : Word) (site : ImportSite) : ImportSite :=
  { site with address := ObjectModule.shift base.toNat site.address }

/-- Settling allows for all that programs can define. -/
theorem compatible_settle (base : Nat) :
    Compatible base true false fun _ symbol twin => twin = symbol.settle base where
  label := fun name location => by simp [Symbol.settle, Symbol.shift, Symbol.ofValue]
  constant := fun name value => rfl
  imported := fun name => rfl
  copy := by
    rintro name target symbol twin rfl - -
    unfold Symbol.settle Symbol.shift
    cases symbol.relocatable <;> rfl
  value := by
    rintro name symbol twin rfl - hfixed - -
    simp [Symbol.settle, Symbol.shift, hfixed]

/-- Whether a context is that of the program at a base address, when the other is that of the
program before it is moved. -/
structure EncodingContext.Settled (base : Word) (context settled : EncodingContext) : Prop where
  /-- The symbols are settled. -/
  symbols : ∀ name,
    settled.symbols.get? name = (context.symbols.get? name).map (Symbol.settle base.toNat)
  /-- The literals lie further on. -/
  literals : settled.literals = context.literals.setOffset (context.literals.offset + base)
  /-- The origin is the base instead of zero. -/
  origin : context.origin = 0 ∧ settled.origin = base
  /-- The program no longer moves. -/
  relocatable : context.relocatable = true ∧ settled.relocatable = false

namespace EncodingContext.Settled

open BitRange (rest)

variable {base : Word} {context settled : EncodingContext}

/-- What an operand refers to lies further on if it moves. -/
theorem rest_target (hsettled : context.Settled base settled) {operand : Operand}
    {value twinValue : Int} {moves twinMoves : Bool} (htarget : context.Target operand value moves)
    (htwin : settled.Target operand twinValue twinMoves) :
    twinMoves = false ∧
      rest 16 twinValue = rest 16 (if moves then value + base.toNat else value) := by
  cases htarget with
  | symbol symbol hkind hsome himported =>
    cases htwin with
    | symbol twin _ htwinSome =>
      rw [hsettled.symbols, hsome] at htwinSome
      obtain rfl := Option.some.inj htwinSome
      exact ⟨rfl, by rw [Symbol.value_settle]⟩
    | literal _ _ hother => cases hkind.symm.trans hother
  | literal value place hkind hparse hplace =>
    cases htwin with
    | symbol _ hother => cases hkind.symm.trans hother
    | literal twinValue twinPlace _ htwinParse htwinPlace =>
      obtain rfl := Except.ok.inj (hparse.symm.trans htwinParse)
      refine ⟨hsettled.relocatable.2, ?_⟩
      have hshift : twinPlace = place + base := by
        rw [hsettled.literals] at htwinPlace
        obtain ⟨n, hn, rfl⟩ := Option.map_eq_some_iff.mp hplace
        obtain ⟨twin, htwin, rfl⟩ := Option.map_eq_some_iff.mp htwinPlace
        obtain rfl : n = twin := Option.some.inj (hn.symm.trans htwin)
        simp only [LiteralPool.addressAt, LiteralPool.setOffset]
        ac_rfl
      rw [hsettled.relocatable.1, if_pos rfl, hshift]
      apply Int.ofNat_inj.mp
      rw [BitRange.natCast_rest, BitRange.natCast_rest, BitVec.toNat_add]
      simp

/-- What a slot holds in place, from what it held before the move. -/
inductive Holds (base : Word) (slot : OperandSlot) : FieldValue → FieldValue → Prop
  | fixed (value twin : Int) (hrest : rest 16 twin = rest 16 value) :
      Holds base slot (.number value false) (.number twin false)
  | moving (value twin : Int) (hmoving : slot.pageRelative = true ∨ slot.field = .wholeWord)
      (hrest : rest 16 twin = rest 16 (value + base.toNat)) :
      Holds base slot (.number value true) (.number twin false)
  | imported (name : String) : Holds base slot (.imported name) (.imported name)

/-- A reference that moves lies further on, and every other is the same. -/
theorem holds_of_reference (hsettled : context.Settled base settled) {address place : Word}
    {slot : OperandSlot} {operand : Operand} {held twinHeld : FieldValue}
    (hresolves : context.Resolves address slot operand held)
    (htwin : settled.Resolves place slot operand twinHeld)
    (hkind : operand.kind = .symbol ∨ operand.kind = .literal) : Holds base slot held twinHeld := by
  rcases hresolves.target_of_kind hkind with
    ⟨symbol, hsome, himported, hname, rfl⟩ | ⟨value, moves, htarget, rfl, hslot⟩
  · rcases htwin.target_of_kind hkind with ⟨-, -, -, -, rfl⟩ | ⟨_, _, htwinTarget, -, -⟩
    · exact .imported operand.text
    · have htwinSome := hsettled.symbols operand.text
      rw [hsome, Option.map_some] at htwinSome
      have hlocal := htwinTarget.imported_eq_false hname htwinSome
      rw [Symbol.imported_settle, himported] at hlocal
      cases hlocal
  · rcases htwin.target_of_kind hkind with
      ⟨twin, htwinSome, himported, hname, rfl⟩ | ⟨twinValue, twinMoves, htwinTarget, rfl, -⟩
    · rw [hsettled.symbols] at htwinSome
      obtain ⟨symbol, hsome, rfl⟩ := Option.map_eq_some_iff.mp htwinSome
      rw [Symbol.imported_settle, htarget.imported_eq_false hname hsome] at himported
      cases himported
    · obtain ⟨rfl, hrest⟩ := hsettled.rest_target htarget htwinTarget
      cases moves with
      | false => exact .fixed value twinValue hrest
      | true =>
        refine .moving value twinValue ?_ hrest
        rcases hslot with hpage | ⟨-, hfield⟩ | ⟨hfixed, -⟩
        · exact .inl hpage
        · exact .inr hfield
        · cases hfixed

/-- A slot holds the same in place, but for a reference that moves, and for a page offset given as
a number unless the base begins a page. -/
theorem holds_of_resolves (hsettled : context.Settled base settled) {address place : Word}
    {slot : OperandSlot} {operand : Operand} {held twinHeld : FieldValue}
    (hresolves : context.Resolves address slot operand held)
    (htwin : settled.Resolves place slot operand twinHeld)
    (hbase : 512 ∣ base.toNat ∨ ¬(slot.pageRelative = true ∧ operand.kind = .immediate)) :
    Holds base slot held twinHeld := by
  by_cases hkind : operand.kind = .symbol ∨ operand.kind = .literal
  · exact hsettled.holds_of_reference hresolves htwin hkind
  · have horigin : slot.pageRelative = true → operand.kind = .immediate →
        settled.origin &&& 0x1FF = context.origin &&& 0x1FF := by
      intro hoffset hother
      have hpage : 512 ∣ base.toNat := hbase.resolve_right (not_not.mpr ⟨hoffset, hother⟩)
      apply BitVec.eq_of_toNat_eq
      rw [hsettled.origin.1, hsettled.origin.2, toNat_and_offsetMask, toNat_and_offsetMask]
      exact Nat.mod_eq_zero_of_dvd hpage
    obtain ⟨rfl, value, rfl⟩ := hresolves.eq_of_kind htwin hkind horigin
    exact .fixed _ _ rfl

/-- A field takes the low part of a number. -/
theorem orInto_congr {field : BitRange} {word : Word} {value other : Int}
    (hrest : rest 16 value = rest 16 other) :
    field.orInto word value = field.orInto word other := by
  unfold BitRange.orInto
  congr 1
  apply BitRange.place_congr
  rw [← BitRange.rest_rest field.width_le, hrest, BitRange.rest_rest field.width_le]

/-- The word in place is the word moved, without a tag, and its imports lie further on. -/
theorem Holds.word_hold {slot : OperandSlot} {held twinHeld : FieldValue}
    (hholds : Holds base slot held twinHeld) {word : Word}
    (hpage : slot.pageRelative = true → slot.field = .pageOffset)
    (hclear : slot.pageRelative = true ∨ slot.field = .wholeWord → word &&& slot.field.mask = 0)
    {address : Word} {encoding twin : WordEncoding}
    (hencoding : encoding = WordEncoding.hold ⟨word, 0, [], []⟩ address slot.field held)
    (htwin : twin = WordEncoding.hold ⟨word, 0, [], []⟩ (ObjectModule.shift base.toNat address)
      slot.field twinHeld) :
    twin.word = ObjectModule.movedWord base.toNat (Relocation.ofMask encoding.mask) encoding.word ∧
      twin.mask = 0 ∧ twin.imports = encoding.imports.map (ImportSite.settle base) := by
  subst hencoding htwin
  cases hholds with
  | fixed value twin hrest => exact ⟨orInto_congr hrest, rfl, rfl⟩
  | imported name => exact ⟨rfl, rfl, rfl⟩
  | moving value twin hmoving hrest =>
    obtain ⟨tag, htag⟩ : ∃ tag : Relocation, slot.field = tag.field := by
      rcases hmoving with hslot | hfield
      · exact ⟨.pageOffset, hpage hslot⟩
      · exact ⟨.wholeWord, hfield⟩
    have hclear := hclear hmoving
    refine ⟨?_, rfl, rfl⟩
    change slot.field.orInto word twin = ObjectModule.movedWord base.toNat
      (Relocation.ofMask (0 ||| slot.field.mask)) (slot.field.orInto word value)
    rw [orInto_congr hrest, htag, ObjectModule.ofMask_mask]
    rw [htag] at hclear
    exact (ObjectModule.movedWord_orInto tag value base.toNat hclear).symm

end EncodingContext.Settled

/-- Whether a statement gives a page offset as a number. -/
def Content.PageImmediate : Content → Prop
  | .machine definition operands =>
      ∃ pair ∈ definition.operands.zip operands,
        pair.1.pageRelative = true ∧ pair.2.kind = .immediate
  | _ => False

instance : DecidablePred Content.PageImmediate
  | .machine definition operands =>
      inferInstanceAs (Decidable (∃ pair ∈ definition.operands.zip operands, _ ∧ _))
  | .nothing | .data _ | .fill _ | .reserve _ | .unknown => .isFalse id

/-- A last operand that is a page offset given as a number is one of the statement's. -/
theorem Content.pageImmediate_of_last? {content : Content} {word : Word} {slot : OperandSlot}
    {operand : Operand} (hlast : content.last? = some (word, slot, operand))
    (hpage : slot.pageRelative = true) (hkind : operand.kind = .immediate) :
    content.PageImmediate := by
  obtain ⟨pattern, front, hform, -⟩ := last?_eq_some hlast
  cases content with
  | machine definition operands =>
    simp only [form?, Option.some.injEq, Prod.mk.injEq] at hform
    refine ⟨(slot, operand), ?_, hpage, hkind⟩
    rw [hform.2]
    simp
  | fill filled =>
    simp only [form?, Option.some.injEq, Prod.mk.injEq] at hform
    obtain ⟨-, hslot⟩ := List.append_inj' (show [] ++ [_] = _ from hform.2) rfl
    obtain ⟨rfl, -⟩ : OperandSlot.dataWord = slot ∧ filled = operand := by simpa using hslot
    cases hpage
  | nothing => cases hform
  | reserve => cases hform
  | unknown => cases hform
  | data => cases hform

/-- A number of words behind an address, at the base. -/
theorem ObjectModule.shift_ofNat (base : Word) (address : Nat) :
    shift base.toNat (BitVec.ofNat 16 address) = BitVec.ofNat 16 (address + base.toNat) := by
  rw [shift, BitVec.ofInt_natCast, BitVec.ofNat_add]

/-- A statement of the program in place has the words of the statement before the move, moved. -/
theorem Statement.Alike.encode_settled {base : Word} {context settled : EncodingContext}
    (hsettled : context.Settled base settled) {statement twin : Statement}
    (halike : Statement.Alike base.toNat statement twin) (hformed : statement.content.Formed)
    (h : (statement.encode context).errors = []) (htwin : (twin.encode settled).errors = [])
    (hbase : 512 ∣ base.toNat ∨ ¬statement.content.PageImmediate) :
    (twin.encode settled).words = (statement.encode context).words.map (TaggedWord.settle base) ∧
      (twin.encode settled).imports =
        (statement.encode context).imports.map (ImportSite.settle base) := by
  have hcontent := halike.content
  have htwinFormed : twin.content.Formed := by rwa [hcontent]
  cases hlast : statement.content.last? with
  | none =>
    have htwinLast : twin.content.last? = none := by rw [hcontent, hlast]
    rw [encode_of_last?_eq_none hformed hlast, encode_of_last?_eq_none htwinFormed htwinLast]
    refine ⟨?_, rfl⟩
    apply List.ext_getElem (by simp [hcontent])
    intro n _ _
    simp only [List.getElem_mapIdx, List.getElem_map, TaggedWord.settle, ObjectModule.shift_ofNat,
      halike.address, hcontent, Nat.add_right_comm]
    rfl
  | some last =>
    obtain ⟨word, slot, operand⟩ := last
    have htwinLast : twin.content.last? = some (word, slot, operand) := by rw [hcontent, hlast]
    obtain ⟨held, hresolves, hencode⟩ := encode_of_last? hformed hlast h
    obtain ⟨twinHeld, htwinResolves, htwinEncode⟩ := encode_of_last? htwinFormed htwinLast htwin
    have hplace : twin.place = ObjectModule.shift base.toNat statement.place := by
      rw [place, place, ObjectModule.shift_ofNat, halike.address]
    have hpage := hformed.field_eq_pageOffset hlast
    have hclear := hformed.and_mask_eq_zero_of_moving hlast
    have hslot : 512 ∣ base.toNat ∨ ¬(slot.pageRelative = true ∧ operand.kind = .immediate) :=
      hbase.imp_right fun hnone h => hnone (Content.pageImmediate_of_last? hlast h.1 h.2)
    have hholds := hsettled.holds_of_resolves hresolves htwinResolves hslot
    rw [hplace] at htwinEncode
    obtain ⟨hword, hmask, himports⟩ := hholds.word_hold hpage hclear rfl rfl
    rw [hencode, htwinEncode]
    refine ⟨?_, himports⟩
    simp only [finished, hplace, hword, hmask, List.map_cons, List.map_nil, TaggedWord.settle]
    rfl

/-- Whether a program is another one at a base address. -/
structure Program.Settled (base : Word) (program twin : Program) : Prop where
  /-- The segments have the same name. -/
  segmentName : twin.segmentName = program.segmentName
  /-- The words are settled. -/
  words : twin.words = program.words.map (TaggedWord.settle base)
  /-- The imports lie further on. -/
  imports : twin.imports = program.imports.map (ImportSite.settle base)
  /-- The start lies further on. -/
  start : twin.start = ObjectModule.shift base.toNat program.start
  /-- The program can be moved. -/
  relocatable : program.relocatable = true
  /-- The program that can be moved begins at zero. -/
  origin : program.origin = 0
  /-- The program fits in memory at the base. -/
  length : base.toNat + program.length ≤ addressLimit

/-- Whether two layouts are alike, the second being the first at a base address. -/
def Layout.AlikeAt (base : Word) (layout twin : Layout) : Prop :=
  Layout.Alike base.toNat true false (fun _ symbol twin => twin = symbol.settle base.toNat) layout
      twin ∧
    layout.origin = 0 ∧ twin.origin = base ∧ twin.segmentName = layout.segmentName

namespace Layout.AlikeAt

variable {base : Word} {layout twin : Layout} {program twinProgram : Program}

/-- Marking exports and settling do not disturb each other. -/
theorem marked_settle (names : List (Nat × String)) (name : String) (base : Nat)
    (symbol : Symbol) :
    marked names name (symbol.settle base) = (marked names name symbol).settle base := by
  unfold marked Symbol.settle Symbol.shift
  split <;> cases symbol.relocatable <;> rfl

/-- The second program is encoded against what the first is, at the base. -/
theorem context_settled (halike : layout.AlikeAt base twin) (hyields : layout.Yields program)
    (htwin : twin.Yields twinProgram) :
    (layout.context program.symbols).Settled base (twin.context twinProgram.symbols) := by
  obtain ⟨halike, horigin, htwinOrigin, -⟩ := halike
  exact
    { symbols := by
        intro name
        change twinProgram.symbols.get? name = (program.symbols.get? name).map _
        rw [hyields.get?_symbols, htwin.get?_symbols, halike.exports]
        cases hsome : layout.symbols.get? name with
        | none =>
          rw [halike.symbols.get?_eq_none hsome]
          rfl
        | some symbol =>
          obtain ⟨_, htwinSome, rfl⟩ := halike.symbols.exists_twin hsome
          rw [htwinSome]
          exact congrArg some (marked_settle _ _ _ _)
      literals := by
        have hoffset : BitVec.ofNat 16 twin.location = BitVec.ofNat 16 layout.location + base := by
          rw [halike.location, BitVec.ofNat_add, BitVec.ofNat_toNat]
          simp
        simp only [context, pool, LiteralPool.setOffset, halike.literals, hoffset]
      origin := ⟨horigin, htwinOrigin⟩
      relocatable := halike.relocatable }

/-- The statements of the second program have the words and imports of the first, settled. -/
theorem statements_settled (halike : layout.AlikeAt base twin) (hyields : layout.Yields program)
    (htwin : twin.Yields twinProgram) (hsound : layout.Sound)
    (hbase : 512 ∣ base.toNat ∨
      ∀ statement ∈ layout.statements, ¬statement.content.PageImmediate) :
    twinProgram.statements.flatMap EncodedStatement.words =
        (program.statements.flatMap EncodedStatement.words).map (TaggedWord.settle base) ∧
      twinProgram.statements.flatMap EncodedStatement.imports =
        (program.statements.flatMap EncodedStatement.imports).map (ImportSite.settle base) := by
  have hsettled := halike.context_settled hyields htwin
  have hencodes := hyields.encodes
  have htwinEncodes := htwin.encodes
  have hformed := hsound.formed
  rw [hyields.statements, htwin.statements]
  have halikes := halike.1.statements
  generalize layout.statements = statements at *
  generalize twin.statements = twins at *
  induction halikes with
  | nil => exact ⟨rfl, rfl⟩
  | @cons statement twin rest twins hstatement hrest ih =>
    have hown := hstatement.encode_settled hsettled (hformed _ List.mem_cons_self)
      (hencodes _ List.mem_cons_self) (htwinEncodes _ List.mem_cons_self)
      (hbase.imp_right fun h => h _ List.mem_cons_self)
    have hothers := ih
      (hbase.imp_right fun h other hother => h other (List.mem_cons_of_mem _ hother))
      (fun other hother => hencodes other (List.mem_cons_of_mem _ hother))
      (fun other hother => hformed other (List.mem_cons_of_mem _ hother))
      (fun other hother => htwinEncodes other (List.mem_cons_of_mem _ hother))
    simp only [List.map_cons, List.flatMap_cons, List.map_append, hown, hothers, and_self]

/-- The literals of the second program are those of the first, at the base. -/
theorem literalWords_settled (halike : layout.AlikeAt base twin) (hyields : layout.Yields program)
    (htwin : twin.Yields twinProgram) :
    twinProgram.literalWords = program.literalWords.map (TaggedWord.settle base) := by
  have hliterals := (halike.context_settled hyields htwin).literals
  change twin.pool = layout.pool.setOffset (layout.pool.offset + base) at hliterals
  rw [Program.literalWords, Program.literalWords, htwin.literals, hyields.literals, hliterals]
  apply List.ext_getElem (by simp [LiteralPool.toList, LiteralPool.setOffset])
  intro n _ _
  have hplace : layout.pool.offset + base + BitVec.ofNat 16 n =
      ObjectModule.shift base.toNat (layout.pool.offset + BitVec.ofNat 16 n) := by
    simp only [ObjectModule.shift, BitVec.ofInt_natCast, BitVec.ofNat_toNat, BitVec.setWidth_eq]
    ac_rfl
  simp only [LiteralPool.toList, LiteralPool.setOffset, LiteralPool.addressAt, List.getElem_map,
    List.getElem_mapIdx, TaggedWord.settle, hplace]
  rfl

/-- A start that moves with the program lies further on in the second program. -/
theorem start_settled (halike : layout.AlikeAt base twin) (hyields : layout.Yields program)
    (htwin : twin.Yields twinProgram)
    (hstart : layout.start = none ∨ ∃ line operand symbol, layout.start = some (line, operand) ∧
      operand.kind = .symbol ∧ program.symbols.get? operand.text = some symbol ∧
      symbol.relocatable = true) :
    twinProgram.start = ObjectModule.shift base.toNat program.start := by
  have hsymbols := (halike.context_settled hyields htwin).symbols
  obtain ⟨halike, horigin, htwinOrigin, -⟩ := halike
  have hplaced := hyields.start
  have htwinPlaced := htwin.start
  rcases hstart with hnone | ⟨line, operand, symbol, hend, hkind, hsome, hmoves⟩
  · rw [startAddress, halike.start, hnone] at htwinPlaced
    rw [startAddress, hnone] at hplaced
    rw [← Except.ok.inj hplaced, ← Except.ok.inj htwinPlaced, horigin, htwinOrigin]
    simp [ObjectModule.shift]
  · have htwinSome : twinProgram.symbols.get? operand.text = some (symbol.settle base.toNat) := by
      rw [← Option.map_some, ← hsome]
      exact hsymbols operand.text
    obtain ⟨value, hvalue, hplaced, -⟩ := startAddress_spec hend hplaced
    obtain ⟨twinValue, htwinValue, htwinPlaced, -⟩ :=
      startAddress_spec (halike.start.trans hend) htwinPlaced
    obtain ⟨-, rfl⟩ := startValue_of_symbol hkind hsome hvalue
    obtain ⟨-, rfl⟩ := startValue_of_symbol hkind htwinSome htwinValue
    rw [hplaced, htwinPlaced, Symbol.value_settle, if_pos hmoves, ObjectModule.shift,
      BitVec.ofInt_add]

/-- The second program is the first at the base. -/
theorem settled (halike : layout.AlikeAt base twin) (hyields : layout.Yields program)
    (htwin : twin.Yields twinProgram) (hsound : layout.Sound)
    (hbase : 512 ∣ base.toNat ∨
      ∀ statement ∈ layout.statements, ¬statement.content.PageImmediate)
    (hstart : layout.start = none ∨ ∃ line operand symbol, layout.start = some (line, operand) ∧
      operand.kind = .symbol ∧ program.symbols.get? operand.text = some symbol ∧
      symbol.relocatable = true) :
    Program.Settled base program twinProgram := by
  obtain ⟨hwords, himports⟩ := halike.statements_settled hyields htwin hsound hbase
  have hliterals := halike.literalWords_settled hyields htwin
  have hplace := halike.start_settled hyields htwin hstart
  obtain ⟨halike, horigin, htwinOrigin, hname⟩ := halike
  exact
    { segmentName := by rw [htwin.segmentName, hyields.segmentName, hname]
      words := by rw [Program.words, Program.words, hwords, hliterals, List.map_append]
      imports := himports
      start := hplace
      relocatable := hyields.relocatable.trans halike.relocatable.1
      origin := hyields.origin.trans horigin
      length := by
        have hbound := (bounds_of_problems htwin.problems).2.1
        have hliterals := congrArg LiteralPool.size halike.literals
        have hlocation := halike.location
        change twin.location + twin.literals.size ≤ addressLimit at hbound
        change base.toNat + program.length ≤ addressLimit
        rw [hyields.length, horigin]
        change base.toNat + (layout.location + layout.literals.size - 0) ≤ addressLimit
        omega }

end Layout.AlikeAt

namespace Program.Settled

variable {base : Word} {program twin : Program} {module placed : ObjectModule}

/-- The module of a program, moved to the base, has the memory of the program there. -/
theorem memory_shiftBy (hsettled : program.Settled base twin) (hloads : program.LoadsAs module)
    (htwin : twin.LoadsAs placed) : (module.shiftBy base.toNat).memory = placed.memory := by
  apply Memory.ext_get?
  intro address
  obtain ⟨address, rfl⟩ := ObjectModule.exists_shift_eq base.toNat address
  apply Option.ext
  intro value
  rw [ObjectModule.get?_shiftBy, htwin.memory, hsettled.words, Option.map_eq_some_iff]
  constructor
  · rintro ⟨own, hown, rfl⟩
    obtain ⟨word, hword, rfl, rfl⟩ := (hloads.memory _ _).mp hown
    refine ⟨word.settle base, List.mem_map_of_mem hword, rfl, ?_⟩
    rw [hloads.tag?_of_mem hword]
    rfl
  · rintro ⟨_, hmem, haddress, rfl⟩
    obtain ⟨word, hword, rfl⟩ := List.mem_map.mp hmem
    obtain rfl := ObjectModule.shift_inj.mp haddress
    exact ⟨word.value, hloads.get?_of_mem hword, by rw [hloads.tag?_of_mem hword]; rfl⟩

/-- Moving the first module and linking it is linking the second, when neither exports what it
imports. -/
theorem link_eq (hsettled : program.Settled base twin) (hloads : program.LoadsAs module)
    (htwin : twin.LoadsAs placed)
    (hexternal : ∀ site ∈ module.imports, module.exports.get? site.name = none)
    (htwinExternal : ∀ site ∈ placed.imports, placed.exports.get? site.name = none) :
    link [module] (some base) = link [placed] none := by
  have horigin : module.origin = 0 := hloads.origin.trans hsettled.origin
  have hmoves : module.relocatable = true := hloads.relocatable.trans hsettled.relocatable
  have hfirst : module.placeFirst (some base) = .ok (module.shiftBy base.toNat) := by
    have hfits : base.toNat + module.length.toNat ≤ addressLimit := by
      rw [hloads.length]
      exact hsettled.length
    simp only [ObjectModule.placeFirst, hmoves, if_true]
    exact ObjectModule.relocate_eq_ok_iff.mpr ⟨hmoves, hfits, by simp [horigin]⟩
  have himports : (module.shiftBy base.toNat).imports = placed.imports := by
    rw [htwin.imports, hsettled.imports, ← hloads.imports]
    rfl
  have hmoved := module.get?_exports_shiftBy_eq_none base.toNat hexternal
  have hstart : (module.shiftBy base.toNat).start = placed.start := by
    change ObjectModule.shift base.toNat module.start = placed.start
    rw [hloads.start, htwin.start, hsettled.start]
  have hname : (module.shiftBy base.toNat).segmentName = placed.segmentName := by
    change module.segmentName = placed.segmentName
    rw [hloads.segmentName, htwin.segmentName, hsettled.segmentName]
  rw [link_singleton hfirst, link_singleton (show placed.placeFirst none = .ok placed from rfl),
    LinkedImage.ofPlaced_nil hmoved, LinkedImage.ofPlaced_nil htwinExternal, himports,
    hsettled.memory_shiftBy hloads htwin, hstart, hname]

end Program.Settled

/-- Whether two texts, given by their lines, have the same lines but for the first statement, an
origin that is left open in the first text and is the base in the second. -/
inductive OriginGiven (base : Word) : List String → List String → Prop
  | intro (before after : List String) (line placed label : String) (operand : Operand)
      (hbefore : ∀ text ∈ before, SourceLine.isEmptyLine text.toList = true)
      (hline : SourceLine.isEmptyLine line.toList = false)
      (hplaced : SourceLine.isEmptyLine placed.toList = false)
      (hscan : (SourceLine.scan line.toList).2 = some ⟨label, ".ORIG", []⟩)
      (hscanPlaced : (SourceLine.scan placed.toList).2 = some ⟨label, ".ORIG", [operand.text]⟩)
      (hparse : parseConstant operand.text = .ok (base.toNat : Int)) :
      OriginGiven base (before ++ line :: after) (before ++ placed :: after)

namespace Layout

/-- Naming the segment keeps layouts alike. -/
theorem AlikeAt.named {base : Word} {layout twin : Layout} (halike : layout.AlikeAt base twin)
    (label : String) : (layout.named label).AlikeAt base (twin.named label) := by
  unfold Layout.named
  obtain ⟨halike, horigin, htwinOrigin, hname⟩ := halike
  split
  · exact ⟨halike, horigin, htwinOrigin, hname⟩
  · exact ⟨{ halike with }, horigin, htwinOrigin, rfl⟩

/-- A label keeps layouts alike. -/
theorem AlikeAt.labels {base : Word} {layout twin after twinAfter : Layout}
    (halike : layout.AlikeAt base twin) {label : String} (hlabel : layout.Labels label after)
    (htwin : twin.Labels label twinAfter) (hbound : twin.location ≤ addressLimit) :
    after.AlikeAt base twinAfter := by
  obtain ⟨halike, hhead⟩ := halike
  have hlabelled := halike.labels (compatible_settle base.toNat) hlabel htwin hbound
  obtain ⟨symbols, rfl⟩ := hlabel.exists_eq
  obtain ⟨twinSymbols, rfl⟩ := htwin.exists_eq
  exact ⟨hlabelled, hhead⟩

/-- An origin left open and the base as the origin make two beginnings alike. -/
theorem alikeAt_of_places {base : Word} {hint : String} {operand : Operand}
    {placed twinPlaced : Layout}
    (hparse : parseConstant operand.text = .ok (base.toNat : Int))
    (hplace : Places { initial hint with originSeen := true } [] placed)
    (htwin : Places { initial hint with originSeen := true } [operand] twinPlaced) :
    placed.AlikeAt base twinPlaced ∧ twinPlaced.location = base.toNat := by
  cases hplace with
  | given _ _ hoperands => cases hoperands
  | free =>
    cases htwin with
    | free hoperands => cases hoperands
    | given given origin hoperands _ htwinParse =>
      obtain rfl : operand = given := by simpa using hoperands
      have horigin := Int.ofNat_inj.mp (Except.ok.inj (htwinParse.symm.trans hparse))
      obtain rfl : origin = base := BitVec.eq_of_toNat_eq horigin
      have hempty : SymbolTable.empty.Related
          (fun _ symbol twin => twin = symbol.settle origin.toNat) .empty := by
        intro name
        have hnone : SymbolTable.empty.get? name = none := by
          simp [SymbolTable.empty, SymbolTable.get?]
        rw [hnone]
        exact .none
      refine ⟨⟨?_, rfl, rfl, rfl⟩, rfl⟩
      exact
        { symbols := hempty
          literals := rfl
          statements := .nil
          location := (Nat.zero_add _).symm
          originSeen := ⟨rfl, rfl⟩
          relocatable := ⟨rfl, rfl⟩
          start := rfl
          exports := rfl }

/-- Two layouts that begin with the origin, left open in the first and given as the base in the
second, are alike. -/
theorem alikeAt_of_origin {base : Word} {hint label : String} {operand : Operand} {line : Nat}
    {after twinAfter : Layout} {content twinContent : Content}
    (hparse : parseConstant operand.text = .ok (base.toNat : Int))
    (hstep : (initial hint).Step line ⟨label, ".ORIG", []⟩ (some .origin) after content)
    (htwin : (initial hint).Step line ⟨label, ".ORIG", [operand.text]⟩ (some .origin) twinAfter
      twinContent) :
    twinContent = content ∧ content.size = 0 ∧ after.AlikeAt base twinAfter := by
  cases hstep with
  | origin placed _ _ _ hplace hlabel =>
    cases htwin with
    | origin twinPlaced _ _ _ htwinPlace htwinLabel =>
      obtain ⟨halike, hlocation⟩ := alikeAt_of_places hparse hplace htwinPlace
      have hbound : (twinPlaced.named label).location ≤ addressLimit := by
        rw [named_eq]
        exact hlocation.trans_le (Nat.le_of_lt base.isLt)
      exact ⟨rfl, rfl, (halike.named label).labels hlabel htwinLabel hbound⟩

/-- Layouts of lines that differ only in their given origin are alike. -/
theorem alikeAt_of_originGiven {base : Word} {hint : String} {lines placedLines : List String}
    (hgiven : OriginGiven base lines placedLines)
    (h : ((initial hint).addLines 1 lines).errors = [])
    (htwin : ((initial hint).addLines 1 placedLines).errors = [])
    (hbound : ((initial hint).addLines 1 placedLines).location ≤ addressLimit) :
    ((initial hint).addLines 1 lines).AlikeAt base ((initial hint).addLines 1 placedLines) := by
  cases hgiven with
  | intro before after line placed label operand hbefore hline hplaced hscan hscanPlaced hparse =>
    rw [addLines_append, addLines_of_isEmptyLine _ _ hbefore, Layout.addLines] at h htwin hbound ⊢
    rw [addLines_append, addLines_of_isEmptyLine _ _ hbefore, Layout.addLines]
    obtain ⟨first, content, hstep, hpush⟩ :=
      step_of_scan (errors_eq_nil_of_addLines h) hline hscan
    obtain ⟨twinFirst, twinContent, htwinStep, htwinPush⟩ :=
      step_of_scan (errors_eq_nil_of_addLines htwin) hplaced hscanPlaced
    rw [hpush] at h ⊢
    rw [htwinPush] at htwin hbound ⊢
    obtain ⟨rfl, -, halike, hhead⟩ := alikeAt_of_origin hparse hstep htwinStep
    have hseen : (first.push (1 + before.length) line twinContent).originSeen = true :=
      halike.originSeen.1
    have htwinSeen : (twinFirst.push (1 + before.length) placed twinContent).originSeen = true :=
      halike.originSeen.2
    have hpushed := halike.push (1 + before.length) line placed twinContent
      (location_le_of_addLines htwinSeen htwin hbound)
    obtain ⟨-, horigin, -, hname⟩ := head_addLines hseen h
    obtain ⟨-, htwinOrigin, -, htwinName⟩ := head_addLines htwinSeen htwin
    refine ⟨hpushed.addLines (compatible_settle base.toNat) h htwin hbound, ?_⟩
    exact ⟨horigin.trans hhead.1, htwinOrigin.trans hhead.2.1,
      htwinName.trans (hhead.2.2.trans hname.symm)⟩

end Layout

/-- Assembling a program whose origin is left open and moving it gives the same as assembling it at
the address: the image of the words, the start and the segment name there, or, if it has imports,
the failure that one of them is not defined. The start has to move with the program if it is given,
and page offsets given as numbers ask for a base that begins a page. -/
theorem link_moved_eq_link_assembled {hint source placedSource : String} {base : Word}
    {program placedProgram : Program} {module placedModule : ObjectModule}
    (hgiven : OriginGiven base (Text.lines source) (Text.lines placedSource))
    (hprogram : assemble hint source = .ok program)
    (hplacedProgram : assemble hint placedSource = .ok placedProgram)
    (hload : load program.objectText = .ok module)
    (hplacedLoad : load placedProgram.objectText = .ok placedModule)
    (hstart : (Layout.ofSource hint source).start = none ∨
      ∃ line operand symbol, (Layout.ofSource hint source).start = some (line, operand) ∧
        operand.kind = .symbol ∧ program.symbols.get? operand.text = some symbol ∧
        symbol.relocatable = true)
    (hbase : 512 ∣ base.toNat ∨
      ∀ encoded ∈ program.statements, ¬encoded.statement.content.PageImmediate) :
    link [module] (some base) = link [placedModule] none ∧
      ((placedModule.imports = [] ∧ link [module] (some base) =
          .ok ⟨placedModule.memory, placedModule.start, placedModule.segmentName⟩) ∨
        ∃ site ∈ placedModule.imports,
          link [module] (some base) = .error (.undefinedSymbol site.name)) := by
  have hyields := yields_of_assemble hprogram
  have hplacedYields := yields_of_assemble hplacedProgram
  have hsound := Layout.sound_ofSource hyields.errors
  have hplacedSound := Layout.sound_ofSource hplacedYields.errors
  have hloads := loadsAs_of_load hprogram hload
  have hplacedLoads := loadsAs_of_load hplacedProgram hplacedLoad
  have hbound : (Layout.ofSource hint placedSource).location ≤ addressLimit :=
    Nat.le_trans (Nat.le_add_right _ _) (Layout.bounds_of_problems hplacedYields.problems).2.1
  have halike := Layout.alikeAt_of_originGiven hgiven hyields.errors hplacedYields.errors hbound
  have hpages : 512 ∣ base.toNat ∨
      ∀ statement ∈ (Layout.ofSource hint source).statements, ¬statement.content.PageImmediate := by
    refine hbase.imp_right fun hnone statement hstatement => ?_
    rw [hyields.statements] at hnone
    have hencoded := hnone _ (List.mem_map_of_mem hstatement)
    rwa [Statement.statement_encode] at hencoded
  have hsettled := halike.settled hyields hplacedYields hsound hpages hstart
  have hexternal : ∀ site ∈ placedModule.imports, placedModule.exports.get? site.name = none :=
    fun site hsite => hplacedLoads.get?_exports_of_mem_imports hplacedYields hplacedSound hsite
  have hsame := hsettled.link_eq hloads hplacedLoads
    (fun site hsite => hloads.get?_exports_of_mem_imports hyields hsound hsite) hexternal
  refine ⟨hsame, ?_⟩
  rw [hsame]
  exact link_singleton_none hexternal

/-- The lines behind the origin of a program with a literal, a jump, an alias and an address. -/
def jumpingLines : List String :=
  ["Go       LD      R0,=x-2", "         JSR     Go", "Again    .EQU    Go",
    "         .FILL   Again", "         .END    Again"]

/-- The program of `jumpingLines` with its origin left open, and its module. -/
def jumping : Build "main" ("Demo     .ORIG" :: jumpingLines) :=
  .ofLines (by decide +kernel)

/-- The program of `jumpingLines` with its origin given, and its module. -/
def placedJumping : Build "main" ("Demo     .ORIG   x3020" :: jumpingLines) :=
  .ofLines (by decide +kernel)

/-- The texts of `jumping` and `placedJumping` differ in the given origin. -/
theorem originGiven_jumpingLines :
    OriginGiven 0x3020 ("Demo     .ORIG" :: jumpingLines)
      ("Demo     .ORIG   x3020" :: jumpingLines) :=
  .intro [] jumpingLines _ _ "Demo" ⟨"x3020"⟩ (by simp) (by decide +kernel) (by decide +kernel)
    (by decide +kernel) (by decide +kernel) (by decide +kernel)

/-- Moved to an address that begins no page, `jumping` is `placedJumping`: it begins with the load
of the literal on this page, and is started where its label now is. -/
theorem link_jumpingLines :
    ∃ program placedProgram module placedModule image,
      assemble "main" (Text.unlines ("Demo     .ORIG" :: jumpingLines)) = .ok program ∧
      assemble "main" (Text.unlines ("Demo     .ORIG   x3020" :: jumpingLines)) =
        .ok placedProgram ∧
      load program.objectText = .ok module ∧ load placedProgram.objectText = .ok placedModule ∧
      link [module] (some 0x3020) = .ok image ∧ link [placedModule] none = .ok image ∧
      image.memory.get? 0x3020 = some 0x2023 ∧ image.memory.get? 0x3023 = some 0xFFFE ∧
      image.start = 0x3020 ∧ image.segmentName = "Demo  " := by
  have hgiven := originGiven_jumpingLines
  rw [← jumping.lines_eq, ← placedJumping.lines_eq] at hgiven
  have hstart : (Layout.ofSource "main"
      (Text.unlines ("Demo     .ORIG" :: jumpingLines))).start = some (6, ⟨"Again"⟩) := by
    rw [Layout.ofSource, jumping.lines_eq]
    decide +kernel
  obtain ⟨hsame, hlink⟩ := link_moved_eq_link_assembled hgiven jumping.assembled
    placedJumping.assembled jumping.loaded placedJumping.loaded
    (.inr ⟨6, ⟨"Again"⟩, ⟨0, true, false, false⟩, hstart, by decide +kernel, by decide +kernel, rfl⟩)
    (.inr (by decide +kernel))
  have himports : placedJumping.module.imports = [] := by decide +kernel
  rcases hlink with ⟨-, himage⟩ | ⟨site, hsite, -⟩
  · exact ⟨_, _, _, _, _, jumping.assembled, placedJumping.assembled, jumping.loaded,
      placedJumping.loaded, himage, hsame.symm.trans himage, by decide +kernel, by decide +kernel,
      by decide +kernel, by decide +kernel⟩
  · rw [himports] at hsite
    cases hsite

end PageMachine
