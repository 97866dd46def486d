import PageMachine.Proofs.BitField
import PageMachine.Proofs.SoundLayout

/-!
# How a statement becomes words

`Resolves` says, once for all, what an operand without an error puts into its slot, and from what.
All operands of an instruction but the last are registers, so that everything the symbols, the
literals and the place of a program can change lies in the last slot: a word is its registers,
which are the same in every context, with one value held by that slot. The errors of statements
that cannot be encoded are left out.
-/

namespace PageMachine

open Record (FitsLine)

namespace EncodingContext

/-- The address or constant that an operand refers to, and whether it moves with the program. -/
inductive Target (context : EncodingContext) (operand : Operand) : Int → Bool → Prop
  | symbol (symbol : Symbol) (hkind : operand.kind = .symbol)
      (hsome : context.symbols.get? operand.text = some symbol)
      (himported : symbol.imported = false) :
      Target context operand symbol.value symbol.relocatable
  | literal (value place : Word) (hkind : operand.kind = .literal)
      (hparse : parseLiteral operand.text = .ok value)
      (hplace : context.literals.addressOf? value = some place) :
      Target context operand place.toNat context.relocatable

/-- What an operand without an error puts into its slot. -/
inductive Resolves (context : EncodingContext) (address : Word) (slot : OperandSlot)
    (operand : Operand) : FieldValue → Prop
  | constant (value : Int) (hkind : operand.kind = .immediate)
      (hparse : parseConstant operand.text = .ok value) (hrange : slot.InRange value)
      (hpage : slot.pageRelative = false) :
      Resolves context address slot operand (.number value false)
  | offset (value : Int) (hkind : operand.kind = .immediate)
      (hparse : parseConstant operand.text = .ok value) (hrange : slot.InRange value)
      (hpage : slot.pageRelative = true) :
      Resolves context address slot operand
        (.number (value - (context.origin &&& 0x1FF).toNat) false)
  | register (value : Int) (hkind : operand.kind = .register)
      (hparse : parseRegister operand.text = .ok value) (hrange : slot.InRange value) :
      Resolves context address slot operand (.number value false)
  | imported (symbol : Symbol) (hkind : operand.kind = .symbol)
      (hsome : context.symbols.get? operand.text = some symbol)
      (himported : symbol.imported = true) :
      Resolves context address slot operand (.imported operand.text)
  | onPage (value : Int) (moves : Bool) (htarget : context.Target operand value moves)
      (hpage : slot.pageRelative = true)
      (hplace : context.relocatable = true ∨ OnPage address value) :
      Resolves context address slot operand (.number value moves)
  | moving (value : Int) (htarget : context.Target operand value true)
      (hpage : slot.pageRelative = false) (hfield : slot.field = .wholeWord) :
      Resolves context address slot operand (.number value true)
  | fixed (value : Int) (htarget : context.Target operand value false)
      (hpage : slot.pageRelative = false) (hrange : slot.InRange value) :
      Resolves context address slot operand (.number value false)

/-- Only names and literals refer to something. -/
theorem Target.kind_eq {context : EncodingContext} {operand : Operand} {value : Int} {moves : Bool}
    (h : context.Target operand value moves) :
    operand.kind = .symbol ∨ operand.kind = .literal := by
  cases h with
  | symbol _ hkind => exact .inl hkind
  | literal _ _ hkind => exact .inr hkind

/-- A register resolves to its number. -/
theorem Resolves.register_of_kind {context : EncodingContext} {address : Word} {slot : OperandSlot}
    {operand : Operand} {held : FieldValue} (h : context.Resolves address slot operand held)
    (hkind : operand.kind = .register) :
    ∃ value, parseRegister operand.text = .ok value ∧ slot.InRange value ∧
      held = .number value false := by
  cases h with
  | register value _ hparse hrange => exact ⟨value, hparse, hrange, rfl⟩
  | constant _ hother => cases hkind.symm.trans hother
  | offset _ hother => cases hkind.symm.trans hother
  | imported _ hother => cases hkind.symm.trans hother
  | onPage _ _ htarget => exact absurd htarget.kind_eq (by simp [hkind])
  | moving _ htarget => exact absurd htarget.kind_eq (by simp [hkind])
  | fixed _ htarget => exact absurd htarget.kind_eq (by simp [hkind])

/-- A constant resolves to its number, counted from the page of the origin in a page offset. -/
theorem Resolves.constant_of_kind {context : EncodingContext} {address : Word} {slot : OperandSlot}
    {operand : Operand} {held : FieldValue} (h : context.Resolves address slot operand held)
    (hkind : operand.kind = .immediate) :
    ∃ value, parseConstant operand.text = .ok value ∧
      (slot.pageRelative = false ∧ held = .number value false ∨
        slot.pageRelative = true ∧
          held = .number (value - (context.origin &&& 0x1FF).toNat) false) := by
  cases h with
  | constant value _ hparse _ hpage => exact ⟨value, hparse, .inl ⟨hpage, rfl⟩⟩
  | offset value _ hparse _ hpage => exact ⟨value, hparse, .inr ⟨hpage, rfl⟩⟩
  | register _ hother => cases hkind.symm.trans hother
  | imported _ hother => cases hkind.symm.trans hother
  | onPage _ _ htarget => exact absurd htarget.kind_eq (by simp [hkind])
  | moving _ htarget => exact absurd htarget.kind_eq (by simp [hkind])
  | fixed _ htarget => exact absurd htarget.kind_eq (by simp [hkind])

/-- A name or a literal resolves to what it refers to, unless it is imported. -/
theorem Resolves.target_of_kind {context : EncodingContext} {address : Word} {slot : OperandSlot}
    {operand : Operand} {held : FieldValue} (h : context.Resolves address slot operand held)
    (hkind : operand.kind = .symbol ∨ operand.kind = .literal) :
    (∃ symbol, context.symbols.get? operand.text = some symbol ∧ symbol.imported = true ∧
        operand.kind = .symbol ∧ held = .imported operand.text) ∨
      ∃ value moves, context.Target operand value moves ∧ held = .number value moves ∧
        (slot.pageRelative = true ∨ moves = true ∧ slot.field = .wholeWord ∨
          moves = false ∧ slot.InRange value) := by
  cases h with
  | constant _ hother => simp [hother] at hkind
  | offset _ hother => simp [hother] at hkind
  | register _ hother => simp [hother] at hkind
  | imported symbol hname hsome himported => exact .inl ⟨symbol, hsome, himported, hname, rfl⟩
  | onPage value moves htarget hpage => exact .inr ⟨value, moves, htarget, rfl, .inl hpage⟩
  | moving value htarget _ hfield =>
    exact .inr ⟨value, true, htarget, rfl, .inr (.inl ⟨rfl, hfield⟩)⟩
  | fixed value htarget _ hrange =>
    exact .inr ⟨value, false, htarget, rfl, .inr (.inr ⟨rfl, hrange⟩)⟩

/-- What an operand refers to is not imported. -/
theorem Target.imported_eq_false {context : EncodingContext} {operand : Operand} {value : Int}
    {moves : Bool} (h : context.Target operand value moves) (hkind : operand.kind = .symbol)
    {symbol : Symbol} (hsome : context.symbols.get? operand.text = some symbol) :
    symbol.imported = false := by
  cases h with
  | symbol known _ hknown himported =>
    obtain rfl := Option.some.inj (hsome.symm.trans hknown)
    exact himported
  | literal _ _ hother => cases hkind.symm.trans hother

/-- An operand refers to one thing only. -/
theorem Target.unique {context : EncodingContext} {operand : Operand} {value other : Int}
    {moves otherMoves : Bool} (h : context.Target operand value moves)
    (hother : context.Target operand other otherMoves) : other = value ∧ otherMoves = moves := by
  cases h with
  | symbol symbol hkind hsome =>
    cases hother with
    | symbol _ _ hsome' =>
      obtain rfl := Option.some.inj (hsome.symm.trans hsome')
      exact ⟨rfl, rfl⟩
    | literal _ _ hkind' => cases hkind.symm.trans hkind'
  | literal literal place hkind hparse hplace =>
    cases hother with
    | symbol _ hkind' => cases hkind.symm.trans hkind'
    | literal _ _ _ hparse' hplace' =>
      obtain rfl := Except.ok.inj (hparse.symm.trans hparse')
      obtain rfl := Option.some.inj (hplace.symm.trans hplace')
      exact ⟨rfl, rfl⟩

/-- An operand that refers to something resolves to it. -/
theorem Resolves.eq_number_of_target {context : EncodingContext} {address : Word}
    {slot : OperandSlot} {operand : Operand} {held : FieldValue} {value : Int} {moves : Bool}
    (h : context.Resolves address slot operand held)
    (htarget : context.Target operand value moves) : held = .number value moves := by
  rcases h.target_of_kind htarget.kind_eq with
    ⟨symbol, hsome, himported, hkind, -⟩ | ⟨other, otherMoves, hother, rfl, -⟩
  · cases (htarget.imported_eq_false hkind hsome).symm.trans himported
  · obtain ⟨rfl, rfl⟩ := htarget.unique hother
    rfl

/-- A quoted text does not resolve. -/
theorem Resolves.kind_ne_string {context : EncodingContext} {address : Word} {slot : OperandSlot}
    {operand : Operand} {held : FieldValue} (h : context.Resolves address slot operand held) :
    operand.kind ≠ .string := by
  intro hkind
  cases h with
  | constant _ hother => cases hkind.symm.trans hother
  | offset _ hother => cases hkind.symm.trans hother
  | register _ hother => cases hkind.symm.trans hother
  | imported _ hother => cases hkind.symm.trans hother
  | onPage _ _ htarget => exact absurd htarget.kind_eq (by simp [hkind])
  | moving _ htarget => exact absurd htarget.kind_eq (by simp [hkind])
  | fixed _ htarget => exact absurd htarget.kind_eq (by simp [hkind])

/-- An operand that refers to nothing resolves to the same number in every context that counts page
offsets from the same place. -/
theorem Resolves.eq_of_kind {context twin : EncodingContext} {address place : Word}
    {slot : OperandSlot} {operand : Operand} {held twinHeld : FieldValue}
    (h : context.Resolves address slot operand held)
    (htwin : twin.Resolves place slot operand twinHeld)
    (hkind : ¬(operand.kind = .symbol ∨ operand.kind = .literal))
    (horigin : slot.pageRelative = true → operand.kind = .immediate →
      twin.origin &&& 0x1FF = context.origin &&& 0x1FF) :
    twinHeld = held ∧ ∃ value, held = .number value false := by
  cases hother : operand.kind with
  | string => exact absurd hother h.kind_ne_string
  | symbol => exact absurd (.inl hother) hkind
  | literal => exact absurd (.inr hother) hkind
  | register =>
    obtain ⟨value, hparse, -, rfl⟩ := h.register_of_kind hother
    obtain ⟨_, htwinParse, -, rfl⟩ := htwin.register_of_kind hother
    obtain rfl := Except.ok.inj (hparse.symm.trans htwinParse)
    exact ⟨rfl, value, rfl⟩
  | immediate =>
    obtain ⟨value, hparse, hheld⟩ := h.constant_of_kind hother
    obtain ⟨_, htwinParse, htwinHeld⟩ := htwin.constant_of_kind hother
    obtain rfl := Except.ok.inj (hparse.symm.trans htwinParse)
    rcases hheld with ⟨hfixed, rfl⟩ | ⟨hoffset, rfl⟩
    · rcases htwinHeld with ⟨-, rfl⟩ | ⟨hoffset, -⟩
      · exact ⟨rfl, value, rfl⟩
      · cases hfixed.symm.trans hoffset
    · rcases htwinHeld with ⟨hfixed, -⟩ | ⟨-, rfl⟩
      · cases hfixed.symm.trans hoffset
      · rw [horigin hoffset hother]
        exact ⟨rfl, _, rfl⟩

/-- A number that passes its check is in range. -/
theorem inRange_of_check {slot : OperandSlot} {text : String} {value : Int} {checked : Unit}
    (h : slot.check text value = .ok checked) : slot.InRange value := by
  unfold OperandSlot.check at h
  split at h
  · assumption
  · cases h

/-- A reference without an error is on its page, moves as a whole word, or is in range. -/
theorem resolves_of_refer {context : EncodingContext} {address : Word} {slot : OperandSlot}
    {operand : Operand} {value : Int} {moves : Bool} {offPage moving : OperandError}
    {held : FieldValue} (htarget : context.Target operand value moves)
    (h : context.refer address slot operand.text value moves offPage moving = .ok held) :
    context.Resolves address slot operand held := by
  unfold refer at h
  split at h
  · rename_i hpage
    split at h
    · rename_i hplace
      obtain rfl := Except.ok.inj h
      exact .onPage value moves htarget hpage hplace
    · cases h
  · rename_i hpage
    have hpage : slot.pageRelative = false := by simpa using hpage
    cases moves with
    | true =>
      rw [if_pos rfl] at h
      split at h
      · rename_i hfield
        obtain rfl := Except.ok.inj h
        exact .moving value htarget hpage hfield
      · cases h
    | false =>
      rw [if_neg Bool.false_ne_true] at h
      obtain ⟨_, hcheck, h⟩ := exists_of_bind_eq_ok h
      obtain rfl := Except.ok.inj h
      exact .fixed value htarget hpage (inRange_of_check hcheck)

/-- An operand that resolves does so in one of the ways listed. -/
theorem resolves_of_resolve {context : EncodingContext} {address : Word} {slot : OperandSlot}
    {operand : Operand} {held : FieldValue}
    (h : context.resolve address slot operand = .ok held) :
    context.Resolves address slot operand held := by
  unfold resolve at h
  dsimp only at h
  split at h
  · rename_i hkind
    obtain ⟨value, hparse, h⟩ := exists_of_bind_eq_ok h
    obtain ⟨_, hcheck, h⟩ := exists_of_bind_eq_ok h
    split at h
    · rename_i hpage
      obtain rfl := Except.ok.inj h
      exact .offset value hkind hparse (inRange_of_check hcheck) hpage
    · rename_i hpage
      obtain rfl := Except.ok.inj h
      exact .constant value hkind hparse (inRange_of_check hcheck) (by simpa using hpage)
  · rename_i hkind
    obtain ⟨value, hparse, h⟩ := exists_of_bind_eq_ok h
    obtain ⟨_, hcheck, h⟩ := exists_of_bind_eq_ok h
    obtain rfl := Except.ok.inj h
    exact .register value hkind hparse (inRange_of_check hcheck)
  · rename_i hkind
    obtain ⟨value, hparse, h⟩ := exists_of_bind_eq_ok h
    split at h
    · cases h
    · rename_i place hplace
      exact resolves_of_refer (.literal value place hkind hparse hplace) h
  · rename_i hkind
    split at h
    · cases h
    · rename_i symbol hsome
      split at h
      · rename_i himported
        obtain rfl := Except.ok.inj h
        exact .imported symbol hkind hsome himported
      · rename_i himported
        exact resolves_of_refer (.symbol symbol hkind hsome (by simpa using himported)) h
  · cases h

end EncodingContext

/-- The number of a register operand. -/
def Operand.registerNumber (operand : Operand) : Int :=
  (parseRegister operand.text).toOption.getD 0

/-- A word with register operands put into their slots. -/
def registerWord (word : Word) (pairs : List (OperandSlot × Operand)) : Word :=
  pairs.foldl (fun word pair => pair.1.field.orInto word pair.2.registerNumber) word

namespace WordEncoding

/-- A word in the making whose slot holds a value. -/
def hold (encoding : WordEncoding) (address : Word) (field : BitRange) :
    FieldValue → WordEncoding
  | .number value moves =>
      { encoding with
        word := field.orInto encoding.word value
        mask := if moves then encoding.mask ||| field.mask else encoding.mask }
  | .imported name => { encoding with imports := encoding.imports ++ [⟨address, field, name⟩] }

/-- Put paired operands into their slots. -/
def putPairs (context : EncodingContext) (address : Word) (encoding : WordEncoding)
    (pairs : List (OperandSlot × Operand)) : WordEncoding :=
  pairs.foldl (fun encoding pair => encoding.put context address pair.1 pair.2) encoding

/-- Operands are put into the slots with which they are paired. -/
theorem putAll_eq_putPairs (context : EncodingContext) (address : Word) (encoding : WordEncoding)
    (slots : List OperandSlot) (operands : List Operand) :
    encoding.putAll context address slots operands =
      encoding.putPairs context address (slots.zip operands) := by
  induction slots generalizing encoding operands with
  | nil => simp [putAll, putPairs]
  | cons slot slots ih =>
    cases operands with
    | nil => simp [putAll, putPairs]
    | cons operand operands =>
      rw [putAll, ih]
      rfl

/-- An operand that leaves no error resolves, and its slot holds the value. -/
theorem put_eq_hold {context : EncodingContext} {address : Word} {encoding : WordEncoding}
    {slot : OperandSlot} {operand : Operand}
    (h : (encoding.put context address slot operand).errors = []) :
    encoding.errors = [] ∧ ∃ value, context.Resolves address slot operand value ∧
      encoding.put context address slot operand = encoding.hold address slot.field value := by
  unfold put at h ⊢
  cases hresolve : context.resolve address slot operand with
  | error error => simp [hresolve] at h
  | ok value =>
    rw [hresolve] at h
    have hresolves := EncodingContext.resolves_of_resolve hresolve
    cases value with
    | number value moves => exact ⟨h, _, hresolves, rfl⟩
    | imported name => exact ⟨h, _, hresolves, rfl⟩

/-- A register holds the same number in every context. -/
theorem put_register {context : EncodingContext} {address : Word} {encoding : WordEncoding}
    {slot : OperandSlot} {operand : Operand} (hkind : operand.kind = .register)
    (h : (encoding.put context address slot operand).errors = []) :
    encoding.errors = [] ∧ ∀ (other : EncodingContext) (place : Word) (start : WordEncoding),
      start.put other place slot operand =
        { start with word := slot.field.orInto start.word operand.registerNumber } := by
  have hput : ∀ (other : EncodingContext) (place : Word) (start : WordEncoding) (value : Int),
      parseRegister operand.text = .ok value → slot.InRange value →
      start.put other place slot operand =
        { start with word := slot.field.orInto start.word operand.registerNumber } := by
    intro other place start value hparse hrange
    have hresolve : other.resolve place slot operand = .ok (.number value false) := by
      simp [EncodingContext.resolve, hkind, hparse, OperandSlot.check, hrange, bind, Except.bind,
        pure, Except.pure]
    simp [put, hresolve, Operand.registerNumber, hparse, Except.toOption]
  obtain ⟨hclean, held, hresolves, -⟩ := put_eq_hold h
  obtain ⟨value, hparse, hrange, -⟩ := hresolves.register_of_kind hkind
  exact ⟨hclean, fun other place start => hput other place start value hparse hrange⟩

/-- Registers fill a word in the same way in every context. -/
theorem putPairs_registers {context : EncodingContext} {address : Word}
    {encoding : WordEncoding} {pairs : List (OperandSlot × Operand)}
    (hkinds : ∀ pair ∈ pairs, pair.2.kind = .register)
    (h : (encoding.putPairs context address pairs).errors = []) :
    encoding.errors = [] ∧ ∀ (other : EncodingContext) (place : Word) (start : WordEncoding),
      start.putPairs other place pairs = { start with word := registerWord start.word pairs } := by
  induction pairs generalizing encoding with
  | nil => exact ⟨h, fun _ _ _ => rfl⟩
  | cons pair rest ih =>
    obtain ⟨hfirst, hrest⟩ :=
      ih (fun other hother => hkinds other (List.mem_cons_of_mem _ hother)) h
    obtain ⟨hclean, hput⟩ := put_register (hkinds pair List.mem_cons_self) hfirst
    refine ⟨hclean, fun other place start => ?_⟩
    change (start.put other place pair.1 pair.2).putPairs other place rest = _
    rw [hrest, hput]
    rfl

end WordEncoding

namespace InstructionSet

/-- Whether a field shares no bits with a definition's pattern and the slots before the last. -/
def Apart (definition : InstructionDefinition) (field : BitRange) : Prop :=
  definition.pattern &&& field.mask = 0 ∧
    ∀ slot ∈ definition.operands.dropLast, slot.field.mask &&& field.mask = 0

instance (definition : InstructionDefinition) (field : BitRange) :
    Decidable (Apart definition field) :=
  inferInstanceAs (Decidable (_ ∧ _))

/-- All operands but the last are registers. -/
theorem accepted_of_mem_table : ∀ definition ∈ table, ∀ slot ∈ definition.operands.dropLast,
    slot.accepted = [.register] := by
  decide

/-- The last slot holds a page offset if it is page relative. -/
theorem field_of_mem_table : ∀ definition ∈ table, ∀ slot ∈ definition.operands.getLast?.toList,
    slot.pageRelative = true → slot.field = .pageOffset := by
  decide

/-- The slot of the index of a store, which reaches one bit into the base register. -/
def storeIndex : OperandSlot :=
  .index ((BitRange.ofBounds? 6 0).get rfl)

/-- The store that takes a base register and an index. -/
def indexedStore : InstructionDefinition :=
  ⟨"STR", 0x7000, [target, source, storeIndex]⟩

/-- The last slot is apart from the rest of the word, except for the index of a store. -/
theorem apart_of_mem_table : ∀ definition ∈ table, ∀ slot ∈ definition.operands.getLast?.toList,
    Apart definition slot.field ∨ definition = indexedStore := by
  decide +kernel

end InstructionSet

namespace Content

/-- The pattern of a content that is one word, and its slots with their operands. -/
def form? : Content → Option (Word × List (OperandSlot × Operand))
  | .machine definition operands => some (definition.pattern, definition.operands.zip operands)
  | .fill operand => some (0, [(.dataWord, operand)])
  | .nothing | .reserve _ | .unknown | .data _ => none

/-- The word that the operands before the last make, and the last with its slot. -/
def last? (content : Content) : Option (Word × OperandSlot × Operand) :=
  content.form?.bind fun (pattern, pairs) =>
    pairs.getLast?.map fun pair => (registerWord pattern pairs.dropLast, pair)

/-- The words of a content without operands. -/
def ownWords : Content → List Word
  | .data words => words
  | .machine definition _ => [definition.pattern]
  | .nothing | .reserve _ | .unknown | .fill _ => []

/-- Registers leave the bits of fields apart from theirs. -/
theorem registerWord_and_mask {word : Word} {pairs : List (OperandSlot × Operand)}
    {field : BitRange} (hword : word &&& field.mask = 0)
    (hpairs : ∀ pair ∈ pairs, pair.1.field.mask &&& field.mask = 0) :
    registerWord word pairs &&& field.mask = 0 := by
  induction pairs generalizing word with
  | nil => exact hword
  | cons pair rest ih =>
    refine ih ?_ fun other hother => hpairs other (List.mem_cons_of_mem _ hother)
    have hpair := hpairs pair List.mem_cons_self
    change (word ||| (_ &&& pair.1.field.mask)) &&& field.mask = 0
    rw [BitVec.and_or_distrib_right, hword, BitVec.and_assoc, hpair]
    simp

/-- The operands of a formed content fit their slots, those before the last being registers. -/
theorem Formed.pairs_spec {content : Content} (hformed : content.Formed) {pattern : Word}
    {pairs : List (OperandSlot × Operand)} (hform : content.form? = some (pattern, pairs)) :
    (∀ pair ∈ pairs, pair.1.accepts pair.2.kind = true ∧ FitsLine pair.2.text.toList) ∧
      ∀ pair ∈ pairs.dropLast, pair.2.kind = .register := by
  cases content with
  | machine definition operands =>
    obtain ⟨hmem, hfits, hlines⟩ := hformed
    obtain ⟨rfl, rfl⟩ :
        definition.pattern = pattern ∧ definition.operands.zip operands = pairs := by
      simpa [form?] using hform
    simp only [InstructionDefinition.fits, List.length_map, Bool.and_eq_true, beq_iff_eq,
      List.all_eq_true] at hfits
    obtain ⟨hlength, haccepts⟩ := hfits
    have hpairs : ∀ pair ∈ definition.operands.zip operands,
        pair.1.accepts pair.2.kind = true ∧ FitsLine pair.2.text.toList := by
      intro pair hpair
      refine ⟨?_, hlines _ (List.of_mem_zip hpair).2⟩
      refine haccepts (pair.1, pair.2.kind) ?_
      rw [List.zip_map_right]
      exact List.mem_map.mpr ⟨pair, hpair, rfl⟩
    refine ⟨hpairs, fun pair hpair => ?_⟩
    have haccept := (hpairs pair (List.dropLast_subset _ hpair)).1
    have hfirst := List.mem_map_of_mem (f := Prod.fst) hpair
    rw [List.map_dropLast, List.map_fst_zip (Nat.le_of_eq hlength)] at hfirst
    have hslot := InstructionSet.accepted_of_mem_table definition hmem pair.1 hfirst
    simpa [OperandSlot.accepts, hslot] using haccept
  | fill operand =>
    obtain ⟨hkind, hline⟩ := hformed
    obtain ⟨rfl, rfl⟩ : 0 = pattern ∧ [(OperandSlot.dataWord, operand)] = pairs := by
      simpa [form?] using hform
    simp only [List.mem_singleton, forall_eq, List.dropLast_singleton, List.not_mem_nil,
      false_implies, implies_true, and_true]
    refine ⟨?_, hline⟩
    rcases hkind with hkind | hkind <;> simp [OperandSlot.accepts, OperandSlot.dataWord, hkind]
  | nothing => cases hform
  | reserve => cases hform
  | unknown => cases hform
  | data => cases hform

/-- A content's last operand is the last of its pairs. -/
theorem last?_eq_some {content : Content} {word : Word} {slot : OperandSlot} {operand : Operand}
    (h : content.last? = some (word, slot, operand)) :
    ∃ pattern front, content.form? = some (pattern, front ++ [(slot, operand)]) ∧
      word = registerWord pattern front := by
  obtain ⟨⟨pattern, pairs⟩, hform, hlast⟩ := Option.bind_eq_some_iff.mp h
  obtain ⟨pair, hpair, heq⟩ := Option.map_eq_some_iff.mp hlast
  obtain ⟨front, rfl⟩ := List.getLast?_eq_some_iff.mp hpair
  rw [List.dropLast_concat] at heq
  obtain ⟨rfl, rfl⟩ := Prod.mk.inj heq
  exact ⟨pattern, front, hform, rfl⟩

/-- The last operand of a filled word is the only one. -/
theorem fill_last?_eq_some {filled : Operand} {word : Word} {slot : OperandSlot}
    {operand : Operand} (h : (fill filled).last? = some (word, slot, operand)) :
    word = 0 ∧ slot = .dataWord ∧ operand = filled := by
  obtain ⟨rfl, rfl, rfl⟩ : 0 = word ∧ OperandSlot.dataWord = slot ∧ filled = operand := by
    simpa [last?, form?, registerWord] using h
  exact ⟨rfl, rfl, rfl⟩

/-- The slots of an instruction are those of its definition. -/
theorem Formed.slots_eq {definition : InstructionDefinition} {operands : List Operand}
    (hformed : (machine definition operands).Formed) {pattern : Word}
    {front : List (OperandSlot × Operand)} {pair : OperandSlot × Operand}
    (hform : (machine definition operands).form? = some (pattern, front ++ [pair])) :
    definition.pattern = pattern ∧ definition.operands = front.map Prod.fst ++ [pair.1] := by
  obtain ⟨hpattern, hpairs⟩ : definition.pattern = pattern ∧
      definition.operands.zip operands = front ++ [pair] := by
    simpa [form?] using hform
  have hfits := hformed.2.1
  simp only [InstructionDefinition.fits, List.length_map, Bool.and_eq_true, beq_iff_eq] at hfits
  have hslots := congrArg (List.map Prod.fst) hpairs
  rw [List.map_fst_zip (Nat.le_of_eq hfits.1)] at hslots
  exact ⟨hpattern, by simpa using hslots⟩

/-- Whether a content is a store with a base register and an index. -/
def IsIndexedStore : Content → Prop
  | .machine definition _ => definition = InstructionSet.indexedStore
  | _ => False

instance : DecidablePred IsIndexedStore
  | .machine definition _ => inferInstanceAs (Decidable (definition = InstructionSet.indexedStore))
  | .nothing | .data _ | .fill _ | .reserve _ | .unknown => .isFalse id

/-- A last slot that is page relative holds a page offset. -/
theorem Formed.field_eq_pageOffset {content : Content} (hformed : content.Formed) {word : Word}
    {slot : OperandSlot} {operand : Operand} (h : content.last? = some (word, slot, operand))
    (hpage : slot.pageRelative = true) : slot.field = .pageOffset := by
  obtain ⟨pattern, front, hform, rfl⟩ := last?_eq_some h
  cases content with
  | machine definition operands =>
    obtain ⟨-, hslots⟩ := hformed.slots_eq hform
    have hslot : slot ∈ definition.operands.getLast?.toList := by simp [hslots]
    exact InstructionSet.field_of_mem_table definition hformed.1 slot hslot hpage
  | fill filled =>
    obtain ⟨-, rfl, -⟩ := fill_last?_eq_some h
    cases hpage
  | nothing => cases hform
  | reserve => cases hform
  | unknown => cases hform
  | data => cases hform

/-- The last slot has bits of its own, except in an indexed store. -/
theorem Formed.and_mask_eq_zero {content : Content} (hformed : content.Formed) {word : Word}
    {slot : OperandSlot} {operand : Operand} (h : content.last? = some (word, slot, operand))
    (hstore : ¬content.IsIndexedStore) : word &&& slot.field.mask = 0 := by
  obtain ⟨pattern, front, hform, rfl⟩ := last?_eq_some h
  cases content with
  | machine definition operands =>
    obtain ⟨rfl, hslots⟩ := hformed.slots_eq hform
    have hslot : slot ∈ definition.operands.getLast?.toList := by simp [hslots]
    rcases InstructionSet.apart_of_mem_table definition hformed.1 slot hslot with hapart | hindexed
    · refine registerWord_and_mask hapart.1 fun pair hpair => hapart.2 pair.1 ?_
      simpa [hslots] using ⟨pair.2, hpair⟩
    · exact absurd hindexed hstore
  | fill filled =>
    obtain ⟨hword, rfl, -⟩ := fill_last?_eq_some h
    rw [hword]
    rfl
  | nothing => cases hform
  | reserve => cases hform
  | unknown => cases hform
  | data => cases hform

/-- An indexed store is the word of its two registers, and its index is the last operand. -/
theorem Formed.indexedStore_spec {content : Content} (hformed : content.Formed) {word : Word}
    {slot : OperandSlot} {operand : Operand} (h : content.last? = some (word, slot, operand))
    (hstore : content.IsIndexedStore) :
    ∃ stored base, content = .machine InstructionSet.indexedStore [stored, base, operand] ∧
      slot = InstructionSet.storeIndex ∧
      word = registerWord 0x7000
        [(InstructionSet.target, stored), (InstructionSet.source, base)] := by
  cases content with
  | machine definition operands =>
    obtain rfl : definition = InstructionSet.indexedStore := hstore
    have hlength : operands.length = 3 := by
      have hfits := hformed.2.1
      simp only [InstructionDefinition.fits, List.length_map, Bool.and_eq_true,
        beq_iff_eq] at hfits
      exact hfits.1.symm
    obtain ⟨stored, base, index, rfl⟩ := List.length_eq_three.mp hlength
    obtain ⟨rfl, rfl, rfl⟩ : _ = word ∧ InstructionSet.storeIndex = slot ∧ index = operand := by
      simpa [last?, form?, InstructionSet.indexedStore] using h
    exact ⟨stored, base, rfl, rfl, rfl⟩
  | nothing => exact hstore.elim
  | reserve => exact hstore.elim
  | unknown => exact hstore.elim
  | fill => exact hstore.elim
  | data => exact hstore.elim

/-- A slot that holds an address that moves has bits of its own. -/
theorem Formed.and_mask_eq_zero_of_moving {content : Content} (hformed : content.Formed)
    {word : Word} {slot : OperandSlot} {operand : Operand}
    (h : content.last? = some (word, slot, operand))
    (hmoving : slot.pageRelative = true ∨ slot.field = .wholeWord) :
    word &&& slot.field.mask = 0 := by
  refine hformed.and_mask_eq_zero h fun hstore => ?_
  obtain ⟨-, -, -, rfl, -⟩ := hformed.indexedStore_spec h hstore
  revert hmoving
  decide

/-- An operand of an instruction that is no register is the last. -/
theorem Formed.last?_of_mem {definition : InstructionDefinition} {operands : List Operand}
    (hformed : (machine definition operands).Formed) {pair : OperandSlot × Operand}
    (hpair : pair ∈ definition.operands.zip operands) (hkind : pair.2.kind ≠ .register) :
    ∃ word, (machine definition operands).last? = some (word, pair) := by
  have hform : (machine definition operands).form? =
      some (definition.pattern, definition.operands.zip operands) := rfl
  have hregisters := (hformed.pairs_spec hform).2
  rcases List.eq_nil_or_concat (definition.operands.zip operands) with hnil | ⟨front, last, hpairs⟩
  · rw [hnil] at hpair
    cases hpair
  · rw [List.concat_eq_append] at hpairs
    rw [hpairs, List.dropLast_concat] at hregisters
    rw [hpairs, List.mem_append, List.mem_singleton] at hpair
    rcases hpair with hfront | rfl
    · exact absurd (hregisters pair hfront) hkind
    · refine ⟨registerWord definition.pattern front, ?_⟩
      simp [last?, form?, hpairs]

end Content

namespace Statement

/-- A statement that is one word, from the word in the making. -/
def finished (statement : Statement) (encoding : WordEncoding) : EncodedStatement where
  statement := statement
  words := [⟨statement.place, encoding.word, Relocation.ofMask encoding.mask⟩]
  imports := encoding.imports
  errors := encoding.errors

/-- Encoding keeps the statement. -/
@[simp]
theorem statement_encode (context : EncodingContext) (statement : Statement) :
    (statement.encode context).statement = statement := by
  unfold encode
  split <;> rfl

/-- A statement without a last operand has the same words in every context. -/
theorem encode_of_last?_eq_none {statement : Statement} (hformed : statement.content.Formed)
    (hlast : statement.content.last? = none) (context : EncodingContext) :
    statement.encode context =
      { statement := statement
        words := statement.content.ownWords.mapIdx fun n word =>
          ⟨BitVec.ofNat 16 (statement.address + n), word, none⟩
        imports := []
        errors := [] } := by
  obtain ⟨line, source, address, content⟩ := statement
  cases content with
  | machine definition operands =>
    have hpairs : definition.operands.zip operands = [] := by
      simpa [Content.last?, Content.form?] using hlast
    simp [encode, encodeWord, WordEncoding.putAll_eq_putPairs, hpairs, WordEncoding.putPairs,
      WordEncoding.ofPattern, Content.ownWords, place, Relocation.ofMask]
  | fill operand => simp [Content.last?, Content.form?] at hlast
  | unknown => exact hformed.elim
  | nothing => rfl
  | reserve => rfl
  | data => rfl

/-- A statement with a last operand is the word of the operands before it, in which the last slot
holds what the last operand resolves to. -/
theorem encode_of_last? {statement : Statement} (hformed : statement.content.Formed) {word : Word}
    {slot : OperandSlot} {operand : Operand}
    (hlast : statement.content.last? = some (word, slot, operand)) {context : EncodingContext}
    (h : (statement.encode context).errors = []) :
    ∃ held, context.Resolves statement.place slot operand held ∧
      statement.encode context =
        statement.finished
          (WordEncoding.hold ⟨word, 0, [], []⟩ statement.place slot.field held) := by
  obtain ⟨pattern, front, hform, rfl⟩ := Content.last?_eq_some hlast
  have hencode : statement.encode context = statement.finished
      ((WordEncoding.ofPattern pattern).putPairs context statement.place
        (front ++ [(slot, operand)])) := by
    obtain ⟨line, source, address, content⟩ := statement
    cases content with
    | machine definition operands =>
      obtain ⟨rfl, hpairs⟩ : definition.pattern = pattern ∧
          definition.operands.zip operands = front ++ [(slot, operand)] := by
        simpa [Content.form?] using hform
      rw [← hpairs, ← WordEncoding.putAll_eq_putPairs]
      rfl
    | fill filled =>
      obtain ⟨rfl, hpairs⟩ : 0 = pattern ∧
          [(OperandSlot.dataWord, filled)] = front ++ [(slot, operand)] := by
        simpa [Content.form?] using hform
      rw [← hpairs]
      rfl
    | nothing => cases hform
    | reserve => cases hform
    | unknown => cases hform
    | data => cases hform
  have hregisters := (hformed.pairs_spec hform).2
  rw [List.dropLast_concat] at hregisters
  have hsplit : (WordEncoding.ofPattern pattern).putPairs context statement.place
      (front ++ [(slot, operand)]) =
      ((WordEncoding.ofPattern pattern).putPairs context statement.place front).put context
        statement.place slot operand := by
    simp [WordEncoding.putPairs]
  rw [hencode, hsplit] at h ⊢
  obtain ⟨hfront, held, hresolves, hput⟩ := WordEncoding.put_eq_hold (show _ = [] from h)
  have hstart := (WordEncoding.putPairs_registers hregisters hfront).2 context statement.place
    (.ofPattern pattern)
  rw [hput, hstart]
  exact ⟨held, hresolves, rfl⟩

/-- A field that another module fills is the last slot of a statement whose last operand names an
imported symbol. -/
theorem exists_of_mem_imports {statement : Statement} (hformed : statement.content.Formed)
    {context : EncodingContext} (h : (statement.encode context).errors = []) {site : ImportSite}
    (hsite : site ∈ (statement.encode context).imports) :
    ∃ word slot operand symbol, statement.content.last? = some (word, slot, operand) ∧
      site = ⟨statement.place, slot.field, operand.text⟩ ∧
      context.symbols.get? operand.text = some symbol ∧ symbol.imported = true := by
  cases hlast : statement.content.last? with
  | none =>
    rw [encode_of_last?_eq_none hformed hlast] at hsite
    cases hsite
  | some last =>
    obtain ⟨word, slot, operand⟩ := last
    obtain ⟨held, hresolves, hencode⟩ := encode_of_last? hformed hlast h
    rw [hencode] at hsite
    cases hresolves with
    | imported symbol hkind hsome himported =>
      obtain rfl : site = ⟨statement.place, slot.field, operand.text⟩ := by
        simpa [finished, WordEncoding.hold] using hsite
      exact ⟨word, slot, operand, symbol, rfl, rfl, hsome, himported⟩
    | _ => cases hsite

/-- A field that another module fills lies in a word of its statement. -/
theorem exists_word_of_mem_imports {statement : Statement}
    (hformed : statement.content.Formed) {context : EncodingContext}
    (h : (statement.encode context).errors = []) {site : ImportSite}
    (hsite : site ∈ (statement.encode context).imports) :
    ∃ word ∈ (statement.encode context).words, word.address = site.address := by
  obtain ⟨word, slot, operand, _, hlast, rfl, -⟩ := exists_of_mem_imports hformed h hsite
  obtain ⟨held, -, hencode⟩ := encode_of_last? hformed hlast h
  rw [hencode]
  exact ⟨_, List.mem_singleton_self _, rfl⟩

end Statement

end PageMachine
