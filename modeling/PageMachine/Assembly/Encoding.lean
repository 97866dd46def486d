import PageMachine.Assembly.Statement
import PageMachine.LiteralPool
import PageMachine.Record
import PageMachine.Symbol

/-!
# The encoding of statements

The second pass turns each statement into words, when all symbols and literals have their
addresses. An operand is first resolved to what its field holds: a number, or a symbol of
another module whose value the linker puts there. A field that holds a page offset takes any
address on the page of the next instruction; a relocatable program fits into a page wherever it
is put, so that there the page needs no check. Every other number has to lie in the range of its
slot, unless it is an address that moves, which only a whole word can hold.
-/

namespace PageMachine

/-- What statements are encoded against. -/
structure EncodingContext where
  /-- The symbols of the program. -/
  symbols : SymbolTable
  /-- The literals of the program, at their final place. -/
  literals : LiteralPool
  /-- The address of the first statement. -/
  origin : Word
  /-- Whether the program can be moved. -/
  relocatable : Bool

/-- What goes into the field of an operand. -/
inductive FieldValue where
  /-- A number, and whether it moves with the program. -/
  | number (value : Int) (moves : Bool)
  /-- The value of another module's symbol. -/
  | imported (name : String)
  deriving DecidableEq, Repr

/-- Check a number against the range of a slot. -/
def OperandSlot.check (slot : OperandSlot) (text : String) (value : Int) :
    Except OperandError Unit :=
  if slot.InRange value then .ok ()
  else .error (.outOfRange text slot.minValue slot.maxValue)

namespace EncodingContext

/-- Whether a value is an address on the page of the instruction after `address`. -/
def OnPage (address : Word) (value : Int) : Prop :=
  (0 ≤ value ∧ value < addressLimit) ∧
    pageOf (BitVec.ofInt 16 value) = pageOf (address + 1)

instance (address : Word) (value : Int) : Decidable (OnPage address value) :=
  inferInstanceAs (Decidable (_ ∧ _))

/-- What the value of a symbol or the address of a literal puts into a slot of the word at
`address`. The two errors are those of a page that differs and of an address that moves. -/
def refer (context : EncodingContext) (address : Word) (slot : OperandSlot) (text : String)
    (value : Int) (moves : Bool) (offPage moving : OperandError) :
    Except OperandError FieldValue :=
  if slot.pageRelative then
    if context.relocatable ∨ OnPage address value then .ok (.number value moves)
    else .error offPage
  else if moves then
    if slot.field = .wholeWord then .ok (.number value true) else .error moving
  else do
    slot.check text value
    return .number value false

/-- What an operand puts into a slot of the word at `address`. -/
def resolve (context : EncodingContext) (address : Word) (slot : OperandSlot)
    (operand : Operand) : Except OperandError FieldValue :=
  let text := operand.text
  match operand.kind with
  | .immediate => do
      let value ← parseConstant text
      slot.check text value
      if slot.pageRelative then
        return .number (value - (context.origin &&& 0x1FF).toNat) false
      else return .number value false
  | .register => do
      let value ← parseRegister text
      slot.check text value
      return .number value false
  | .literal => do
      let value ← parseLiteral text
      match context.literals.addressOf? value with
      | none => throw (.unpooledLiteral text)
      | some place =>
          context.refer address slot text place.toNat context.relocatable
            (.literalOffPage text) (.relocatableLiteral text)
  | .symbol =>
      match context.symbols.get? text with
      | none => .error (.undefinedSymbol text)
      | some symbol =>
          if symbol.imported then .ok (.imported text)
          else
            context.refer address slot text symbol.value symbol.relocatable
              (.symbolOffPage text) (.relocatableSymbol text)
  | .string => .error (.quotedText text)

end EncodingContext

/-- A word in the making. -/
structure WordEncoding where
  /-- The word so far. -/
  word : Word
  /-- The bits that move with the program. -/
  mask : Word
  /-- The fields that other modules fill. -/
  imports : List ImportSite
  /-- The operands that failed. -/
  errors : List OperandError

namespace WordEncoding

/-- A word before its operands are put in. -/
def ofPattern (pattern : Word) : WordEncoding where
  word := pattern
  mask := 0
  imports := []
  errors := []

/-- Put an operand into its slot. -/
def put (context : EncodingContext) (address : Word) (encoding : WordEncoding)
    (slot : OperandSlot) (operand : Operand) : WordEncoding :=
  match context.resolve address slot operand with
  | .error error => { encoding with errors := encoding.errors ++ [error] }
  | .ok (.number value moves) =>
      { encoding with
        word := slot.field.orInto encoding.word value
        mask := if moves then encoding.mask ||| slot.field.mask else encoding.mask }
  | .ok (.imported name) =>
      { encoding with imports := encoding.imports ++ [⟨address, slot.field, name⟩] }

/-- Put operands into their slots. -/
def putAll (context : EncodingContext) (address : Word) (encoding : WordEncoding) :
    List OperandSlot → List Operand → WordEncoding
  | slot :: slots, operand :: operands =>
      (encoding.put context address slot operand).putAll context address slots operands
  | _, _ => encoding

end WordEncoding

/-- A statement with what it turned into. -/
structure EncodedStatement where
  /-- The statement. -/
  statement : Statement
  /-- Its words. -/
  words : List TaggedWord
  /-- The fields that other modules fill. -/
  imports : List ImportSite
  /-- The operands that failed. -/
  errors : List OperandError
  deriving DecidableEq

namespace Statement

/-- A statement that is one word with operands in it. -/
def encodeWord (statement : Statement) (context : EncodingContext) (pattern : Word)
    (slots : List OperandSlot) (operands : List Operand) : EncodedStatement :=
  let address := statement.place
  let encoding := (WordEncoding.ofPattern pattern).putAll context address slots operands
  { statement := statement
    words := [⟨address, encoding.word, Relocation.ofMask encoding.mask⟩]
    imports := encoding.imports
    errors := encoding.errors }

/-- The words of a statement. -/
def encode (context : EncodingContext) (statement : Statement) : EncodedStatement :=
  match statement.content with
  | .nothing | .reserve _ | .unknown => ⟨statement, [], [], []⟩
  | .data words =>
      let place (n : Nat) (word : Word) : TaggedWord :=
        ⟨BitVec.ofNat 16 (statement.address + n), word, none⟩
      ⟨statement, words.mapIdx place, [], []⟩
  | .fill operand => statement.encodeWord context 0 [.dataWord] [operand]
  | .machine definition operands =>
      statement.encodeWord context definition.pattern definition.operands operands

end Statement

end PageMachine
