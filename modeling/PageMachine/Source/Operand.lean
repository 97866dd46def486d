import PageMachine.InstructionSet
import PageMachine.Text.Numeral

/-!
# Operands

An operand is a text with a kind, which its first character decides. A constant is a number
sign followed by a decimal numeral with an optional sign, or an x followed by an optional minus
and hexadecimal digits; either way it is a signed number of 32 bits. A register is an R
followed by a numeral. A literal is an equals sign followed by a constant that fits a word,
read as a signed or as an unsigned number. What a name stands for depends on the program.
-/

namespace PageMachine

/-- Why an operand has no value, or none that can be used where it stands. -/
inductive OperandError where
  /-- The text after a number sign is no decimal numeral. -/
  | notDecimal (text : String)
  /-- The text after an x is no hexadecimal numeral. -/
  | notHex (text : String)
  /-- The text begins like no constant. -/
  | notConstant (text : String)
  /-- The text after an R is no numeral. -/
  | invalidRegister (text : String)
  /-- The text begins like no literal. -/
  | notLiteral (text : String)
  /-- The literal does not fit a word. -/
  | wideLiteral (text : String)
  /-- The literal has no place in the pool. -/
  | unpooledLiteral (text : String)
  /-- The name has no symbol. -/
  | undefinedSymbol (text : String)
  /-- A quoted text has no value. -/
  | quotedText (text : String)
  /-- The literal lies on another page. -/
  | literalOffPage (text : String)
  /-- The symbol lies on another page. -/
  | symbolOffPage (text : String)
  /-- The literal's address moves, but the field does not hold an address. -/
  | relocatableLiteral (text : String)
  /-- The symbol's value moves, but the field does not hold an address. -/
  | relocatableSymbol (text : String)
  /-- The value does not fit. -/
  | outOfRange (text : String) (least greatest : Int)
  deriving DecidableEq, Repr

/-- The wording of an error. -/
def OperandError.message : OperandError → String
  | .notDecimal text => "Cannot parse \"" ++ text ++ "\" as a decimal value."
  | .notHex text => "Cannot parse \"" ++ text ++ "\" as a hex value."
  | .notConstant text => "\"" ++ text ++ "\" is not a constant."
  | .invalidRegister text => "Invalid register \"" ++ text ++ "\"."
  | .notLiteral text => "\"" ++ text ++ "\" is not a literal."
  | .wideLiteral text => "Literal \"" ++ text ++ "\" does not fit in a word."
  | .unpooledLiteral text => "Literal \"" ++ text ++ "\" is not in the literal pool."
  | .undefinedSymbol text => "Undefined symbol \"" ++ text ++ "\"."
  | .quotedText text => "String \"" ++ text ++ "\" cannot be used in this operand."
  | .literalOffPage text => "Literal \"" ++ text ++ "\" is not on the current page."
  | .symbolOffPage text => "Symbol \"" ++ text ++ "\" is not on the current page."
  | .relocatableLiteral text =>
      "Relocatable literal \"" ++ text ++ "\" cannot be used in this operand."
  | .relocatableSymbol text =>
      "Relocatable symbol \"" ++ text ++ "\" cannot be used in this operand."
  | .outOfRange text least greatest =>
      "Operand \"" ++ text ++ "\" is out of range; it must be between " ++ toString least ++
        " and " ++ toString greatest ++ "."

/-- An operand as written. -/
structure Operand where
  /-- Its text. -/
  text : String
  deriving DecidableEq, Repr

namespace Operand

/-- The kind of an operand. -/
def kind (operand : Operand) : OperandKind :=
  .ofText operand.text.toList

end Operand

/-- The magnitude of a hexadecimal constant. -/
def readHexMagnitude : List Char → Option Nat
  | [] => none
  | digits => (Text.readDigits 16 Text.maxInt32 0 digits).toOption

/-- Read a constant. -/
def parseConstant (text : String) : Except OperandError Int :=
  match text.toList with
  | '#' :: digits =>
      match Text.readInt32 digits with
      | .ok value => .ok value
      | .error _ => .error (.notDecimal text)
  | 'x' :: '-' :: digits =>
      match readHexMagnitude digits with
      | some magnitude => .ok (-(magnitude : Int))
      | none => .error (.notHex text)
  | 'x' :: digits =>
      match readHexMagnitude digits with
      | some magnitude => .ok magnitude
      | none => .error (.notHex text)
  | _ => .error (.notConstant text)

/-- Read the number of a register, which may be more than there are registers. -/
def parseRegister (text : String) : Except OperandError Int :=
  match text.toList with
  | 'R' :: digits =>
      match Text.readInt32 digits with
      | .ok value => .ok value
      | .error _ => .error (.invalidRegister text)
  | _ => .error (.invalidRegister text)

/-- Read a literal as the word that the pool holds for it. -/
def parseLiteral (text : String) : Except OperandError Word :=
  match text.toList with
  | '=' :: constant =>
      match parseConstant (String.ofList constant) with
      | .error error => .error error
      | .ok value =>
          if -32768 ≤ value ∧ value ≤ 65535 then .ok (BitVec.ofInt 16 value)
          else .error (.wideLiteral text)
  | _ => .error (.notLiteral text)

end PageMachine
