import PageMachine.Text.Digits

/-!
# Numerals

An unsigned numeral is one or more digits, read from the left against a largest value. Leading
zeros are allowed and do not count. Reading stops at the first fault, which is either a
character that is no digit or the digit with which the number grows too large. A numeral may
carry a sign; whether a minus is allowed depends on the kind of number.
-/

namespace PageMachine.Text

/-- Why a text is no numeral. -/
inductive NumeralFault where
  /-- There is nothing to read. -/
  | empty
  /-- A character is no digit, or a sign stands alone. -/
  | invalidDigit
  /-- The number exceeds the largest value. -/
  | tooLarge
  deriving DecidableEq, Repr

/-- The wording of a fault. -/
def NumeralFault.message : NumeralFault → String
  | .empty => "cannot parse integer from empty string"
  | .invalidDigit => "invalid digit found in string"
  | .tooLarge => "number too large to fit in target type"

/-- Read digits after those that make up `value`. -/
def readDigits (base largest : Nat) (value : Nat) : List Char → Except NumeralFault Nat
  | [] => .ok value
  | c :: rest =>
      match digitValue? base c with
      | none => .error .invalidDigit
      | some digit =>
          let grown := value * base + digit
          if largest < grown then .error .tooLarge else readDigits base largest grown rest

/-- Read an unsigned numeral, which a plus may precede. -/
def readUnsigned (base largest : Nat) : List Char → Except NumeralFault Nat
  | [] => .error .empty
  | ['+'] => .error .invalidDigit
  | '+' :: rest => readDigits base largest 0 rest
  | text => readDigits base largest 0 text

/-- The largest signed number of 32 bits. -/
def maxInt32 : Nat := 2147483647

/-- Read a decimal numeral with an optional sign, in the range of 32 bits. -/
def readInt32 : List Char → Except NumeralFault Int
  | [] => .error .empty
  | ['+'] => .error .invalidDigit
  | ['-'] => .error .invalidDigit
  | '+' :: rest => (readDigits 10 maxInt32 0 rest).map Int.ofNat
  | '-' :: rest => (readDigits 10 (maxInt32 + 1) 0 rest).map fun n => -(n : Int)
  | text => (readDigits 10 maxInt32 0 text).map Int.ofNat

end PageMachine.Text
