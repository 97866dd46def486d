/-!
# Digits and columns

Numbers appear in object files, listings and messages in hexadecimal with a least number of
digits, and in decimal without padding. A column is a text filled up with spaces to a least
width, counted in characters.
-/

namespace PageMachine.Text

/-- The hexadecimal digit of a number below sixteen, in upper case. -/
def hexDigit (n : Nat) : Char :=
  Char.ofNat (if n < 10 then 48 + n else 55 + n)

/-- The last `width` hexadecimal digits of a number, highest first. -/
def hexDigits : (width n : Nat) → List Char
  | 0, _ => []
  | width + 1, n => hexDigits width (n / 16) ++ [hexDigit (n % 16)]

/-- A number in hexadecimal, with leading zeros up to `width` digits and more if it needs them. -/
def hex (width n : Nat) : List Char :=
  hexDigits (max width (n.log2 / 4 + 1)) n

/-- A number in lower-case hexadecimal, with leading zeros up to `width` digits and more if it needs
them. -/
def hexLower (width n : Nat) : List Char :=
  (hex width n).map Char.toLower

/-- The value of a digit in a base of at most sixteen; letters count in either case. -/
def digitValue? (base : Nat) (c : Char) : Option Nat :=
  let n := c.toNat
  let value :=
    if 48 ≤ n ∧ n ≤ 57 then some (n - 48)
    else if 65 ≤ n ∧ n ≤ 70 then some (n - 55)
    else if 97 ≤ n ∧ n ≤ 102 then some (n - 87)
    else none
  value.filter (· < base)

/-- A text followed by spaces up to `width` characters. -/
def padRight (width : Nat) (text : List Char) : List Char :=
  text ++ List.replicate (width - text.length) ' '

/-- A text preceded by spaces up to `width` characters. -/
def padLeft (width : Nat) (text : List Char) : List Char :=
  List.replicate (width - text.length) ' ' ++ text

/-- There are as many digits as asked for. -/
theorem length_hexDigits (width n : Nat) : (hexDigits width n).length = width := by
  induction width generalizing n with
  | zero => rfl
  | succ width ih => simp [hexDigits, ih]

/-- A written digit reads back as its value. -/
theorem digitValue?_hexDigit {n : Nat} (h : n < 16) : digitValue? 16 (hexDigit n) = some n := by
  have : ∀ m : Fin 16, digitValue? 16 (hexDigit m) = some m.val := by decide
  exact this ⟨n, h⟩

end PageMachine.Text
