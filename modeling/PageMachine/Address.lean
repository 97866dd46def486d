import PageMachine.Text.Numeral
import PageMachine.Word

/-!
# Addresses in commands

A command gives an address in hexadecimal, with an x or 0x in front, or in decimal.
-/

namespace PageMachine

/-- A text that is no address, and why. -/
structure AddressError where
  /-- The text. -/
  text : String
  /-- What is wrong with its digits. -/
  fault : Text.NumeralFault
  deriving DecidableEq, Repr

/-- The wording of an error. -/
def AddressError.message (error : AddressError) : String :=
  "'" ++ error.text ++ "' is not a valid address: " ++ error.fault.message

/-- The digits of an address. -/
def readAddress : List Char → Except Text.NumeralFault Nat
  | '0' :: 'x' :: digits => Text.readUnsigned 16 65535 digits
  | 'x' :: digits => Text.readUnsigned 16 65535 digits
  | digits => Text.readUnsigned 10 65535 digits

/-- Read an address. -/
def parseAddress (text : String) : Except AddressError Word :=
  match readAddress text.toList with
  | .ok n => .ok (BitVec.ofNat 16 n)
  | .error fault => .error ⟨text, fault⟩

end PageMachine
