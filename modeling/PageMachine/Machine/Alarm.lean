import PageMachine.Console
import PageMachine.Text.Digits
import PageMachine.Word

/-!
# Alarms

An alarm stops the machine before the program halts itself.
-/

namespace PageMachine

/-- Why the machine was stopped. -/
inductive Alarm where
  /-- A trap has no service routine. -/
  | unknownTrap (vector : BitVec 8) (address : Word)
  /-- A store goes beyond the end of memory. -/
  | writeOutOfRange (address : Nat)
  /-- As many instructions as allowed were executed. -/
  | limitReached (limit : Nat)
  /-- A console call failed. -/
  | console (fault : ConsoleFault)
  deriving DecidableEq, Repr

/-- The wording of an alarm. -/
def Alarm.message : Alarm → String
  | .unknownTrap vector address =>
      "Execution error: unknown trap vector 0x" ++ String.ofList (Text.hex 2 vector.toNat) ++
        " at address 0x" ++ String.ofList (Text.hex 4 address.toNat)
  | .writeOutOfRange address =>
      "Execution error: write to address 0x" ++ String.ofList (Text.hex 1 address) ++
        " is outside memory"
  | .limitReached limit =>
      "Execution error: program did not halt within " ++ toString limit ++ " instructions"
  | .console fault => "Execution error: console I/O failed: " ++ fault.message

end PageMachine
