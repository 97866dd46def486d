import PageMachine.InstructionSet
import PageMachine.Source.Operand

/-!
# Statements

A statement is a source line whose place in memory and size are known, but whose operands still
stand for themselves, since they may name what is defined further down.
-/

namespace PageMachine

/-- What a statement puts into memory. -/
inductive Content where
  /-- Nothing. -/
  | nothing
  /-- A number of words that are left free. -/
  | reserve (count : Nat)
  /-- Something faulty. It takes up a word, so that the statements behind it get plausible
  addresses. -/
  | unknown
  /-- An instruction. -/
  | machine (definition : InstructionDefinition) (operands : List Operand)
  /-- A word given by an operand. -/
  | fill (operand : Operand)
  /-- Words that are known already. -/
  | data (words : List Word)
  deriving DecidableEq, Repr

/-- The number of words that a content takes up. -/
def Content.size : Content → Nat
  | .nothing => 0
  | .reserve count => count
  | .unknown => 1
  | .machine _ _ => 1
  | .fill _ => 1
  | .data words => words.length

/-- A source line with its place in memory. -/
structure Statement where
  /-- The number of the line, from one. -/
  line : Nat
  /-- The line as written. -/
  source : String
  /-- The address of the first word. -/
  address : Nat
  /-- What the statement puts there. -/
  content : Content
  deriving DecidableEq, Repr

namespace Statement

/-- The address as a word. -/
def place (statement : Statement) : Word :=
  BitVec.ofNat 16 statement.address

end Statement

end PageMachine
