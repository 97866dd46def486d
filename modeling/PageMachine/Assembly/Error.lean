import PageMachine.Source.Line
import PageMachine.Source.Operand
import PageMachine.Symbol

/-!
# Assembly errors

Everything that is wrong with a source text is reported at once, ordered by line; errors that
concern the program as a whole come last. Errors of one line keep the order in which they were
found.
-/

namespace PageMachine

/-- What an error is about. -/
inductive ErrorClass where
  /-- How a line is written. -/
  | form
  /-- What a statement means. -/
  | meaning
  /-- How the statements make up a program. -/
  | whole
  deriving DecidableEq, Repr

/-- The cause of an error. -/
inductive AssemblyFault where
  /-- The line cannot be read as it should. -/
  | line (fault : LineFault)
  /-- An operand has no usable value. -/
  | operand (error : OperandError)
  /-- A symbol cannot be defined. -/
  | symbol (error : SymbolError)
  /-- There are operands, but no operation. -/
  | missingOperation
  /-- The operation does not take operands of these kinds. -/
  | unfitOperands (operation : String)
  /-- There is no such operation. -/
  | unknownOperation (operation : String)
  /-- The operation takes no label. -/
  | unwantedLabel (operation : String)
  /-- The origin is set twice. -/
  | repeatedOrigin
  /-- Statements come before the origin. -/
  | lateOrigin
  /-- The origin is no address. -/
  | originOutOfRange
  /-- The origin is not given by a constant. -/
  | originKind
  /-- The origin has too many operands. -/
  | originCount (count : Nat)
  /-- A name is equated without label or with the wrong number of operands. -/
  | equateUse
  /-- A name is equated with something that has no value. -/
  | equateKind
  /-- A word is filled from the wrong number of operands. -/
  | fillCount (count : Nat)
  /-- A word is filled with something that has no value. -/
  | fillKind
  /-- A text is given by the wrong number of operands. -/
  | textCount (count : Nat)
  /-- A text is not quoted. -/
  | textKind
  /-- A character of a text exceeds a word. -/
  | wideCharacter (c : Char)
  /-- Space is reserved with the wrong number of operands. -/
  | reserveCount (count : Nat)
  /-- The size of reserved space is not known. -/
  | reserveKind
  /-- The size of reserved space is negative. -/
  | negativeReserve
  /-- The program ends twice. -/
  | repeatedEnd
  /-- The start is given by something that has no value. -/
  | endKind
  /-- The end has too many operands. -/
  | endCount (count : Nat)
  /-- Nothing is exported. -/
  | noExports
  /-- Something is exported that is no name. -/
  | exportKind (text : String)
  /-- Nothing is imported. -/
  | noImports
  /-- Something is imported that is no name. -/
  | importKind (text : String)
  /-- An exported name has no symbol. -/
  | undefinedExport (name : String)
  /-- An exported symbol is imported. -/
  | importedExport (name : String)
  /-- The start is an imported symbol. -/
  | importedStart (text : String)
  /-- The start is no address. -/
  | startKind (text : String)
  /-- The start lies outside the statements. -/
  | startOutside (text : String)
  /-- A relocatable program exceeds a page. -/
  | severalPages
  /-- The program exceeds the memory. -/
  | beyondMemory
  /-- There are more symbols than allowed. -/
  | tooManySymbols
  /-- There are more literals than allowed. -/
  | tooManyLiterals
  /-- There are more words than allowed. -/
  | tooManyWords
  /-- The origin or the end is not given. -/
  | incomplete
  deriving DecidableEq, Repr

/-- The wording of a fault. -/
def AssemblyFault.message : AssemblyFault → String
  | .line fault => fault.message
  | .operand error => error.message
  | .symbol error => error.message
  | .missingOperation => "Missing operation."
  | .unfitOperands operation =>
      "Could not find definition for operation \"" ++ operation ++ "\" with matching operands."
  | .unknownOperation operation => "Unknown operation \"" ++ operation ++ "\"."
  | .unwantedLabel operation => "No label allowed on " ++ operation ++ " instruction."
  | .repeatedOrigin => "Multiple .ORIG instructions are not allowed."
  | .lateOrigin => ".ORIG instruction must be first non-comment line."
  | .originOutOfRange => ".ORIG address must be between x0000 and xFFFF."
  | .originKind => "Operand of .ORIG must be an immediate value."
  | .originCount count =>
      ".ORIG may have a maximum of one operand; " ++ toString count ++ " operands were given."
  | .equateUse => "Incorrect usage of .EQU. Requires a label and one operand."
  | .equateKind => ".EQU operand must be a symbol or a constant value."
  | .fillCount count => ".FILL requires one operand. " ++ toString count ++ " were given."
  | .fillKind => "Incorrect operands for .FILL operation."
  | .textCount count => ".STRZ requires one operand. " ++ toString count ++ " were given."
  | .textKind => "Incorrect operand type for .STRZ operation."
  | .wideCharacter c =>
      "Character '" ++ String.ofList [c] ++ "' in .STRZ operand does not fit in a word."
  | .reserveCount count => ".BLKW requires one operand. " ++ toString count ++ " were given."
  | .reserveKind => ".BLKW operand must be a constant or a previously defined absolute symbol."
  | .negativeReserve => ".BLKW requires a non-negative operand."
  | .repeatedEnd => "Multiple .END instructions are not allowed."
  | .endKind => ".END operand must be an immediate value or a symbol."
  | .endCount count =>
      ".END may have a maximum of one operand; " ++ toString count ++ " operands were given."
  | .noExports => ".ENT requires at least one operand."
  | .exportKind text => ".ENT operand \"" ++ text ++ "\" must be a valid symbol name."
  | .noImports => ".EXT requires at least one operand."
  | .importKind text => ".EXT operand \"" ++ text ++ "\" must be a valid symbol name."
  | .undefinedExport name => "Undefined .ENT symbol \"" ++ name ++ "\"."
  | .importedExport name => "Imported symbol \"" ++ name ++ "\" cannot be exported."
  | .importedStart text => "Imported symbol \"" ++ text ++ "\" cannot be the start address."
  | .startKind text => ".END operand \"" ++ text ++ "\" is not an address."
  | .startOutside text => ".END operand \"" ++ text ++ "\" is outside the program."
  | .severalPages =>
      "Program spans multiple memory pages. Relocate or shrink the program to fit inside one " ++
        "memory page."
  | .beyondMemory => "Program loads into memory outside the addressable range."
  | .tooManySymbols => "Program exceeds limit for maximum number of symbols."
  | .tooManyLiterals => "Program exceeds limit for maximum number of literals."
  | .tooManyWords => "Program exceeds limit for maximum number of source records."
  | .incomplete => "Program is missing .ORIG and/or .END instructions."

/-- An error in a source text. -/
structure AssemblyError where
  /-- The line, counted from one, unless the whole program is at fault. -/
  line : Option Nat
  /-- What the error is about. -/
  kind : ErrorClass
  /-- The cause. -/
  fault : AssemblyFault
  deriving DecidableEq, Repr

namespace AssemblyError

/-- The text of an error. -/
def message (error : AssemblyError) : String :=
  "Assemble error: " ++
    (match error.line with
    | some n => "Line " ++ toString n ++ " - "
    | none => "") ++
    error.fault.message

/-- Whether an error belongs after another: its line is later, or it has none and the other
has one. -/
def after (error other : AssemblyError) : Bool :=
  match error.line, other.line with
  | some n, some m => m < n
  | none, some _ => true
  | _, none => false

/-- Put an error in front of those that do not belong before it. -/
def insert (error : AssemblyError) : List AssemblyError → List AssemblyError
  | [] => [error]
  | first :: others =>
      if error.after first then first :: insert error others else error :: first :: others

/-- Errors in the order of their lines. -/
def sort (errors : List AssemblyError) : List AssemblyError :=
  errors.foldr insert []

/-- The text of several errors, one to a line. -/
def report (errors : List AssemblyError) : String :=
  "\n".intercalate (errors.map message)

end AssemblyError

end PageMachine
