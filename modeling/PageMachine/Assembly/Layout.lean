import PageMachine.Assembly.Error
import PageMachine.Assembly.Statement
import PageMachine.LiteralPool
import PageMachine.Record
import PageMachine.Text.Lines

/-!
# The layout of a program

The first pass over a source text gives each statement its address, defines the symbols and
collects the literals. The addresses follow from the sizes alone, and the size of a statement
never depends on what is defined behind it.

The pass goes on after an error, so that as many as possible are found. What the statements
mean together, such as the size of the whole, is checked when all are there. Until then a program
may grow without regard to the address space; its location counter and its symbols then stay at
the greatest number of 32 bits, unsigned and signed.
-/

namespace PageMachine

/-- The statements that direct the assembler and are no instructions. -/
inductive Directive where
  /-- Give the origin of the program. -/
  | origin
  /-- Give a value to a name. -/
  | equate
  /-- Store one word. -/
  | fill
  /-- Store a text, one character to a word, with a zero behind it. -/
  | text
  /-- Leave words free. -/
  | reserve
  /-- End the program. -/
  | finish
  /-- Let other modules use symbols. -/
  | exports
  /-- Use symbols of other modules. -/
  | imports
  deriving DecidableEq, Repr

/-- The directive that an operation names. -/
def Directive.ofText? (operation : String) : Option Directive :=
  match operation with
  | ".ORIG" => some .origin
  | ".EQU" => some .equate
  | ".FILL" => some .fill
  | ".STRZ" => some .text
  | ".BLKW" => some .reserve
  | ".END" => some .finish
  | ".ENT" => some .exports
  | ".EXT" => some .imports
  | _ => none

/-- What is known of a program after some of its lines. -/
structure Layout where
  /-- The errors found, in the order in which they were found. -/
  errors : List AssemblyError
  /-- The symbols defined. -/
  symbols : SymbolTable
  /-- The literals used. -/
  literals : LiteralPool
  /-- The statements. -/
  statements : List Statement
  /-- The address of the next statement. -/
  location : Nat
  /-- The address of the first statement. -/
  origin : Word
  /-- Whether the origin is left to the linker. -/
  relocatable : Bool
  /-- Whether the origin was given. -/
  originSeen : Bool
  /-- Whether the end was given. -/
  endSeen : Bool
  /-- The operand of the end, with its line. -/
  start : Option (Nat × Operand)
  /-- The names to be exported, with their lines. -/
  exports : List (Nat × String)
  /-- The name of the segment. -/
  segmentName : String

namespace Layout

/-- The greatest value of the location counter. -/
def maxLocation : Nat := 4294967295

/-- The layout before the first line, for a segment named after `hint`. -/
def initial (hint : String) : Layout where
  errors := []
  symbols := .empty
  literals := .empty
  statements := []
  location := 0
  origin := 0
  relocatable := false
  originSeen := false
  endSeen := false
  start := none
  exports := []
  segmentName := String.ofList (Record.segmentName hint.toList)

/-- Note an error. -/
def report (layout : Layout) (line : Nat) (kind : ErrorClass) (fault : AssemblyFault) : Layout :=
  { layout with errors := layout.errors ++ [⟨some line, kind, fault⟩] }

/-- Give a label the address of the next statement. Labels that cannot name a symbol are left
out; reading the line has found them faulty. -/
def defineLabel (layout : Layout) (line : Nat) (label : String) : Layout :=
  if Symbol.isValidName label.toList then
    let value := min layout.location Text.maxInt32
    match layout.symbols.define label (.ofValue value layout.relocatable) with
    | .ok symbols => { layout with symbols := symbols }
    | .error error => layout.report line .meaning (.symbol error)
  else layout

/-- Put the next statement at an address. -/
def moveTo (layout : Layout) (origin : Word) : Layout :=
  { layout with origin := origin, location := origin.toNat }

/-- Set the origin as the operands ask. -/
def placeOrigin (layout : Layout) (line : Nat) (operands : List Operand) : Layout :=
  match operands with
  | [] => { layout.moveTo 0 with relocatable := true }
  | [operand] =>
      if operand.kind = .immediate then
        match parseConstant operand.text with
        | .error error => layout.report line .form (.operand error)
        | .ok value =>
            if 0 ≤ value ∧ value < addressLimit then layout.moveTo (BitVec.ofInt 16 value)
            else layout.report line .meaning .originOutOfRange
      else layout.report line .meaning .originKind
  | _ => layout.report line .meaning (.originCount operands.length)

/-- Begin the program, whose segment takes the label's name. -/
def begin (layout : Layout) (line : Nat) (label : String) (operands : List Operand) : Layout :=
  if layout.originSeen then layout.report line .whole .repeatedOrigin
  else
    let checked :=
      if layout.statements.isEmpty then layout else layout.report line .whole .lateOrigin
    let placed := { checked with originSeen := true }.placeOrigin line operands
    if label.isEmpty then placed
    else
      { placed with segmentName := String.ofList (Record.segmentName label.toList) }.defineLabel
        line label

/-- The table in which a label has the value of an operand. -/
def equate (symbols : SymbolTable) (label : String) (operands : List Operand) :
    Except AssemblyFault SymbolTable :=
  match operands with
  | [operand] =>
      if label.isEmpty then .error .equateUse
      else
        match operand.kind with
        | .symbol => (symbols.defineAlias label operand.text).mapError .symbol
        | .immediate =>
            match parseConstant operand.text with
            | .error error => .error (.operand error)
            | .ok value => (symbols.define label (.ofValue value false)).mapError .symbol
        | _ => .error .equateKind
  | _ => .error .equateUse

/-- The operand that fills a word. -/
def fillOperand (operands : List Operand) : Except AssemblyFault Operand :=
  match operands with
  | [operand] =>
      match operand.kind with
      | .immediate | .symbol => .ok operand
      | _ => .error .fillKind
  | _ => .error (.fillCount operands.length)

/-- The words of a text, with a zero behind them. -/
def textWords : List Char → Except AssemblyFault (List Word)
  | [] => .ok [0]
  | c :: rest =>
      if c.toNat < addressLimit then (textWords rest).map (BitVec.ofNat 16 c.toNat :: ·)
      else .error (.wideCharacter c)

/-- A text without the quotes around it. -/
def unquote? : List Char → Option (List Char)
  | '"' :: rest => if rest.getLast? = some '"' then some rest.dropLast else none
  | _ => none

/-- The words of a quoted text. -/
def textContent (operands : List Operand) : Except AssemblyFault (List Word) :=
  match operands with
  | [operand] =>
      match unquote? operand.text.toList with
      | some inner => textWords inner
      | none => .error .textKind
  | _ => .error (.textCount operands.length)

/-- The number of words to reserve. A symbol counts only if its value is known already and does
not move. -/
def reserveCount (symbols : SymbolTable) (operands : List Operand) : Except AssemblyFault Nat :=
  match operands with
  | [operand] =>
      let value : Except AssemblyFault Int :=
        match operand.kind with
        | .immediate => (parseConstant operand.text).mapError .operand
        | .symbol =>
            match symbols.get? operand.text with
            | some symbol =>
                if symbol.imported || symbol.relocatable then .error .reserveKind
                else .ok symbol.value
            | none => .error .reserveKind
        | _ => .error .reserveKind
      match value with
      | .error fault => .error fault
      | .ok count => if 0 ≤ count then .ok count.toNat else .error .negativeReserve
  | _ => .error (.reserveCount operands.length)

/-- End the program. -/
def finish (layout : Layout) (line : Nat) (operands : List Operand) : Layout :=
  if layout.endSeen then layout.report line .whole .repeatedEnd
  else
    let ended := { layout with endSeen := true }
    match operands with
    | [] => ended
    | [operand] =>
        match operand.kind with
        | .immediate | .symbol => { ended with start := some (line, operand) }
        | _ => ended.report line .meaning .endKind
    | _ => ended.report line .meaning (.endCount operands.length)

/-- Note a name to be exported. -/
def exportName (line : Nat) (layout : Layout) (operand : Operand) : Layout :=
  if operand.kind = .symbol then
    { layout with exports := layout.exports ++ [(line, operand.text)] }
  else layout.report line .meaning (.exportKind operand.text)

/-- Declare a name that another module defines. -/
def importName (line : Nat) (layout : Layout) (operand : Operand) : Layout :=
  if operand.kind = .symbol then
    match layout.symbols.defineImport operand.text with
    | .ok symbols => { layout with symbols := symbols }
    | .error error => layout.report line .meaning (.symbol error)
  else layout.report line .meaning (.importKind operand.text)

/-- Do something with each of one or more names. -/
def forNames (layout : Layout) (line : Nat) (operands : List Operand) (missing : AssemblyFault)
    (act : Nat → Layout → Operand → Layout) : Layout :=
  if operands.isEmpty then layout.report line .meaning missing
  else operands.foldl (act line) layout

/-- Put the literals among the operands into the pool. -/
def poolLiterals (literals : LiteralPool) (operands : List Operand) :
    Except OperandError LiteralPool :=
  operands.foldlM
    (fun pool operand =>
      if operand.kind = .literal then do
        let value ← parseLiteral operand.text
        return (pool.define value).1
      else .ok pool)
    literals

/-- Lay out an instruction. -/
def machine (layout : Layout) (line : Nat) (operation : String) (operands : List Operand) :
    Layout × Content :=
  match InstructionSet.find? operation (operands.map Operand.kind) with
  | none =>
      let fault :=
        if InstructionSet.isMnemonic operation then AssemblyFault.unfitOperands operation
        else .unknownOperation operation
      (layout.report line .meaning fault, .unknown)
  | some definition =>
      match poolLiterals layout.literals operands with
      | .error error => (layout.report line .form (.operand error), .unknown)
      | .ok literals => ({ layout with literals := literals }, .machine definition operands)

/-- Carry out a directive. -/
def direct (layout : Layout) (line : Nat) (label : String) (operands : List Operand) :
    Directive → Layout × Content
  | .origin => (layout.begin line label operands, .nothing)
  | .equate =>
      match equate layout.symbols label operands with
      | .ok symbols => ({ layout with symbols := symbols }, .nothing)
      | .error fault => (layout.report line .meaning fault, .nothing)
  | .fill =>
      match fillOperand operands with
      | .ok operand => (layout, .fill operand)
      | .error fault => (layout.report line .meaning fault, .unknown)
  | .text =>
      match textContent operands with
      | .ok words => (layout, .data words)
      | .error fault => (layout.report line .meaning fault, .nothing)
  | .reserve =>
      match reserveCount layout.symbols operands with
      | .ok count => (layout, .reserve count)
      | .error fault => (layout.report line .meaning fault, .nothing)
  | .finish => (layout.finish line operands, .nothing)
  | .exports => (layout.forNames line operands .noExports exportName, .nothing)
  | .imports => (layout.forNames line operands .noImports importName, .nothing)

/-- Define the label of a line, unless its operation takes none or sees to it itself. -/
def labelLine (layout : Layout) (line : Nat) (source : SourceLine) : Layout :=
  if source.label.isEmpty then layout
  else
    match Directive.ofText? source.operation with
    | some .origin | some .equate => layout
    | some .finish | some .exports | some .imports =>
        layout.report line .meaning (.unwantedLabel source.operation)
    | _ => layout.defineLabel line source.label

/-- Carry out the operation of a line. -/
def operate (layout : Layout) (line : Nat) (source : SourceLine) : Layout × Content :=
  let operands := source.operands.map Operand.mk
  match Directive.ofText? source.operation with
  | some directive => layout.direct line source.label operands directive
  | none =>
      if source.operation.isEmpty then
        if operands.isEmpty then (layout, .nothing)
        else (layout.report line .form .missingOperation, .nothing)
      else layout.machine line source.operation operands

/-- Add a statement behind the others. -/
def push (layout : Layout) (line : Nat) (source : String) (content : Content) : Layout :=
  { layout with
    statements := layout.statements ++ [⟨line, source, layout.location, content⟩]
    location := min maxLocation (layout.location + content.size) }

/-- Add the statement of a line that could be read. -/
def addStatement (layout : Layout) (line : Nat) (text : String) (source : SourceLine) : Layout :=
  let (operated, content) := (layout.labelLine line source).operate line source
  operated.push line text content

/-- Add a line of the source text. -/
def addLine (layout : Layout) (line : Nat) (text : String) : Layout :=
  if SourceLine.isEmptyLine text.toList then layout
  else
    let (faults, source?) := SourceLine.scan text.toList
    let noted := faults.foldl (fun l fault => l.report line .form (.line fault)) layout
    match source? with
    | none => noted
    | some source => noted.addStatement line text source

/-- Add lines that follow one another. -/
def addLines (layout : Layout) (first : Nat) : List String → Layout
  | [] => layout
  | text :: rest => (layout.addLine first text).addLines (first + 1) rest

/-- The layout of a source text. -/
def ofSource (hint source : String) : Layout :=
  (initial hint).addLines 1 (Text.lines source)

/-- One past the last word of the program, the literals included. -/
def stop (layout : Layout) : Nat :=
  layout.location + layout.literals.size

/-- The pool behind the statements. -/
def pool (layout : Layout) : LiteralPool :=
  layout.literals.setOffset (BitVec.ofNat 16 layout.location)

end Layout

end PageMachine
