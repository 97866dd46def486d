import PageMachine.Assembly.Layout
import PageMachine.Program

/-!
# Assembling

A source text becomes a program in two passes: the layout gives every statement its address and
defines the symbols; then the whole is checked and the statements are encoded. A program results
only if nothing at all is wrong; otherwise all errors are given.
-/

namespace PageMachine

namespace Layout

/-- The number of symbols a program may have. -/
def maxSymbols : Nat := 100

/-- The number of literals a program may have. -/
def maxLiterals : Nat := 50

/-- The number of words a program may have. -/
def maxWords : Nat := 200

/-- What is wrong with a program as a whole. -/
def problems (layout : Layout) : List AssemblyFault :=
  (if layout.relocatable ∧ pageSize < layout.stop then [.severalPages] else []) ++
    (if addressLimit < layout.stop then [.beyondMemory] else []) ++
    (if maxSymbols < layout.symbols.size then [.tooManySymbols] else []) ++
    (if maxLiterals < layout.literals.size then [.tooManyLiterals] else []) ++
    (if maxWords < layout.stop - layout.origin.toNat then [.tooManyWords] else []) ++
    (if layout.originSeen && layout.endSeen then [] else [.incomplete])

/-- Mark a symbol as exported, or say why it cannot be. -/
def markExport (table : SymbolTable × List AssemblyError) (name : Nat × String) :
    SymbolTable × List AssemblyError :=
  let fail (fault : AssemblyFault) := (table.1, table.2 ++ [⟨some name.1, .meaning, fault⟩])
  match table.1.get? name.2 with
  | none => fail (.undefinedExport name.2)
  | some symbol =>
      if symbol.imported then fail (.importedExport name.2)
      else
        match table.1.markExport name.2 with
        | .ok symbols => (symbols, table.2)
        | .error error => fail (.symbol error)

/-- The symbols with the exported ones marked, and the errors in the names to be exported. -/
def exportedSymbols (layout : Layout) : SymbolTable × List AssemblyError :=
  layout.exports.foldl markExport (layout.symbols, [])

/-- Whether execution may start at an address: one of the statements, or the origin of a
program without any. -/
def Contains (layout : Layout) (address : Nat) : Prop :=
  (layout.origin.toNat ≤ address ∧ address < layout.location) ∨
    (layout.location = layout.origin.toNat ∧ address = layout.origin.toNat)

instance (layout : Layout) (address : Nat) : Decidable (layout.Contains address) :=
  inferInstanceAs (Decidable (_ ∨ _))

/-- The value of the operand that gives the start. -/
def startValue (symbols : SymbolTable) (operand : Operand) :
    Except (ErrorClass × AssemblyFault) Int :=
  match operand.kind with
  | .immediate =>
      match parseConstant operand.text with
      | .ok value => .ok value
      | .error error => .error (.form, .operand error)
  | .symbol =>
      match symbols.get? operand.text with
      | none => .error (.meaning, .operand (.undefinedSymbol operand.text))
      | some symbol =>
          if symbol.imported then .error (.meaning, .importedStart operand.text)
          else .ok symbol.value
  | _ => .error (.meaning, .startKind operand.text)

/-- The address at which execution starts: the origin, unless the end names another. -/
def startAddress (layout : Layout) (symbols : SymbolTable) : Except AssemblyError Word :=
  match layout.start with
  | none => .ok layout.origin
  | some (line, operand) =>
      match startValue symbols operand with
      | .error (kind, fault) => .error ⟨some line, kind, fault⟩
      | .ok value =>
          if 0 ≤ value ∧ value < addressLimit then
            if layout.Contains value.toNat then .ok (BitVec.ofInt 16 value)
            else .error ⟨some line, .meaning, .startOutside operand.text⟩
          else .error ⟨some line, .meaning, .startKind operand.text⟩

/-- The errors of an encoded statement. -/
def encodingErrors (encoded : EncodedStatement) : List AssemblyError :=
  encoded.errors.map fun error => ⟨some encoded.statement.line, .meaning, .operand error⟩

/-- The program of a layout, or all its errors. -/
def toProgram (layout : Layout) : Except (List AssemblyError) Program :=
  let (symbols, exportErrors) := layout.exportedSymbols
  let start := layout.startAddress symbols
  let startErrors :=
    match start with
    | .ok _ => []
    | .error error => [error]
  let context : EncodingContext :=
    { symbols := symbols
      literals := layout.pool
      origin := layout.origin
      relocatable := layout.relocatable }
  let encoded := layout.statements.map (Statement.encode context)
  let errors :=
    layout.errors ++ layout.problems.map (⟨none, .whole, ·⟩) ++ exportErrors ++ startErrors ++
      encoded.flatMap encodingErrors
  match errors, start with
  | [], .ok start =>
      .ok
        { segmentName := layout.segmentName
          origin := layout.origin
          relocatable := layout.relocatable
          start := start
          length := layout.stop - layout.origin.toNat
          symbols := symbols
          literals := layout.pool
          statements := encoded }
  | _, _ => .error (AssemblyError.sort errors)

end Layout

/-- Assemble a source text. The segment is named after `hint` unless the origin has a label. -/
def assemble (hint source : String) : Except (List AssemblyError) Program :=
  (Layout.ofSource hint source).toProgram

end PageMachine
