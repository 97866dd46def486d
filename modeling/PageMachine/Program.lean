import PageMachine.Assembly.Encoding

/-!
# Programs

A program is the result of assembling a source text: the statements with their words, the
symbols, the literal pool behind the statements, and the fields that the linker has to fill. Its
object text lists all of this in records, and its words come in the order of their addresses.
-/

namespace PageMachine

/-- An assembled program. -/
structure Program where
  /-- The name of the segment. -/
  segmentName : String
  /-- The address of the first statement, zero for a relocatable program. -/
  origin : Word
  /-- Whether the program can be moved. -/
  relocatable : Bool
  /-- The address at which execution starts. -/
  start : Word
  /-- The number of words from the origin to the end of the literal pool, those left free
  included. -/
  length : Nat
  /-- The symbols. -/
  symbols : SymbolTable
  /-- The literals. -/
  literals : LiteralPool
  /-- The statements with their words. -/
  statements : List EncodedStatement

namespace Program

/-- The words of the literal pool. -/
def literalWords (program : Program) : List TaggedWord :=
  program.literals.toList.map fun entry => ⟨entry.1, entry.2, none⟩

/-- The words of the program: those of the statements, then the literals. -/
def words (program : Program) : List TaggedWord :=
  program.statements.flatMap EncodedStatement.words ++ program.literalWords

/-- The fields that other modules fill, in the order of the statements. -/
def imports (program : Program) : List ImportSite :=
  program.statements.flatMap EncodedStatement.imports

/-- The header of the object file. -/
def header (program : Program) : Record :=
  .header program.segmentName (if program.relocatable then none else some program.origin)
    (BitVec.ofNat 16 program.length)

/-- The record of an exported symbol, whose value is cut to a word. -/
def exportRecord (entry : String × Symbol) : Record :=
  .exported entry.1 entry.2.word entry.2.relocatable

/-- The records of the object file. -/
def records (program : Program) : List Record :=
  program.header :: program.words.map .text ++ program.symbols.exports.map exportRecord ++
    program.imports.map .imported ++ [.finish program.start]

end Program

/-- The text of a program's object file. -/
def Program.objectText (program : Program) : String :=
  Record.fileText program.records

end PageMachine
