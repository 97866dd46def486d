import PageMachine.Program
import PageMachine.Text.Blank

/-!
# Listings

A listing shows every statement with its words, then the literal pool, then the symbols. Lines
without a statement are left out. A word appears with its address and its tag; the words of a
statement after the first stand on lines of their own.
-/

namespace PageMachine

/-- A word with its address and tag. -/
def TaggedWord.listingText (word : TaggedWord) : List Char :=
  '(' :: Record.wordText word.address ++ [')', ' '] ++ Record.wordText word.value ++ [' '] ++
    Text.padRight 2 ((word.relocation.map Relocation.tag).getD [])

namespace EncodedStatement

/-- The column of the first word, or of the address alone. -/
def firstColumn (encoded : EncodedStatement) : List Char :=
  match encoded.words with
  | [] =>
      '(' :: Record.wordText encoded.statement.place ++ ')' :: List.replicate 8 ' '
  | word :: _ => word.listingText

/-- The lines of a statement. -/
def listingText (encoded : EncodedStatement) : List Char :=
  let statement := encoded.statement
  encoded.firstColumn ++
    [' ', '('] ++ Text.padLeft 4 (toString statement.line).toList ++ [')', ' '] ++
    Text.trimEnd statement.source.toList ++
    (encoded.words.drop 1).flatMap (fun word => '\n' :: word.listingText) ++ ['\n']

end EncodedStatement

namespace Program

/-- The literal pool in a listing, if there is one. -/
def literalListing (program : Program) : List Char :=
  if program.literals.size = 0 then []
  else
    "\nLiterals:\n".toList ++ program.literals.toList.flatMap fun entry =>
      '(' :: Record.wordText entry.1 ++ [')', ' '] ++ Record.wordText entry.2 ++ ['\n']

/-- The symbols in a listing. -/
def symbolListing (program : Program) : List Char :=
  "\nSymbols:\n".toList ++ program.symbols.toList.flatMap fun entry =>
    (entry.2.render entry.1).toList ++ ['\n']

/-- The listing of a program. -/
def listing (program : Program) : String :=
  String.ofList (program.statements.flatMap EncodedStatement.listingText ++
    program.literalListing ++ program.symbolListing)

end Program

end PageMachine
