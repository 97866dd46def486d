/-!
# Lines

A line ends at a line feed, which a carriage return may precede; the last line may lack the
line feed and then keeps a carriage return. A text that ends with a line feed has no empty
line after it.
-/

namespace PageMachine.Text

/-- The lines of a text given as characters. -/
def splitLines : List Char → List (List Char)
  | [] => []
  | '\n' :: rest => [] :: splitLines rest
  | '\r' :: '\n' :: rest => [] :: splitLines rest
  | c :: rest =>
      match splitLines rest with
      | [] => [[c]]
      | line :: others => (c :: line) :: others

/-- The lines of a text. -/
def lines (text : String) : List String :=
  (splitLines text.toList).map String.ofList

end PageMachine.Text
