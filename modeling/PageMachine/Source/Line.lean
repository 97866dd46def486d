import PageMachine.Text.Blank

/-!
# Source lines

A source line has fixed columns: the label in the first seven, two blanks, the operation in
five, three blanks, and then the operands, separated by commas. In the operand field a
semicolon begins a comment, and double quotes keep commas and semicolons from their meaning.
Each field is read without the blanks around it.

A line can be faulty and still be read: only a fault in the operand field leaves nothing to
work with. `scan` therefore gives both the faults and, where there is one, the line.
-/

namespace PageMachine

/-- The fields of a source line. -/
structure SourceLine where
  /-- The label, empty if there is none. -/
  label : String
  /-- The operation, empty if there is none. -/
  operation : String
  /-- The operands, none of them empty. -/
  operands : List String
  deriving DecidableEq, Repr

/-- What is wrong with a line by itself. -/
inductive LineFault where
  /-- The label begins like an operand that is no name. -/
  | labelStart
  /-- The label contains a space or a comma. -/
  | labelSeparator
  /-- There is text between the columns. -/
  | spacing
  /-- A quoted text has no end. -/
  | unclosedQuote
  /-- There is nothing before, between or after commas. -/
  | emptyOperand
  deriving DecidableEq, Repr

/-- The wording of a fault. -/
def LineFault.message : LineFault → String
  | .labelStart => "Label name must not start with 'x', 'R', '#', or '='."
  | .labelSeparator => "Label name must not contain spaces or commas."
  | .spacing => "Incorrect spacing."
  | .unclosedQuote => "Detected string operand with unclosed quotation mark."
  | .emptyOperand => "Empty operand."

namespace SourceLine

/-- Whether a line holds no statement: it is blank, or a comment from its first character. -/
def isEmptyLine (line : List Char) : Bool :=
  line.head? == some ';' || (Text.trim line).isEmpty

/-- The text from column `first` up to column `last`, that one excluded, without blanks around
it; columns count from zero. -/
def column (first last : Nat) (line : List Char) : List Char :=
  Text.trim ((line.drop first).take (last - first))

/-- Put a character in front of the first of several pieces. -/
def extendFirst (c : Char) : List (List Char) → List (List Char)
  | [] => [[c]]
  | piece :: others => (c :: piece) :: others

/-- Cut an operand field at its commas, up to the comment. There is no result if a quotation
is open at the end; `quoted` tells whether one is open at the beginning. -/
def pieces : (quoted : Bool) → List Char → Option (List (List Char))
  | false, [] => some [[]]
  | true, [] => none
  | true, c :: rest => (pieces (c != '"') rest).map (extendFirst c)
  | false, c :: rest =>
      if c = '"' then (pieces true rest).map (extendFirst c)
      else if c = ';' then some [[]]
      else if c = ',' then (pieces false rest).map ([] :: ·)
      else (pieces false rest).map (extendFirst c)

/-- The operands of an operand field. -/
def splitOperands (field : List Char) : Except LineFault (List (List Char)) :=
  match pieces false field with
  | none => .error .unclosedQuote
  | some cut =>
      let operands := cut.map Text.trim
      if operands = [[]] then .ok []
      else if operands.any List.isEmpty then .error .emptyOperand
      else .ok operands

/-- The faults of a label. -/
def labelFaults (label : List Char) : List LineFault :=
  (if label.head?.any fun c => c == 'x' || c == 'R' || c == '#' || c == '=' then [.labelStart]
    else []) ++
    (if label.any fun c => c == ' ' || c == ',' then [.labelSeparator] else [])

/-- The faults of the columns that have to be blank. -/
def gapFaults (line : List Char) : List LineFault :=
  if (column 7 9 line).isEmpty && (column 14 17 line).isEmpty then [] else [.spacing]

/-- Read a line: its faults, and its fields unless the operands cannot be told. -/
def scan (source : List Char) : List LineFault × Option SourceLine :=
  let line := Text.trimEnd source
  let label := column 0 7 line
  let faults := labelFaults label ++ gapFaults line
  match splitOperands (line.drop 17) with
  | .error fault => (faults ++ [fault], none)
  | .ok operands =>
      (faults, some ⟨String.ofList label, String.ofList (column 9 14 line),
        operands.map String.ofList⟩)

end SourceLine

end PageMachine
