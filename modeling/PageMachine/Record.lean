import PageMachine.BitRange
import PageMachine.Symbol
import PageMachine.Text.Numeral
import PageMachine.Text.Utf8

/-!
# Object records

An object file consists of records, one to a line. The first character tells the kind and the
fields that follow have fixed widths, numbers being hexadecimal:

* a header has the segment name in six characters, the origin or four letters M for a
  relocatable segment, and the length in words;
* a text record has an address, a word, and the tag M0 or M1 if part of the word moves with
  the segment;
* an export has A for absolute or R for relocatable, a value and a name;
* an import has an address, the highest and lowest bit of a field of the word there, and the
  name whose value the field takes;
* an end record has the address at which execution starts.

`render` writes a record and `parse` reads one. Lengths and places of fields are counted in
bytes of UTF-8, so that a field can end inside a character; it is then missing.
-/

namespace PageMachine

/-- The part of a word that moves with its segment. -/
inductive Relocation where
  /-- The low nine bits, which hold a page offset. -/
  | pageOffset
  /-- All bits, which hold an address. -/
  | wholeWord
  deriving DecidableEq, Repr

namespace Relocation

/-- The field that moves. -/
def field : Relocation → BitRange
  | .pageOffset => .pageOffset
  | .wholeWord => .wholeWord

/-- The tag for a word of which the given bits move. -/
def ofMask (mask : Word) : Option Relocation :=
  if mask = 0 then none
  else if mask &&& ~~~BitRange.pageOffset.mask = 0 then some .pageOffset
  else some .wholeWord

/-- The tag as it is written. -/
def tag : Relocation → List Char
  | .pageOffset => ['M', '0']
  | .wholeWord => ['M', '1']

end Relocation

/-- A word of a program at its address, with the part of it that moves. -/
structure TaggedWord where
  /-- The place of the word. -/
  address : Word
  /-- The word. -/
  value : Word
  /-- The part that moves with the segment, if any does. -/
  relocation : Option Relocation
  deriving DecidableEq, Repr

/-- A field of a word that takes the value of another module's symbol. -/
structure ImportSite where
  /-- The place of the word. -/
  address : Word
  /-- The field that takes the value. -/
  field : BitRange
  /-- The symbol that supplies it. -/
  name : String
  deriving DecidableEq, Repr

/-- A line of an object file. -/
inductive Record where
  /-- The segment's name, its origin unless it is relocatable, and its length. -/
  | header (name : String) (origin : Option Word) (length : Word)
  /-- A word of the segment. -/
  | text (word : TaggedWord)
  /-- A symbol that other modules may use. -/
  | exported (name : String) (value : Word) (relocatable : Bool)
  /-- A field that another module's symbol fills. -/
  | imported (site : ImportSite)
  /-- The address at which execution starts. -/
  | finish (start : Word)
  deriving DecidableEq, Repr

/-- The kinds of record whose length is checked. -/
inductive RecordKind where
  | header
  | text
  | exported
  | imported
  | finish
  deriving DecidableEq, Repr

/-- The numeric fields of records. -/
inductive NumberField where
  | segmentOrigin
  | segmentLength
  | textAddress
  | textValue
  | exportValue
  | importAddress
  | importMsb
  | importLsb
  | startAddress
  deriving DecidableEq, Repr

/-- What a numeric field is called in messages. -/
def NumberField.description : NumberField → String
  | .segmentOrigin => "segment origin"
  | .segmentLength => "segment length"
  | .textAddress => "text record address"
  | .textValue => "text record value"
  | .exportValue => "export value"
  | .importAddress => "import address"
  | .importMsb => "import field msb"
  | .importLsb => "import field lsb"
  | .startAddress => "start address"

/-- Why a line is no record. -/
inductive RecordError where
  /-- The first character is that of no kind of record. -/
  | unknownKind
  /-- The line is too short or too long, or a header is not in ASCII. -/
  | wrongLength (kind : RecordKind)
  /-- A numeric field is not there. -/
  | missingNumber (field : NumberField)
  /-- A numeric field contains something else than digits. -/
  | invalidNumber (field : NumberField) (text : String)
  /-- A text record ends with something else than a tag. -/
  | malformedTag
  /-- An export is neither absolute nor relocatable. -/
  | malformedExport
  /-- An import's field ends above its beginning. -/
  | emptyField (msb lsb : Nat)
  /-- The name is no name of a symbol. -/
  | invalidName (name : String)
  /-- The name is not there. -/
  | missingName
  deriving DecidableEq, Repr

/-- The wording of an error. -/
def RecordError.message : RecordError → String
  | .unknownKind => "First character of line is invalid; must be 'H', 'T', 'E', 'I', or 'X'."
  | .wrongLength .header =>
      "Length of header record is incorrect. Should be 15 characters."
  | .wrongLength .text =>
      "Length of text record is incorrect. Should be 9 or 11 characters."
  | .wrongLength .exported =>
      "Length of export record is incorrect. Should be at least 7 characters."
  | .wrongLength .imported =>
      "Length of import record is incorrect. Should be at least 8 characters."
  | .wrongLength .finish => "Length of end record is incorrect. Should be 5 characters."
  | .missingNumber field => "Missing " ++ field.description ++ "."
  | .invalidNumber field text =>
      "Invalid hexadecimal value \"" ++ text ++ "\" for " ++ field.description ++ "."
  | .malformedTag => "Malformed modification record. Must be \"M0\" or \"M1\"."
  | .malformedExport =>
      "Second character of export record should be 'A' for absolute or 'R' for relative."
  | .emptyField msb lsb =>
      "Import field [" ++ String.ofList (Text.hex 1 msb) ++ ":" ++
        String.ofList (Text.hex 1 lsb) ++ "] is empty."
  | .invalidName name => "Invalid symbol name \"" ++ name ++ "\"."
  | .missingName => "Missing symbol name."

namespace Record

/-- The number of characters of a segment name. -/
def nameLength : Nat := 6

/-- A name cut or filled up with spaces to the length of a segment name. -/
def segmentName (name : List Char) : List Char :=
  Text.padRight nameLength (name.take nameLength)

/-- The origin as a relocatable segment writes it. -/
def relocatableOrigin : List Char :=
  ['M', 'M', 'M', 'M']

/-- A word in four digits. -/
def wordText (word : Word) : List Char :=
  Text.hexDigits 4 word.toNat

/-- The characters of a record. -/
def toChars : Record → List Char
  | .header name origin length =>
      'H' :: segmentName name.toList ++ (origin.map wordText).getD relocatableOrigin ++
        wordText length
  | .text word =>
      'T' :: wordText word.address ++ wordText word.value ++
        (word.relocation.map Relocation.tag).getD []
  | .exported name value relocatable =>
      'X' :: (if relocatable then 'R' else 'A') :: wordText value ++ name.toList
  | .imported site =>
      'I' :: wordText site.address ++ Text.hexDigit site.field.msb ::
        Text.hexDigit site.field.lsb :: site.name.toList
  | .finish start => 'E' :: wordText start

/-- The line of a record. -/
def render (record : Record) : String :=
  String.ofList record.toChars

/-- The text of an object file: each record on a line of its own. -/
def fileText (records : List Record) : String :=
  String.join (records.map fun record => record.render ++ "\n")

/-- The number in the bytes from `first` up to `last`, that one excluded. -/
def number (line : List Char) (first last : Nat) (field : NumberField) :
    Except RecordError Nat :=
  match Text.byteSlice? first last line with
  | none => .error (.missingNumber field)
  | some digits =>
      match Text.readDigits 16 0xFFFF 0 digits with
      | .ok n => .ok n
      | .error _ => .error (.invalidNumber field (String.ofList digits))

/-- The word in the bytes from `first` on. -/
def wordAt (line : List Char) (first : Nat) (field : NumberField) : Except RecordError Word :=
  (number line first (first + 4) field).map (BitVec.ofNat 16)

/-- The symbol name in the bytes from `first` to the end. -/
def nameAt (line : List Char) (first : Nat) : Except RecordError String :=
  match Text.dropBytes? first line with
  | none => .error .missingName
  | some name =>
      if Symbol.isValidName name then .ok (String.ofList name)
      else .error (.invalidName (String.ofList name))

/-- Read a header. -/
def parseHeader (line : List Char) : Except RecordError Record := do
  if line.length ≠ 15 ∨ ¬line.all (·.toNat < 128) then
    throw (.wrongLength .header)
  let origin ←
    if (line.drop 7).take 4 = relocatableOrigin then pure none
    else (wordAt line 7 .segmentOrigin).map some
  let length ← wordAt line 11 .segmentLength
  return .header (String.ofList ((line.drop 1).take 6)) origin length

/-- Read a text record. -/
def parseText (line : List Char) : Except RecordError Record := do
  if Text.byteLength line ≠ 9 ∧ Text.byteLength line ≠ 11 then
    throw (.wrongLength .text)
  let address ← wordAt line 1 .textAddress
  let value ← wordAt line 5 .textValue
  match Text.dropBytes? 9 line with
  | some [] => return .text ⟨address, value, none⟩
  | some ['M', '0'] => return .text ⟨address, value, some .pageOffset⟩
  | some ['M', '1'] => return .text ⟨address, value, some .wholeWord⟩
  | _ => throw .malformedTag

/-- Read an export. -/
def parseExport (line : List Char) : Except RecordError Record := do
  if Text.byteLength line < 7 then
    throw (.wrongLength .exported)
  let relocatable ←
    match Text.byteSlice? 1 2 line with
    | some ['A'] => pure false
    | some ['R'] => pure true
    | _ => throw .malformedExport
  let value ← wordAt line 2 .exportValue
  let name ← nameAt line 6
  return .exported name value relocatable

/-- Read an import. -/
def parseImport (line : List Char) : Except RecordError Record := do
  if Text.byteLength line < 8 then
    throw (.wrongLength .imported)
  let address ← wordAt line 1 .importAddress
  let msb ← number line 5 6 .importMsb
  let lsb ← number line 6 7 .importLsb
  match BitRange.ofBounds? msb lsb with
  | none => throw (.emptyField msb lsb)
  | some field =>
      let name ← nameAt line 7
      return .imported ⟨address, field, name⟩

/-- Read an end record. -/
def parseFinish (line : List Char) : Except RecordError Record := do
  if Text.byteLength line ≠ 5 then
    throw (.wrongLength .finish)
  let start ← wordAt line 1 .startAddress
  return .finish start

/-- Read a record from the characters of a line. -/
def ofChars (line : List Char) : Except RecordError Record :=
  match line.head? with
  | some 'H' => parseHeader line
  | some 'T' => parseText line
  | some 'X' => parseExport line
  | some 'I' => parseImport line
  | some 'E' => parseFinish line
  | _ => .error .unknownKind

/-- Read a record from a line. -/
def parse (line : String) : Except RecordError Record :=
  ofChars line.toList

end Record

end PageMachine
