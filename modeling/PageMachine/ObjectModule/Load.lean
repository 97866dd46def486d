import PageMachine.ObjectModule
import PageMachine.Text.Blank
import PageMachine.Text.Lines

/-!
# Loading object files

An object file has one header, then text, export and import records in any order, then one end
record. Addresses lie in the segment that the header announces, none is written twice, and no
name is exported twice. Blank lines and blanks around a record do not count. A file with any
fault gives no module; reading goes on to find the others, each line having at most one.
-/

namespace PageMachine

/-- What is wrong with an object file. -/
inductive LoadFault where
  /-- The line is no record. -/
  | record (error : RecordError)
  /-- The record comes after the end. -/
  | afterEnd
  /-- There is a header already. -/
  | secondHeader
  /-- There is no header yet. -/
  | beforeHeader
  /-- The segment reaches beyond the address space. -/
  | segmentTooLong
  /-- A word lies outside the segment. -/
  | textOutside (address : Word)
  /-- An address is written twice. -/
  | textRepeated (address : Word)
  /-- A name is exported twice. -/
  | symbol (error : SymbolError)
  /-- An imported field lies outside the segment. -/
  | importOutside (address : Word)
  /-- The start lies outside the segment. -/
  | startOutside (address : Word)
  /-- The file has no header. -/
  | noHeader
  /-- The file has no end. -/
  | noEnd
  deriving DecidableEq, Repr

/-- An address as messages about object files show it. -/
def lowerAddress (address : Word) : String :=
  "0x" ++ String.ofList (Text.hexLower 4 address.toNat)

/-- The wording of a fault. -/
def LoadFault.message : LoadFault → String
  | .record error => error.message
  | .afterEnd => "Record follows the end record."
  | .secondHeader => "Object file contains more than one header record."
  | .beforeHeader => "Record precedes the header record."
  | .segmentTooLong => "Memory segment length is too large for virtual machine."
  | .textOutside address =>
      "Text record address " ++ lowerAddress address ++
        " exists outside program memory range specified in header record."
  | .textRepeated address =>
      "Text record address " ++ lowerAddress address ++ " appears more than once."
  | .symbol error => error.message
  | .importOutside address =>
      "Import record address " ++ lowerAddress address ++
        " exists outside program memory range specified in header record."
  | .startOutside address =>
      "Execution start address " ++ lowerAddress address ++
        " outside specified memory segment range."
  | .noHeader => "Object file does not contain a header record."
  | .noEnd => "Object file does not contain an end record."

/-- An error in an object file. -/
structure LoadError where
  /-- The line, counted from one, unless the whole file is at fault. -/
  line : Option Nat
  /-- The fault. -/
  fault : LoadFault
  deriving DecidableEq, Repr

namespace LoadError

/-- The text of an error. -/
def message (error : LoadError) : String :=
  "Load error: " ++
    (match error.line with
    | some n => "Line " ++ toString n ++ " - "
    | none => "") ++
    error.fault.message

/-- The text of several errors, one to a line. -/
def report (errors : List LoadError) : String :=
  "\n".intercalate (errors.map message)

end LoadError

/-- What the header of an object file says. -/
structure Header where
  /-- The name of the segment. -/
  segmentName : String
  /-- The origin of the segment, unless it is relocatable. -/
  origin : Option Word
  /-- The number of words of the segment. -/
  length : Word
  deriving DecidableEq, Repr

namespace Header

/-- The first address of the segment. -/
def first (header : Header) : Word :=
  header.origin.getD 0

/-- Whether an address lies in the segment. -/
def Contains (header : Header) (address : Word) : Prop :=
  header.first.toNat ≤ address.toNat ∧
    address.toNat < header.first.toNat + header.length.toNat

instance (header : Header) (address : Word) : Decidable (header.Contains address) :=
  inferInstanceAs (Decidable (_ ∧ _))

/-- Whether execution may start at an address. An empty segment starts at its origin. -/
def AllowsStart (header : Header) (address : Word) : Prop :=
  header.Contains address ∨ (header.length = 0 ∧ address = header.first)

instance (header : Header) (address : Word) : Decidable (header.AllowsStart address) :=
  inferInstanceAs (Decidable (_ ∨ _))

end Header

/-- What has been read of an object file. -/
structure Loader where
  /-- The header, once read. -/
  header : Option Header
  /-- The start address, once the end is read. -/
  start : Option Word
  /-- The words read. -/
  memory : Memory
  /-- The tags read. -/
  relocations : Std.ExtTreeMap Word Relocation
  /-- The exports read. -/
  exports : SymbolTable
  /-- The imports read. -/
  imports : List ImportSite
  /-- The errors found. -/
  errors : List LoadError

namespace Loader

/-- Before the first line. -/
def initial : Loader where
  header := none
  start := none
  memory := .empty
  relocations := ∅
  exports := .empty
  imports := []
  errors := []

/-- Note an error in a line. -/
def report (loader : Loader) (line : Nat) (fault : LoadFault) : Loader :=
  { loader with errors := loader.errors ++ [⟨some line, fault⟩] }

/-- Take a header. A segment that is too long is noted, and kept so that the rest of the file
can be checked against it. -/
def addHeader (loader : Loader) (line : Nat) (header : Header) : Loader :=
  let noted :=
    if addressLimit < header.first.toNat + header.length.toNat then
      loader.report line .segmentTooLong
    else loader
  { noted with header := some header }

/-- Take a word of the segment. -/
def addText (loader : Loader) (line : Nat) (header : Header) (word : TaggedWord) : Loader :=
  if ¬header.Contains word.address then loader.report line (.textOutside word.address)
  else if loader.memory.contains word.address then
    loader.report line (.textRepeated word.address)
  else
    { loader with
      memory := loader.memory.write word.address word.value
      relocations :=
        match word.relocation with
        | some tag => loader.relocations.insert word.address tag
        | none => loader.relocations }

/-- The symbol of an export. -/
def exportedSymbol (value : Word) (relocatable : Bool) : Symbol :=
  { Symbol.ofValue value.toNat relocatable with exported := true }

/-- Take an export. -/
def addExport (loader : Loader) (line : Nat) (name : String) (symbol : Symbol) : Loader :=
  match loader.exports.define name symbol with
  | .ok exports => { loader with exports := exports }
  | .error error => loader.report line (.symbol error)

/-- Take an import. -/
def addImport (loader : Loader) (line : Nat) (header : Header) (site : ImportSite) : Loader :=
  if header.Contains site.address then { loader with imports := loader.imports ++ [site] }
  else loader.report line (.importOutside site.address)

/-- Take the end. -/
def addFinish (loader : Loader) (line : Nat) (header : Header) (start : Word) : Loader :=
  let noted :=
    if header.AllowsStart start then loader else loader.report line (.startOutside start)
  { noted with start := some start }

/-- Take a record. -/
def add (loader : Loader) (line : Nat) (record : Record) : Loader :=
  if loader.start.isSome then loader.report line .afterEnd
  else
    match record, loader.header with
    | .header name origin length, none => loader.addHeader line ⟨name, origin, length⟩
    | .header _ _ _, some _ => loader.report line .secondHeader
    | _, none => loader.report line .beforeHeader
    | .text word, some header => loader.addText line header word
    | .exported name value relocatable, some _ =>
        loader.addExport line name (exportedSymbol value relocatable)
    | .imported site, some header => loader.addImport line header site
    | .finish start, some header => loader.addFinish line header start

/-- Take a line. -/
def addLine (loader : Loader) (line : Nat) (text : List Char) : Loader :=
  match Text.trim text with
  | [] => loader
  | c :: rest =>
      match Record.ofChars (c :: rest) with
      | .ok record => loader.add line record
      | .error error => loader.report line (.record error)

/-- Take lines that follow one another. -/
def addLines (loader : Loader) (first : Nat) : List String → Loader
  | [] => loader
  | text :: rest => (loader.addLine first text.toList).addLines (first + 1) rest

/-- The errors of the file, those of the whole file last. -/
def allErrors (loader : Loader) : List LoadError :=
  loader.errors ++ (if loader.header.isNone then [⟨none, .noHeader⟩] else []) ++
    (if loader.start.isNone then [⟨none, .noEnd⟩] else [])

/-- The module read, or all errors. -/
def finish (loader : Loader) : Except (List LoadError) ObjectModule :=
  match loader.header, loader.start, loader.errors with
  | some header, some start, [] =>
      .ok
        { segmentName := header.segmentName
          origin := header.first
          length := header.length
          relocatable := header.origin.isNone
          start := start
          memory := loader.memory
          relocations := loader.relocations
          exports := loader.exports
          imports := loader.imports }
  | _, _, _ => .error loader.allErrors

end Loader

/-- Load the text of an object file. -/
def load (text : String) : Except (List LoadError) ObjectModule :=
  (Loader.initial.addLines 1 (Text.lines text)).finish

end PageMachine
