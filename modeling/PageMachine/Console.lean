import PageMachine.Text.Utf8

/-!
# Consoles

The console connects the machine with its operator. A console is any type of states with the
four calls below; each call gives a result or a fault and a new state, so that a console may
fail at any time. What the program writes are bytes; what the machine shows of itself in a trace
is text, which a console may keep apart.

`BufferConsole` has all its input from the beginning, keeps what is written, and never fails.
-/

namespace PageMachine

/-- A console call that failed. -/
structure ConsoleFault where
  /-- The reason. -/
  message : String
  deriving DecidableEq, Repr

/-- The calls of a console with states in `σ`. -/
class Console (σ : Type) where
  /-- Read a byte, if any is left. -/
  readByte : σ → Except ConsoleFault (Option UInt8) × σ
  /-- Read a line without its end, if any input is left. -/
  readLine : σ → Except ConsoleFault (Option String) × σ
  /-- Write bytes of the program. -/
  writeBytes : ByteArray → σ → Except ConsoleFault Unit × σ
  /-- Write text of a trace. -/
  writeTrace : String → σ → Except ConsoleFault Unit × σ

/-- The bytes before the first line feed, and those after it. -/
def cutLine : List UInt8 → List UInt8 × List UInt8
  | [] => ([], [])
  | byte :: rest => if byte = 10 then ([], rest) else (byte :: (cutLine rest).1, (cutLine rest).2)

/-- The text of a line, without a carriage return at its end. -/
def lineText (line : List UInt8) : String :=
  String.ofList (Text.decode (if line.getLast? = some 13 then line.dropLast else line))

/-- A console with given input that keeps what is written. -/
structure BufferConsole where
  /-- The bytes not yet read. -/
  input : List UInt8
  /-- The bytes written by the program. -/
  output : ByteArray
  /-- The text of the trace. -/
  trace : String

namespace BufferConsole

/-- A console with some input, on which nothing is written. -/
def ofInput (input : List UInt8) : BufferConsole where
  input := input
  output := .empty
  trace := ""

/-- Read a byte. -/
def readByte (console : BufferConsole) : Option UInt8 × BufferConsole :=
  match console.input with
  | [] => (none, console)
  | byte :: rest => (some byte, { console with input := rest })

/-- Read a line. -/
def readLine (console : BufferConsole) : Option String × BufferConsole :=
  match console.input with
  | [] => (none, console)
  | byte :: rest =>
      let cut := cutLine (byte :: rest)
      (some (lineText cut.1), { console with input := cut.2 })

/-- Write bytes of the program. -/
def writeBytes (bytes : ByteArray) (console : BufferConsole) : BufferConsole :=
  { console with output := console.output ++ bytes }

/-- Write text of a trace. -/
def writeTrace (text : String) (console : BufferConsole) : BufferConsole :=
  { console with trace := console.trace ++ text }

/-- The bytes written, as text. -/
def outputText (console : BufferConsole) : String :=
  String.ofList (Text.decode console.output.data.toList)

instance : Console BufferConsole where
  readByte console := (.ok console.readByte.1, console.readByte.2)
  readLine console := (.ok console.readLine.1, console.readLine.2)
  writeBytes bytes console := (.ok (), console.writeBytes bytes)
  writeTrace text console := (.ok (), console.writeTrace text)

end BufferConsole

end PageMachine
