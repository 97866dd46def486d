import PageMachine.Console

/-!
# Scripted consoles

A scripted console has given input like a buffer, and in addition a script of failures: after a
number of successful reads all further ones fail, and likewise for writes. Reading a line takes
one read for each byte and one for its end, so that it can fail halfway; the bytes already read
are then gone. A console may also merge the trace into the output, as a terminal does.
-/

namespace PageMachine

/-- A console with given input whose calls fail in a given way. -/
structure ScriptedConsole where
  /-- What is read and written. -/
  buffer : BufferConsole
  /-- The number of reads that still succeed, if it is limited. -/
  readsLeft : Option Nat
  /-- The number of writes that still succeed, if it is limited. -/
  writesLeft : Option Nat
  /-- Whether the trace is written to the output. -/
  merged : Bool
  /-- The fault of the calls that fail. -/
  fault : ConsoleFault

namespace ScriptedConsole

/-- A console whose calls all succeed and which merges the trace into the output. -/
def terminal (input : List UInt8) : ScriptedConsole where
  buffer := .ofInput input
  readsLeft := none
  writesLeft := none
  merged := true
  fault := ⟨""⟩

/-- A console like a terminal whose input has yet to arrive. A read beyond what has arrived
fails. -/
def waiting : ScriptedConsole :=
  { terminal [] with readsLeft := some 0 }

/-- Let input arrive. If there is none, the input has come to its end. -/
def supply (console : ScriptedConsole) (bytes : List UInt8) : ScriptedConsole :=
  if bytes.isEmpty then { console with readsLeft := none }
  else
    { console with
      buffer := { console.buffer with input := console.buffer.input ++ bytes }
      readsLeft := console.readsLeft.map (· + bytes.length) }

/-- Take off what was written. -/
def flushed (console : ScriptedConsole) : ScriptedConsole :=
  { console with buffer := { console.buffer with output := .empty } }

/-- Take some calls from those that still succeed, if there are that many. -/
def spend (left : Option Nat) (calls : Nat) : Option (Option Nat) :=
  match left with
  | none => some none
  | some n => if calls ≤ n then some (some (n - calls)) else none

/-- Read a byte. -/
def readByte (console : ScriptedConsole) :
    Except ConsoleFault (Option UInt8) × ScriptedConsole :=
  match spend console.readsLeft 1 with
  | none => (.error console.fault, console)
  | some left =>
      let (byte?, buffer) := console.buffer.readByte
      (.ok byte?, { console with buffer := buffer, readsLeft := left })

/-- Read a line. -/
def readLine (console : ScriptedConsole) : Except ConsoleFault (Option String) × ScriptedConsole :=
  let input := console.buffer.input
  match spend console.readsLeft ((cutLine input).1.length + 1) with
  | some left =>
      let (line?, buffer) := console.buffer.readLine
      (.ok line?, { console with buffer := buffer, readsLeft := left })
  | none =>
      let rest := input.drop (console.readsLeft.getD 0)
      (.error console.fault,
        { console with buffer := { console.buffer with input := rest }, readsLeft := some 0 })

/-- Write to the buffer. -/
def write (change : BufferConsole → BufferConsole) (console : ScriptedConsole) :
    Except ConsoleFault Unit × ScriptedConsole :=
  match spend console.writesLeft 1 with
  | none => (.error console.fault, console)
  | some left => (.ok (), { console with buffer := change console.buffer, writesLeft := left })

instance : Console ScriptedConsole where
  readByte := readByte
  readLine := readLine
  writeBytes bytes := write (BufferConsole.writeBytes bytes)
  writeTrace text console :=
    if console.merged then console.write (BufferConsole.writeBytes text.toUTF8)
    else console.write (BufferConsole.writeTrace text)

end ScriptedConsole

end PageMachine
