import PageMachine.Assembly
import PageMachine.Files
import PageMachine.LinkedImage
import PageMachine.Machine.Run
import PageMachine.ObjectModule.Load
import PageMachine.Program.Listing

/-!
# Tools

The assembler turns a source file into an object file, the linker turns object files into one
absolute object file, and the simulator links object files and runs the result. Each tool stops
at its first failure; the assembler and the linker write their output only when all else has
succeeded.

The output file of a simulation is created before anything is loaded, so that it holds exactly
what the program wrote, even if that is nothing. A run need not end: `Simulation.prepare` gives the
machine, whoever runs it hands over what is written with `Simulation.deliver`.
-/

namespace PageMachine

/-- Why a tool fails. -/
inductive ToolError where
  /-- An input file cannot be read. -/
  | input (name : String) (fault : FileFault)
  /-- An output file cannot be written. -/
  | output (name : String) (fault : FileFault)
  /-- The source has errors. -/
  | source (errors : List AssemblyError)
  /-- An object file has errors. -/
  | load (name : String) (errors : List LoadError)
  /-- The modules cannot be linked. -/
  | link (error : LinkError)
  /-- The file for the output of a simulation cannot be written. -/
  | record (name : String) (fault : FileFault)
  /-- A simulation that waits for its operator was to write to a file. -/
  | stepIntoFile
  /-- The machine was stopped. -/
  | stopped (alarm : Alarm)

/-- The wording of a failure. -/
def ToolError.message : ToolError → String
  | .input name fault => "I/O error reading input file " ++ name ++ ": " ++ fault.message
  | .output name fault => "I/O error writing output file " ++ name ++ ": " ++ fault.message
  | .source errors => AssemblyError.report errors
  | .load name errors => "failed to load " ++ name ++ ":\n" ++ LoadError.report errors
  | .link error => error.message
  | .record name fault => "Cannot write " ++ name ++ ": " ++ fault.message
  | .stepIntoFile => "Executing in step mode with an output file is not allowed."
  | .stopped alarm => alarm.message

namespace Toolchain

variable {m : Type → Type} [Monad m] [Host m]

/-- Read a file of text. -/
def readText (name : String) : ExceptT ToolError m String := do
  match ← Host.readFile (m := m) name with
  | .error fault => throw (.input name fault)
  | .ok bytes =>
      match String.fromUTF8? bytes with
      | none => throw (.input name .notText)
      | some text => return text

/-- Write a file of text. -/
def writeText (name text : String) : ExceptT ToolError m Unit := do
  match ← Host.writeFile (m := m) name text.toUTF8 with
  | .error fault => throw (.output name fault)
  | .ok () => return

/-- The name of the segment in a source file, unless the source gives another. -/
def segmentHint (input : String) : String :=
  String.ofList (FileName.stem input.toList)

/-- Assemble a source file, and print the listing if it is wanted. -/
def assembleFile (input output : String) (list : Bool) : ExceptT ToolError m Unit := do
  match assemble (segmentHint input) (← readText input) with
  | .error errors => throw (.source errors)
  | .ok program =>
      if list then Host.print (m := m) program.listing.toUTF8
      writeText output program.objectText

/-- Load an object file. -/
def loadFile (name : String) : ExceptT ToolError m ObjectModule := do
  match load (← readText name) with
  | .error errors => throw (.load name errors)
  | .ok module => return module

/-- Load object files and link them. -/
def linkInputs (inputs : List String) (base : Option Word) : ExceptT ToolError m LinkedImage := do
  match link (← inputs.mapM loadFile) base with
  | .error error => throw (.link error)
  | .ok image => return image

/-- Link object files into one. -/
def linkFiles (inputs : List String) (output : String) (base : Option Word) :
    ExceptT ToolError m Unit := do
  writeText output (← linkInputs inputs base).objectText

end Toolchain

/-- A simulation that was asked for. -/
structure Simulation where
  /-- The object files. -/
  inputs : List String
  /-- The file for the output, if it is not the standard output. -/
  output : Option String
  /-- How much of the machine's operation is shown. -/
  mode : RunMode
  /-- The base address of the first module, if one is given. -/
  base : Option Word
  /-- The number of instructions allowed, if it is limited. -/
  limit : Option Nat
  /-- The seed of the random words, if one is given. -/
  seed : Option (BitVec 64)

namespace Simulation

variable {m : Type → Type} [Monad m] [Host m]

/-- The result of an access to the file for the output. -/
def recorded (name : String) : Except FileFault Unit → ExceptT ToolError m Unit
  | .error fault => throw (.record name fault)
  | .ok () => return

/-- The machine of a simulation, seeded by chance unless a seed is given. -/
def prepare (simulation : Simulation) (chance : BitVec 64) : ExceptT ToolError m Machine := do
  if let some name := simulation.output then
    if simulation.mode = .step then throw .stepIntoFile
    recorded name (← Host.writeFile (m := m) name .empty)
  let image ← Toolchain.linkInputs simulation.inputs simulation.base
  let seed := simulation.seed.getD chance
  return (Machine.initial image.memory image.start seed).withLimit simulation.limit

/-- Put what was written where it belongs. -/
def deliver (simulation : Simulation) (written : ByteArray) : ExceptT ToolError m Unit := do
  match simulation.output with
  | none => Host.print (m := m) written
  | some name => recorded name (← Host.appendFile (m := m) name written)

end Simulation

end PageMachine
