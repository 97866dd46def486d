import PageMachine.Command
import PageMachine.Console.Scripted

/-!
# The command line

The first argument is the name of a tool, the others are those of the tool. A failure is reported
on the error output. A simulation is run one instruction at a time: what is written is delivered
at once, and an instruction that reads more than the operator has typed is taken up again, from
the state before it, when more has arrived.
-/

namespace PageMachine

/-- The fault of a file access that failed. -/
def fileFault : IO.Error → FileFault
  | .noFileOrDirectory .. => .notFound
  | error => .other (toString error)

/-- The result of a file access. -/
def attempt {α : Type} (access : IO α) : IO (Except FileFault α) := do
  try
    return .ok (← access)
  catch error =>
    return .error (fileFault error)

/-- Write all bytes to the standard output. -/
def printBytes (bytes : ByteArray) : IO Unit := do
  let output ← IO.getStdout
  output.write bytes
  output.flush

/-- Add bytes to the end of a file. -/
def appendBytes (name : String) (bytes : ByteArray) : IO Unit :=
  IO.FS.withFile name .append fun handle => handle.write bytes

instance : Host IO where
  readFile name := attempt (IO.FS.readBinFile name)
  writeFile name bytes := attempt (IO.FS.writeBinFile name bytes)
  appendFile name bytes := attempt (appendBytes name bytes)
  print := printBytes

/-- Run a machine to its end on a console whose first `shown` bytes have been delivered. -/
partial def operate (simulation : Simulation) (machine : Machine) (console : ScriptedConsole)
    (shown : Nat) : ExceptT ToolError IO Unit := do
  let (result?, next, after) := machine.runFor simulation.mode 1 console
  let written := after.buffer.output
  if shown < written.size then simulation.deliver (written.extract shown written.size)
  match result? with
  | none => operate simulation next after.flushed 0
  | some (.ok _) => return
  | some (.error (.console _)) =>
      let input ← IO.getStdin
      let bytes ← input.read 1
      operate simulation machine (console.supply bytes.data.toList) written.size
  | some (.error alarm) => throw (.stopped alarm)

/-- Do what a tool is asked to do. -/
def perform : Command → ExceptT ToolError IO Unit
  | .assemble input output list => Toolchain.assembleFile input output list
  | .link inputs output base => Toolchain.linkFiles inputs output base
  | .simulate simulation => do
      let chance ← IO.rand 1 maxCount
      let machine ← simulation.prepare (BitVec.ofNat 64 chance)
      operate simulation machine .waiting 0

/-- Report an error. -/
def complain (exit : UInt32) (message : String) : IO UInt32 := do
  IO.eprintln message
  return exit

/-- Run a tool. -/
def runTool (tool : Tool) (arguments : List String) : IO UInt32 := do
  match Command.parse tool arguments with
  | .error error => complain 2 error.message
  | .ok command =>
      match ← (perform command).run with
      | .ok () => return 0
      | .error error => complain 1 error.message

end PageMachine

/-- The program. -/
def main (arguments : List String) : IO UInt32 :=
  match arguments with
  | [] => PageMachine.complain 2 "no tool is given"
  | name :: rest =>
      match PageMachine.Tool.ofName? name with
      | some tool => PageMachine.runTool tool rest
      | none => PageMachine.complain 2 ("unknown tool " ++ name)
