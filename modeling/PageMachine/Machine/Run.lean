import PageMachine.Machine

/-!
# Runs

A run executes instructions until the machine stops. In a trace the page of the program counter,
the registers and the name of the instruction are shown before each instruction, and the page and
the registers once more at the end; in step mode a byte of input is awaited before each.

A run need not end. `runFor` goes through a number of rounds and tells an end apart from a
machine that still runs, so that a run can be continued where it was left.
-/

namespace PageMachine

/-- How much of the machine's operation is shown. -/
inductive RunMode where
  /-- What the program itself writes. -/
  | quiet
  /-- The machine before each instruction, too. -/
  | trace
  /-- The same, with a pause for one byte of input before each instruction. -/
  | step
  deriving DecidableEq, Repr

/-- Whether the machine is shown. -/
def RunMode.shows : RunMode → Bool
  | .quiet => false
  | .trace | .step => true

namespace Machine

/-- The text that shows the page of the program counter and the registers. -/
def display (machine : Machine) : String :=
  machine.memory.pageText (pageOf machine.state.pc).toNat ++ machine.state.render

/-- Show the machine. -/
def showState {σ : Type} [Console σ] (machine : Machine) : Execution σ Unit :=
  Execution.call (Console.writeTrace machine.display)

/-- The line that announces an instruction. -/
def announcement (machine : Machine) : String :=
  "Executing instruction: " ++ machine.instruction.opcode.name ++ "\n"

/-- What comes before an instruction. -/
def announce {σ : Type} [Console σ] (machine : Machine) (mode : RunMode) : Execution σ Unit := do
  if mode.shows then machine.showState
  if mode = .step then
    let _ ← Execution.call (Console.readByte (σ := σ))
  if mode.shows then Execution.call (Console.writeTrace machine.announcement)

/-- What comes at the end. -/
def conclude {σ : Type} [Console σ] (machine : Machine) (mode : RunMode) :
    Execution σ MachineState := do
  if mode.shows then machine.showState
  return machine.state

/-- Announce and execute one instruction. A console that fails before the instruction raises an
alarm, but leaves the machine as it is. -/
def round {σ : Type} [Console σ] (mode : RunMode) (machine : Machine) (console : σ) :
    Except Alarm RunState × Machine × σ :=
  match (machine.announce mode).run console with
  | (.error alarm, after) => (.error alarm, machine, after)
  | (.ok (), after) => machine.step after

/-- Run for at most `rounds` instructions and the end. The result is missing if the machine still
runs. -/
def runFor {σ : Type} [Console σ] (mode : RunMode) :
    (rounds : Nat) → Machine → σ → Option (Except Alarm MachineState) × Machine × σ
  | 0, machine, console => (none, machine, console)
  | rounds + 1, machine, console =>
      if machine.runState = .running then
        match machine.round mode console with
        | (.error alarm, stopped, after) => (some (.error alarm), stopped, after)
        | (.ok _, next, after) => runFor mode rounds next after
      else
        match (machine.conclude mode).run console with
        | (.error alarm, after) => (some (.error alarm), machine, after)
        | (.ok state, after) => (some (.ok state), machine, after)

end Machine

end PageMachine
