import PageMachine.Address
import PageMachine.Toolchain

/-!
# Commands

A command line names a tool, its input files and its options. Options stand before, between or
behind the inputs. The value of an option is the next argument, or is attached to the option:
behind an equals sign to its long name, directly or behind an equals sign to its letter. After
two dashes alone, all arguments are inputs.
-/

namespace PageMachine

/-- The tools. -/
inductive Tool where
  /-- The assembler. -/
  | assembler
  /-- The linker. -/
  | linker
  /-- The simulator. -/
  | simulator
  deriving DecidableEq, Repr

/-- The options of the tools. -/
inductive OptionKey where
  /-- The output file. -/
  | output
  /-- Whether the listing is printed. -/
  | list
  /-- The base address. -/
  | base
  /-- How much is shown. -/
  | runMode
  /-- The limit on the number of instructions. -/
  | maxInstructions
  /-- The seed of the random words. -/
  | seed
  deriving DecidableEq, Repr

namespace OptionKey

/-- The long name of an option. -/
def name : OptionKey → String
  | .output => "output"
  | .list => "list"
  | .base => "base"
  | .runMode => "run-mode"
  | .maxInstructions => "max-instructions"
  | .seed => "seed"

/-- The letter of an option, if it has one. -/
def letter? : OptionKey → Option Char
  | .output => some 'o'
  | .base => some 'b'
  | .runMode => some 'r'
  | .list | .maxInstructions | .seed => none

/-- Whether an option has a value. -/
def hasValue (key : OptionKey) : Bool :=
  key ≠ .list

end OptionKey

namespace Tool

/-- The name of a tool. -/
def name : Tool → String
  | .assembler => "asm16"
  | .linker => "ld16"
  | .simulator => "sim16"

/-- The tool of a name. -/
def ofName? (name : String) : Option Tool :=
  [assembler, linker, simulator].find? (·.name == name)

/-- The options of a tool. -/
def options : Tool → List OptionKey
  | .assembler => [.output, .list]
  | .linker => [.output, .base]
  | .simulator => [.output, .runMode, .base, .maxInstructions, .seed]

end Tool

/-- What is wrong with a command line. -/
inductive UsageError where
  /-- The tool has no such option. -/
  | unknownOption (argument : String)
  /-- An option has no value. -/
  | missingValue (key : OptionKey)
  /-- An option has a value but takes none. -/
  | unwantedValue (key : OptionKey)
  /-- An option is given twice. -/
  | repeatedOption (key : OptionKey)
  /-- The value of an option makes no sense. -/
  | badValue (key : OptionKey) (reason : String)
  /-- There is no input. -/
  | missingInput
  /-- There are more inputs than the tool takes. -/
  | unwantedInput (argument : String)
  /-- There is no output file. -/
  | missingOutput
  deriving DecidableEq, Repr

/-- The wording of an error. -/
def UsageError.message : UsageError → String
  | .unknownOption argument => "unknown option " ++ argument
  | .missingValue key => "option --" ++ key.name ++ " needs a value"
  | .unwantedValue key => "option --" ++ key.name ++ " takes no value"
  | .repeatedOption key => "option --" ++ key.name ++ " is given more than once"
  | .badValue key reason => "bad value for option --" ++ key.name ++ ": " ++ reason
  | .missingInput => "no input file is given"
  | .unwantedInput argument => "unexpected argument " ++ argument
  | .missingOutput => "no output file is given"

/-- One argument of a command line. -/
inductive Argument where
  /-- An input file. -/
  | input (name : String)
  /-- An option, with a value if one is attached. -/
  | option (key : OptionKey) (attached : Option String)
  /-- The end of the options. -/
  | endOfOptions
  deriving DecidableEq, Repr

namespace Argument

/-- An option that must be among those of a tool. -/
def known (text : List Char) (key? : Option OptionKey) (attached : Option (List Char)) :
    Except UsageError Argument :=
  match key? with
  | some key => .ok (.option key (attached.map String.ofList))
  | none => .error (.unknownOption (String.ofList text))

/-- The value attached to a long name. -/
def attachedToName (text : List Char) : Option (List Char) :=
  match text.dropWhile (· ≠ '=') with
  | [] => none
  | _ :: value => some value

/-- The value attached to a letter. -/
def attachedToLetter : List Char → Option (List Char)
  | [] => none
  | '=' :: value => some value
  | value => some value

/-- Classify an argument. -/
def ofText (tool : Tool) (text : List Char) : Except UsageError Argument :=
  match text with
  | ['-', '-'] => .ok .endOfOptions
  | '-' :: '-' :: rest =>
      let name := String.ofList (rest.takeWhile (· ≠ '='))
      known text (tool.options.find? (·.name == name)) (attachedToName rest)
  | '-' :: letter :: rest =>
      known text (tool.options.find? (·.letter? == some letter)) (attachedToLetter rest)
  | _ => .ok (.input (String.ofList text))

/-- Whether a text can be the value of the option before it. -/
def isValue (text : String) : Bool :=
  match text.toList with
  | '-' :: _ :: _ => false
  | _ => true

end Argument

/-- The arguments of a command line, sorted. -/
structure Arguments where
  /-- The input files, in order. -/
  inputs : List String
  /-- The options, with an empty value for one that takes none. -/
  options : List (OptionKey × String)

namespace Arguments

/-- The value of an option, if it is given. -/
def value? (arguments : Arguments) (key : OptionKey) : Option String :=
  arguments.options.lookup key

/-- Put an input in front. -/
def addInput (name : String) (arguments : Arguments) : Arguments :=
  { arguments with inputs := name :: arguments.inputs }

/-- Put an option in front. -/
def addOption (key : OptionKey) (value : String) (arguments : Arguments) :
    Except UsageError Arguments :=
  match arguments.value? key with
  | some _ => .error (.repeatedOption key)
  | none => .ok { arguments with options := (key, value) :: arguments.options }

/-- Sort the arguments of a tool. -/
def read (tool : Tool) : List String → Except UsageError Arguments
  | [] => .ok ⟨[], []⟩
  | argument :: rest => do
      match ← Argument.ofText tool argument.toList with
      | .input name => return (← read tool rest).addInput name
      | .endOfOptions => return ⟨rest, []⟩
      | .option key (some value) =>
          if key.hasValue then (← read tool rest).addOption key value
          else throw (.unwantedValue key)
      | .option key none =>
          if key.hasValue then
            match rest with
            | [] => throw (.missingValue key)
            | value :: others =>
                if Argument.isValue value then (← read tool others).addOption key value
                else throw (.missingValue key)
          else (← read tool rest).addOption key ""

/-- The value of an option in the sense of a reader, if the option is given. -/
def parsed? {α : Type} (arguments : Arguments) (key : OptionKey)
    (parse : String → Except String α) : Except UsageError (Option α) :=
  match arguments.value? key with
  | none => .ok none
  | some text =>
      match parse text with
      | .ok value => .ok (some value)
      | .error reason => .error (.badValue key reason)

/-- The output file, which must be given. -/
def output (arguments : Arguments) : Except UsageError String :=
  match arguments.value? .output with
  | some name => .ok name
  | none => .error .missingOutput

/-- The input files, of which there must be one. -/
def someInputs (arguments : Arguments) : Except UsageError (List String) :=
  if arguments.inputs.isEmpty then .error .missingInput else .ok arguments.inputs

/-- The input file, of which there must be no more than one. -/
def oneInput (arguments : Arguments) : Except UsageError String :=
  match arguments.inputs with
  | [] => .error .missingInput
  | [name] => .ok name
  | _ :: other :: _ => .error (.unwantedInput other)

end Arguments

/-- The mode of a name. -/
def RunMode.parse (name : String) : Except String RunMode :=
  match name with
  | "quiet" => .ok .quiet
  | "trace" => .ok .trace
  | "step" => .ok .step
  | _ => .error "the run mode is quiet, trace or step"

/-- A base address. -/
def parseBase (text : String) : Except String Word :=
  (parseAddress text).mapError AddressError.message

/-- The largest number of 64 bits. -/
def maxCount : Nat := 18446744073709551615

/-- A number of 64 bits in decimal. -/
def parseCount (text : String) : Except String Nat :=
  (Text.readUnsigned 10 maxCount text.toList).mapError Text.NumeralFault.message

/-- What a tool is asked to do. -/
inductive Command where
  /-- Assemble a source file. -/
  | assemble (input output : String) (list : Bool)
  /-- Link object files. -/
  | link (inputs : List String) (output : String) (base : Option Word)
  /-- Run object files. -/
  | simulate (simulation : Simulation)

namespace Command

/-- The command in the arguments of a tool. -/
def ofArguments (tool : Tool) (arguments : Arguments) : Except UsageError Command := do
  match tool with
  | .assembler =>
      return .assemble (← arguments.oneInput) (← arguments.output)
        (arguments.value? .list).isSome
  | .linker =>
      return .link (← arguments.someInputs) (← arguments.output)
        (← arguments.parsed? .base parseBase)
  | .simulator =>
      let seed ← arguments.parsed? .seed parseCount
      return .simulate
        { inputs := ← arguments.someInputs
          output := arguments.value? .output
          mode := (← arguments.parsed? .runMode RunMode.parse).getD .quiet
          base := ← arguments.parsed? .base parseBase
          limit := ← arguments.parsed? .maxInstructions parseCount
          seed := seed.map (BitVec.ofNat 64) }

/-- Read the command line of a tool. -/
def parse (tool : Tool) (arguments : List String) : Except UsageError Command := do
  ofArguments tool (← Arguments.read tool arguments)

end Command

end PageMachine
