import PageMachine.Memory
import PageMachine.Record

/-!
# Object modules

A module is the content of one object file: the words of a segment, the tags of those that
move, the symbols it exports, and the fields that other modules fill. A relocatable module can be
moved. Every address in it then shifts by the same distance, and so do the tagged fields and the
values of relocatable exports; all other bits stay. Since addresses are words, the distance
counts modulo their number, and moving back restores the module.
-/

namespace PageMachine

/-- The content of an object file. -/
structure ObjectModule where
  /-- The name of the segment. -/
  segmentName : String
  /-- The first address of the segment, zero for a relocatable module that was not moved. -/
  origin : Word
  /-- The number of words of the segment, those not written included. -/
  length : Word
  /-- Whether the module can be moved. -/
  relocatable : Bool
  /-- The address at which execution starts. -/
  start : Word
  /-- The words written. -/
  memory : Memory
  /-- The tags of the words that move in part. -/
  relocations : Std.ExtTreeMap Word Relocation
  /-- The symbols that other modules may use. -/
  exports : SymbolTable
  /-- The fields that other modules fill, in the order of the file. -/
  imports : List ImportSite

/-- Why modules cannot be linked. -/
inductive LinkError where
  /-- There are none. -/
  | noModules
  /-- A module is asked to leave the place where it belongs. -/
  | absoluteModuleMoved (name : String) (origin base : Word)
  /-- A module would reach beyond the address space. -/
  | addressSpaceExhausted (name : String)
  /-- Two modules write the same address. -/
  | overlap (address : Word)
  /-- Two modules export the same name. -/
  | duplicateExport (name : String)
  /-- No module exports a name that one imports. -/
  | undefinedSymbol (name : String)
  /-- Several modules together do not stay on one page. -/
  | crossesPage (first last : Word)
  deriving DecidableEq, Repr

namespace ObjectModule

/-- One past the last address of the segment. -/
def stop (module : ObjectModule) : Nat :=
  module.origin.toNat + module.length.toNat

/-- The highest address written. -/
def last? (module : ObjectModule) : Option Word :=
  module.memory.last?

/-- The tag of the word at an address. -/
def tag? (module : ObjectModule) (address : Word) : Option Relocation :=
  module.relocations[address]?

/-- An address moved by a distance. -/
def shift (delta : Int) (address : Word) : Word :=
  address + BitVec.ofInt 16 delta

/-- A word after a move: the tagged field, if there is one, has the distance added. -/
def movedWord (delta : Int) (tag : Option Relocation) (word : Word) : Word :=
  match tag with
  | some relocation => relocation.field.add word delta
  | none => word

/-- The module moved by a distance. -/
def shiftBy (module : ObjectModule) (delta : Int) : ObjectModule :=
  { module with
    origin := shift delta module.origin
    start := shift delta module.start
    memory := Memory.empty.writeAll <| module.memory.toList.map fun entry =>
      (shift delta entry.1, movedWord delta (module.tag? entry.1) entry.2)
    relocations := .ofList (module.relocations.toList.map fun entry =>
      (shift delta entry.1, entry.2)) compare
    exports := module.exports.relocate delta
    imports := module.imports.map fun site => { site with address := shift delta site.address } }

/-- The module moved to an origin. -/
def relocate (module : ObjectModule) (origin : Word) : Except LinkError ObjectModule :=
  if ¬module.relocatable then
    .error (.absoluteModuleMoved module.segmentName module.origin origin)
  else if addressLimit < origin.toNat + module.length.toNat then
    .error (.addressSpaceExhausted module.segmentName)
  else .ok (module.shiftBy ((origin.toNat : Int) - module.origin.toNat))

end ObjectModule

end PageMachine
