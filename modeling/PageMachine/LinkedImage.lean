import PageMachine.ObjectModule
import PageMachine.Text.Blank

/-!
# Linked images

Linking puts modules into one memory. The first module stays where it is or moves to a base
address; each later relocatable module follows the last word of the one before it, and absolute
modules stay. The words of the modules are joined, and then each imported field takes the value
that another module exports under its name. Several modules have to end up on one page, since
they may refer to one another by page offsets.

Linking stops at the first thing wrong: placement, then exports, overlaps, imports, and the page.
-/

namespace PageMachine

/-- A program ready to run. -/
structure LinkedImage where
  /-- Its words. -/
  memory : Memory
  /-- The address at which execution starts. -/
  start : Word
  /-- The name of its segment. -/
  segmentName : String

/-- An address as messages of the linker show it. -/
def upperAddress (address : Word) : String :=
  "0x" ++ String.ofList (Text.hex 4 address.toNat)

/-- The wording of an error. -/
def LinkError.message (error : LinkError) : String :=
  let trimmed (name : String) : String := String.ofList (Text.trimEnd name.toList)
  "Link error: " ++
    match error with
    | .noModules => "No object modules to link."
    | .absoluteModuleMoved name origin base =>
        "Module \"" ++ trimmed name ++ "\" has absolute origin " ++ upperAddress origin ++
          " and cannot be moved to " ++ upperAddress base ++ "."
    | .addressSpaceExhausted name =>
        "Module \"" ++ trimmed name ++ "\" does not fit in memory."
    | .overlap address => "Modules overlap at address " ++ upperAddress address ++ "."
    | .duplicateExport name => "Symbol \"" ++ name ++ "\" is exported by more than one module."
    | .undefinedSymbol name => "Undefined symbol \"" ++ name ++ "\"."
    | .crossesPage first last =>
        "Linked program spans more than one page (" ++ upperAddress first ++ " to " ++
          upperAddress last ++ ")."

namespace ObjectModule

/-- The address behind the last word, where the next module goes. Words reserved at the end and
never written are not kept. -/
def nextAddress (module : ObjectModule) : Nat :=
  match module.last? with
  | some last => last.toNat + 1
  | none => module.origin.toNat

/-- The place of the first module. -/
def placeFirst (module : ObjectModule) (base : Option Word) : Except LinkError ObjectModule :=
  match base with
  | none => .ok module
  | some address =>
      if module.relocatable then module.relocate address
      else if address = module.origin then .ok module
      else .error (.absoluteModuleMoved module.segmentName module.origin address)

/-- The place of a module that follows another. -/
def placeAfter (module previous : ObjectModule) : Except LinkError ObjectModule :=
  if ¬module.relocatable then .ok module
  else if previous.nextAddress < addressLimit then
    module.relocate (BitVec.ofNat 16 previous.nextAddress)
  else .error (.addressSpaceExhausted module.segmentName)

end ObjectModule

namespace LinkedImage

/-- Place modules behind one that has its place. -/
def placeRest (previous : ObjectModule) : List ObjectModule → Except LinkError (List ObjectModule)
  | [] => .ok []
  | module :: rest => do
      let placed ← module.placeAfter previous
      let others ← placeRest placed rest
      return placed :: others

/-- Add exported symbols to those already collected. -/
def addExports (exports : Std.ExtTreeMap String Symbol) :
    List (String × Symbol) → Except LinkError (Std.ExtTreeMap String Symbol)
  | [] => .ok exports
  | (name, symbol) :: rest =>
      if exports.contains name then .error (.duplicateExport name)
      else addExports (exports.insert name symbol) rest

/-- The exported symbols of all modules. -/
def collectExports (modules : List ObjectModule) :
    Except LinkError (Std.ExtTreeMap String Symbol) :=
  addExports ∅ (modules.flatMap fun module => module.exports.exports)

/-- Write words at addresses that have none yet. -/
def join (memory : Memory) : List (Word × Word) → Except LinkError Memory
  | [] => .ok memory
  | (address, word) :: rest =>
      if memory.contains address then .error (.overlap address)
      else join (memory.write address word) rest

/-- The words of all modules in one memory. -/
def joinModules (modules : List ObjectModule) : Except LinkError Memory :=
  join .empty (modules.flatMap fun module => module.memory.toList)

/-- Fill imported fields one after the other. -/
def patch (exports : Std.ExtTreeMap String Symbol) (memory : Memory) :
    List ImportSite → Except LinkError Memory
  | [] => .ok memory
  | site :: rest =>
      match exports[site.name]? with
      | none => .error (.undefinedSymbol site.name)
      | some symbol =>
          let word := site.field.insert (memory.read site.address) symbol.value
          patch exports (memory.write site.address word) rest

/-- Whether all words lie on one page. -/
def checkPage (memory : Memory) : Except LinkError Unit :=
  match memory.first?, memory.last? with
  | some first, some last =>
      if pageOf first = pageOf last then .ok () else .error (.crossesPage first last)
  | _, _ => .ok ()

/-- Join modules that have their places. -/
def ofPlaced (first : ObjectModule) (rest : List ObjectModule) : Except LinkError LinkedImage := do
  let modules := first :: rest
  let exports ← collectExports modules
  let joined ← joinModules modules
  let memory ← patch exports joined (modules.flatMap ObjectModule.imports)
  if ¬rest.isEmpty then checkPage memory
  return ⟨memory, first.start, first.segmentName⟩

/-- The lowest address of the segment that holds the image: that of a word or of the start. -/
def first (image : LinkedImage) : Word :=
  match image.memory.first? with
  | some address => if address ≤ image.start then address else image.start
  | none => image.start

/-- The highest address of the segment that holds the image. -/
def last (image : LinkedImage) : Word :=
  match image.memory.last? with
  | some address => if image.start ≤ address then address else image.start
  | none => image.start

/-- The number of words of the segment that holds the image. -/
def length (image : LinkedImage) : Word :=
  if image.memory.size = 0 then 0 else image.last - image.first + 1

/-- The records of an absolute object file that holds the image. -/
def records (image : LinkedImage) : List Record :=
  .header image.segmentName (some image.first) image.length ::
    image.memory.toList.map (fun entry => .text ⟨entry.1, entry.2, none⟩) ++
    [.finish image.start]

/-- The text of an object file that holds the image. -/
def objectText (image : LinkedImage) : String :=
  Record.fileText image.records

end LinkedImage

/-- Link modules, the first of them at a base address if one is given. -/
def link (modules : List ObjectModule) (base : Option Word) : Except LinkError LinkedImage :=
  match modules with
  | [] => .error .noModules
  | first :: rest => do
      let placed ← first.placeFirst base
      let others ← LinkedImage.placeRest placed rest
      LinkedImage.ofPlaced placed others

end PageMachine
