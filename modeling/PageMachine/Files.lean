import Std.Data.ExtTreeMap

/-!
# Files

The tools read and write whole files by name and print on the standard output. `Host` is what
they need of their surroundings, so that the same tool runs on the files of a computer and on a
`Workspace`, which is nothing but a map from names to contents with what has been printed. A
directory of a workspace is there exactly if a file lies in it; the directory of plain names is
always there.
-/

namespace PageMachine

/-- Why a file cannot be read or written. -/
inductive FileFault where
  /-- There is no such file, or no directory for it. -/
  | notFound
  /-- The file holds bytes that encode no text. -/
  | notText
  /-- Another reason. -/
  | other (reason : String)
  deriving DecidableEq, Repr

/-- The wording of a fault. -/
def FileFault.message : FileFault → String
  | .notFound => "No such file or directory (os error 2)"
  | .notText => "stream did not contain valid UTF-8"
  | .other reason => reason

/-- The surroundings of a tool, with actions in `m`. -/
class Host (m : Type → Type) where
  /-- Read a file. -/
  readFile : String → m (Except FileFault ByteArray)
  /-- Create a file with the given contents, or replace those it has. -/
  writeFile : String → ByteArray → m (Except FileFault Unit)
  /-- Add to the end of a file. -/
  appendFile : String → ByteArray → m (Except FileFault Unit)
  /-- Write to the standard output. -/
  print : ByteArray → m Unit

namespace FileName

/-- The part of a name behind the last slash. -/
def lastComponent (name : List Char) : List Char :=
  (name.reverse.takeWhile (· ≠ '/')).reverse

/-- The part of a name before the last slash, if there is one. -/
def directory (name : List Char) : List Char :=
  ((name.reverse.dropWhile (· ≠ '/')).drop 1).reverse

/-- The last component without its last dot and what follows, unless it begins with that dot. -/
def stem (name : List Char) : List Char :=
  match (lastComponent name).reverse.dropWhile (· ≠ '.') with
  | _ :: c :: before => (c :: before).reverse
  | _ => lastComponent name

end FileName

/-- Files by name. -/
structure FileStore where
  /-- The contents of each file. -/
  contents : Std.ExtTreeMap String ByteArray

namespace FileStore

/-- A store with the given files. -/
def ofList (files : List (String × ByteArray)) : FileStore :=
  ⟨files.foldl (fun contents file => contents.insert file.1 file.2) ∅⟩

/-- The contents of a file, if it is there. -/
def get? (store : FileStore) (name : String) : Option ByteArray :=
  store.contents[name]?

/-- Whether a directory is there. -/
def hasDirectory (store : FileStore) (directory : List Char) : Bool :=
  directory.isEmpty ||
    store.contents.keys.any fun name => (directory ++ ['/']).isPrefixOf name.toList

/-- Read a file. -/
def read (store : FileStore) (name : String) : Except FileFault ByteArray :=
  match store.get? name with
  | some bytes => .ok bytes
  | none => .error .notFound

/-- Whether a name can be that of a file: it is not empty and its directory is there. -/
def hasPlace (store : FileStore) (name : String) : Bool :=
  !name.isEmpty && store.hasDirectory (FileName.directory name.toList)

/-- Write a file. A store without a place for it stays as it is. -/
def write (store : FileStore) (name : String) (bytes : ByteArray) :
    Except FileFault Unit × FileStore :=
  if store.hasPlace name then (.ok (), ⟨store.contents.insert name bytes⟩)
  else (.error .notFound, store)

/-- Add to the end of a file. -/
def append (store : FileStore) (name : String) (bytes : ByteArray) :
    Except FileFault Unit × FileStore :=
  store.write name ((store.get? name).getD .empty ++ bytes)

end FileStore

/-- A host that is a value: its files and what has been printed. -/
structure Workspace where
  /-- The files. -/
  files : FileStore
  /-- The standard output. -/
  printed : ByteArray

namespace Workspace

/-- A workspace with files, where nothing has been printed. -/
def ofFiles (files : FileStore) : Workspace :=
  ⟨files, .empty⟩

/-- Change the files. -/
def change {α : Type} (access : FileStore → α × FileStore) : StateM Workspace α :=
  fun workspace =>
    let (result, files) := access workspace.files
    (result, { workspace with files := files })

instance : Host (StateM Workspace) where
  readFile name workspace := (workspace.files.read name, workspace)
  writeFile name bytes := change (·.write name bytes)
  appendFile name bytes := change (·.append name bytes)
  print bytes workspace := ((), { workspace with printed := workspace.printed ++ bytes })

end Workspace

end PageMachine
