import ScriptWasm.CommandLine.FileFault

/-!
A disk holds files. A place on it is given by the names on the way from the root, and a path is
followed name by name: from the root if it starts with a slash, and from the working folder
otherwise. Every name before the last has to lead to a folder, and so has a last name with a slash
behind it.
-/

namespace ScriptWasm

set_option autoImplicit false

structure Disk where
  /-- The files by their places. -/
  files : List (List String × ByteArray)
  /-- Folders that are there even if no file lies in them. -/
  folders : List (List String)
  /-- The working folder. -/
  here : List String

namespace Disk

inductive Entry where
  | nothing
  | file (bytes : ByteArray)
  | folder

inductive Target where
  /-- In a folder that is there. -/
  | folder
  /-- At a name in a folder that is there. A slash behind the name asks for a folder. -/
  | named (place : List String) (name : String) (slash : Bool)

/-- A folder is there if it is listed, or if the way to a file or to a listed folder goes through
it. -/
def isFolder (disk : Disk) (place : List String) : Bool :=
  (disk.here :: disk.folders).any place.isPrefixOf ||
    disk.files.any fun file => place ≠ file.1 && place.isPrefixOf file.1

def entry (disk : Disk) (place : List String) : Entry :=
  match disk.files.lookup place with
  | some bytes => .file bytes
  | none => if disk.isFolder place then .folder else .nothing

def maxName : Nat := 255

def maxPath : Nat := 4095

def checkName (name : String) : Except FileFault Unit :=
  if maxName < name.utf8ByteSize then .error .nameTooLong else .ok ()

/-- Goes on from a folder to the folder of the given name. The root is the folder around itself. -/
def enter (disk : Disk) (place : List String) (name : String) :
    Except FileFault (List String) :=
  if name = "." then .ok place
  else if name = ".." then .ok place.dropLast
  else do
    checkName name
    match disk.entry (place ++ [name]) with
    | .nothing => throw .missing
    | .file _ => throw .notFolder
    | .folder => return place ++ [name]

def target (disk : Disk) (path : String) : Except FileFault Target := do
  if path.isEmpty then throw .missing
  if maxPath < path.utf8ByteSize then throw .nameTooLong
  let start := if path.toList.head? = some '/' then [] else disk.here
  let names := (path.splitOn "/").filter (· ≠ "")
  let place ← names.dropLast.foldlM disk.enter start
  match names.getLast? with
  | none => return .folder
  | some name =>
      if name = "." || name = ".." then return .folder
      else return .named place name (path.toList.getLast? = some '/')

def read (disk : Disk) (path : String) : Except FileFault ByteArray := do
  match ← disk.target path with
  | .folder => throw .isFolder
  | .named place name slash =>
      checkName name
      match disk.entry (place ++ [name]) with
      | .nothing => throw .missing
      | .folder => throw .isFolder
      | .file bytes => if slash then throw .notFolder else return bytes

def put (place : List String) (bytes : ByteArray) :
    List (List String × ByteArray) → List (List String × ByteArray)
  | [] => [(place, bytes)]
  | (other, old) :: rest =>
      if other = place then (place, bytes) :: rest else (other, old) :: put place bytes rest

/-- Writes a file, which is made if it is not there. No folder is made. -/
def write (disk : Disk) (path : String) (bytes : ByteArray) : Except FileFault Disk := do
  match ← disk.target path with
  | .folder => throw .isFolder
  | .named place name slash =>
      if slash then throw .isFolder
      checkName name
      match disk.entry (place ++ [name]) with
      | .folder => throw .isFolder
      | _ => return { disk with files := put (place ++ [name]) bytes disk.files }

def filesHere (disk : Disk) : List (String × ByteArray) :=
  disk.files.filterMap fun (place, bytes) =>
    if disk.here.isPrefixOf place then
      some (String.intercalate "/" (place.drop disk.here.length), bytes)
    else none

def usualFolders : List String :=
  ["bin", "dev", "etc", "home", "lib", "opt", "proc", "root", "run", "sys", "tmp", "usr", "var"]

/-- A working folder that holds the given files by their paths in it, on a disk that has little else
than the usual folders and the null file. -/
def ofFiles (files : List (String × ByteArray)) : Disk :=
  let here := ["tmp", "work"]
  let inside := files.map fun (path, bytes) => (here ++ path.splitOn "/", bytes)
  ⟨inside ++ [(["dev", "null"], .empty)], usualFolders.map ([·]), here⟩

end Disk

end ScriptWasm
