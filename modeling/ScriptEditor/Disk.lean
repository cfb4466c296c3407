import ScriptEditor.Failure

namespace ScriptEditor

inductive Entry
  | folder
  | file (bytes : ByteArray)

/-- The entries by the names that lead to them from the root, and the folder at which paths start
that do not start at the root. -/
structure Disk where
  entry? : List Text → Option Entry
  workingFolder : List Text

inductive ReadFault
  | nulInPath
  | pathTooLong
  | notFound
  | notFolder
  | isFolder
  | notUtf8
deriving DecidableEq, Repr

namespace ReadFault

def message : ReadFault → Text
  | nulInPath => "file name contained an unexpected NUL byte".toList
  | pathTooLong => "File name too long (os error 36)".toList
  | notFound => "No such file or directory (os error 2)".toList
  | notFolder => "Not a directory (os error 20)".toList
  | isFolder => "Is a directory (os error 21)".toList
  | notUtf8 => "stream did not contain valid UTF-8".toList

end ReadFault

namespace Disk

/-- Most bytes of a name. -/
def maxName : Nat := 255

/-- Most bytes of a path. -/
def maxPath : Nat := 4095

/-- The parts between slashes; the empty ones are kept. -/
def splitPath (path : Text) : List Text := path.splitOn '/'

/-- Follows the names from a place on the disk. Empty names and the dot stay in the folder, two dots
lead to the folder above, and above the root is the root. -/
def follow (disk : Disk) (place : List Text) : List Text → Except ReadFault Entry
  | [] =>
    match disk.entry? place with
    | none => .error .notFound
    | some e => .ok e
  | name :: rest =>
    match disk.entry? place with
    | none => .error .notFound
    | some (.file _) => .error .notFolder
    | some .folder =>
      if name = [] || name = ['.'] then follow disk place rest
      else if name = ['.', '.'] then follow disk place.dropLast rest
      else if maxName < name.byteLength then .error .pathTooLong
      else follow disk (place ++ [name]) rest

def lookUp (disk : Disk) (path : Text) : Except ReadFault Entry :=
  if path.contains '\x00' then .error .nulInPath
  else if maxPath < path.byteLength then .error .pathTooLong
  else if path.isEmpty then .error .notFound
  else
    let place := if path.head? = some '/' then [] else disk.workingFolder
    follow disk place (splitPath path)

/-- The text that the bytes are the UTF-8 form of. -/
def decode (bytes : ByteArray) : Except ReadFault Text :=
  match String.fromUTF8? bytes with
  | some s => .ok s.toList
  | none => .error .notUtf8

def read (disk : Disk) (path : Text) : Except ReadFault Text := do
  match ← disk.lookUp path with
  | .folder => .error .isFolder
  | .file bytes => decode bytes

def readScript (disk : Disk) (path : Text) : Except Failure Text :=
  (disk.read path).mapError fun fault => .unreadable path fault.message

/-- The folders that a fresh system has below its root. -/
def freshFolders : List Text :=
  ["bin", "boot", "dev", "etc", "home", "lib", "media", "mnt", "opt", "proc", "root", "run", "sbin",
    "srv", "sys", "tmp", "usr", "var"].map String.toList

/-- The empty folder in which a fresh system works. -/
def freshHome : List Text := ["home".toList, "user".toList]

def nullDevice : List Text := ["dev".toList, "null".toList]

/-- A fresh system: the folders below the root, the folder to work in, and the null device. -/
def fresh : Disk where
  entry? := fun path =>
    if path = [] || path = freshHome then some .folder
    else if path = nullDevice then some (.file .empty)
    else if freshFolders.any (path = [·]) then some .folder
    else none
  workingFolder := freshHome

/-- The disk with one more file. -/
def withFile (disk : Disk) (path : List Text) (bytes : ByteArray) : Disk :=
  { disk with entry? := fun p => if p = path then some (.file bytes) else disk.entry? p }

end Disk

end ScriptEditor
