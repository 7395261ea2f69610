import Stave.Program.Host

/-!
# Disks

A disk is a host in memory: it keeps files and folders by their places and finds them by their paths.
A path is walked name by name, from the folder that the disk is used in or, if it begins with a slash,
from the root.  Every place on the way must be a folder, so of several faults the one counts that the
walk meets first.
-/

namespace Stave.Program

/-- Why a disk does not do what it is asked for. -/
inductive DiskError
  /-- The path has a character in it that ends paths. -/
  | unusable
  | missing
  | notFolder
  | isFolder
  | nameTooLong
deriving DecidableEq, Repr

namespace DiskError

/-- The words for an error. -/
def message : DiskError → String
  | unusable => "file name contained an unexpected NUL byte"
  | missing => "No such file or directory (os error 2)"
  | notFolder => "Not a directory (os error 20)"
  | isFolder => "Is a directory (os error 21)"
  | nameTooLong => "File name too long (os error 36)"

end DiskError

/-- What stands at a place. -/
inductive Entry
  | folder
  | file (bytes : List UInt8)
  /-- A device without contents, which forgets what is written to it. -/
  | void
deriving DecidableEq, Repr

/-- A place: the names of the folders around it, from the root on, and its own. -/
abbrev Location := List String

/-- Files and folders. -/
structure Disk where
  /-- The folder that paths begin in. -/
  home : Location
  /-- What stands at each place; the first entry of a place counts. -/
  entries : List (Location × Entry)

namespace Disk

/-! ## Paths -/

/-- How many octets a name may have. -/
def nameLimit : Nat := 255

/-- How many octets a path may have. -/
def pathLimit : Nat := 4095

/-- The names that a path consists of.  Several slashes count as one. -/
def namesOf (path : String) : List String := (path.splitOn "/").filter (· != "")

/-- What is wrong with a path whatever the disk holds. -/
def fault? (path : String) : Option DiskError :=
  if path.contains '\x00' then some .unusable
  else if path.isEmpty then some .missing
  else if pathLimit < path.utf8ByteSize then some .nameTooLong
  else none

/-- What stands at a place.  The root is always there. -/
def entry? (d : Disk) (place : Location) : Option Entry :=
  if place.isEmpty then some .folder else d.entries.lookup place

/-- Goes from a folder to the place that a name stands for. -/
def enter (d : Disk) (place : Location) (name : String) : Except DiskError Location :=
  match d.entry? place with
  | none => .error .missing
  | some .folder =>
    if name = "." then .ok place
    else if name = ".." then .ok place.dropLast
    else if nameLimit < name.utf8ByteSize then .error .nameTooLong
    else .ok (place ++ [name])
  | some _ => .error .notFolder

/-- Goes where a path leads that has these names. -/
def walk (d : Disk) (path : String) (names : List String) : Except DiskError Location :=
  match fault? path with
  | some fault => .error fault
  | none => names.foldlM d.enter (if path.startsWith "/" then [] else d.home)

/-! ## Files -/

/-- Reads a file. -/
def read (d : Disk) (path : String) : Except DiskError (List UInt8) :=
  (d.walk path (namesOf path)).bind fun place =>
    match d.entry? place with
    | none => .error .missing
    | some .folder => .error .isFolder
    | some entry =>
      if path.endsWith "/" then .error .notFolder
      else match entry with
        | .file bytes => .ok bytes
        | _ => .ok []

/-- Writes a file, which may be new.  The folder around it is looked at first, and then a slash at the
end says that a folder is meant. -/
def write (d : Disk) (path : String) (bytes : List UInt8) : Except DiskError Disk := do
  let names := namesOf path
  let folder ← d.walk path (names.dropLast ++ ["."])
  if path.endsWith "/" then throw .isFolder
  let place ← d.enter folder (names.getLastD ".")
  match d.entry? place with
  | some .folder => throw .isFolder
  | some .void => return d
  | _ => return { d with entries := (place, .file bytes) :: d.entries }

/-- The disk as a host. -/
def host (userConfiguration : Option String) : Host (StateM Disk) :=
  { readBytes := fun path d => ((d.read path).mapError DiskError.message, d)
    writeBytes := fun path bytes d => match d.write path bytes with
      | .ok d => (.ok (), d)
      | .error e => (.error e.message, d)
    userConfiguration }

/-! ## New disks -/

/-- The folders that stand at the root of a new disk. -/
def rootFolders : List String :=
  ["bin", "boot", "dev", "etc", "home", "lib", "media", "mnt", "opt", "proc", "root", "run", "sbin",
   "srv", "sys", "tmp", "usr", "var"]

/-- The places of the folders around a place. -/
def around (place : Location) : List Location := (List.range place.length).map place.take

/-- A disk that is used in a folder that holds some files, each by its path. -/
def ofFiles (files : List (String × List UInt8)) : Disk :=
  let home := ["tmp", "home"]
  let placed := files.map fun (path, bytes) => (home ++ namesOf path, Entry.file bytes)
  let folders := home :: placed.flatMap (fun e => around e.1) ++ rootFolders.map ([·])
  { home
    entries := (["dev", "null"], .void) :: placed ++ folders.map fun place => (place, .folder) }

/-- The bytes of the file with a path, if there is one. -/
def file? (d : Disk) (path : String) : Option (List UInt8) := (d.read path).toOption

end Disk

end Stave.Program
