import Bytework.Path.Posix

/-!
# Entries

What is known of one object in a file tree at the time it was looked at.

* `EntryType`: the kinds of objects, with stable codes.
* `Entry`: name, path, type, size, times, permissions, owner and flags.
-/

namespace Bytework

/-- The kinds of objects that hold no bytes of their own. -/
inductive Special
  | fifo
  | socket
  | blockDevice
  | charDevice
  | other
  deriving DecidableEq, Repr

/-- The kinds of objects. -/
inductive EntryType
  | file
  | directory
  | symlink
  | special (kind : Special)
  deriving DecidableEq, Repr

namespace EntryType

/-- The kinds of objects in the order of their codes. -/
def all : List EntryType :=
  [.file, .directory, .symlink, .special .fifo, .special .socket, .special .blockDevice,
    .special .charDevice, .special .other]

/-- The code of a kind. -/
def code : EntryType → Nat
  | file => 0
  | directory => 1
  | symlink => 2
  | special .fifo => 3
  | special .socket => 4
  | special .blockDevice => 5
  | special .charDevice => 6
  | special .other => 7

/-- The kind that has a code. -/
def ofCode? (n : Nat) : Option EntryType := all[n]?

end EntryType

/-- What is known of one object. Times are seconds since the start of 1970; what cannot be told is
zero. -/
structure Entry where
  name : Name
  path : Path
  type : EntryType
  size : Nat
  /-- The size in whole blocks. -/
  allocatedSize : Nat
  modified : Nat
  accessed : Nat
  changed : Nat
  created : Nat
  /-- The permission bits, of which there are twelve. -/
  permissions : Nat
  uid : Nat
  gid : Nat
  /-- The name starts with a dot. -/
  hidden : Bool
  /-- Nobody may write. -/
  readonly : Bool
  system : Bool
  /-- A file that somebody may run. -/
  executable : Bool
  deriving DecidableEq, Repr

namespace Entry

/-- An entry of which only the path and the kind are known. -/
def new (path : Path) (type : EntryType) : Entry :=
  ⟨path.displayName, path, type, 0, 0, 0, 0, 0, 0, 0, 0, 0, false, false, false, false⟩

/-- Whether an entry is a regular file. -/
def isFile (entry : Entry) : Bool := entry.type == .file

/-- Whether an entry is a directory. -/
def isDirectory (entry : Entry) : Bool := entry.type == .directory

/-- Whether an entry is a symbolic link. -/
def isSymlink (entry : Entry) : Bool := entry.type == .symlink

end Entry

end Bytework
