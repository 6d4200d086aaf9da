import Bytework.Bytes.Basic
import Bytework.Volume.Entry
import Bytework.Volume.Forest

/-!
# Volumes

A file tree in memory. Every object stands once in a table, and an entry of the tree names an object
of the table by its number, so that two entries can share one file. The entries of a directory stand
in the order in which they came to be.

* `Object`, `Volume`: what is stored; `Rules`: what differs from one file system to another.
* `branch?`, `number?`, `object?`, `names`: what is found.
* `create`, `share`, `drop`, `carry`, `alter`: the changes that all calls are made of.
-/

namespace Bytework

/-- What is stored of an object beside its content. A mode may have bits beside those of the
permissions. -/
structure Attributes where
  mode : Nat
  modified : Nat
  accessed : Nat
  changed : Nat
  created : Nat
  uid : Nat
  gid : Nat
  system : Bool
  deriving DecidableEq, Repr

/-- Attributes with a mode and nothing else. -/
def Attributes.ofMode (mode : Nat) : Attributes := ⟨mode, 0, 0, 0, 0, 0, 0, false⟩

/-- What an object holds. The entries of a directory are known from the places of the volume. -/
inductive Content
  | file (data : Bytes)
  | directory
  | symlink (target : Path)
  | special (kind : Special)
  deriving DecidableEq, Repr

namespace Content

/-- The kind of an object. -/
def type : Content → EntryType
  | file _ => .file
  | directory => .directory
  | symlink _ => .symlink
  | special kind => .special kind

/-- The number of bytes of a file, or of the target of a link. -/
def size : Content → Nat
  | file data => data.length
  | symlink target => (Bytes.ofChars target).length
  | _ => 0

/-- The data of a file. -/
def data : Content → Bytes
  | file data => data
  | _ => []

/-- The content after data was written over it. Only a file keeps any. -/
def filled (data : Bytes) : Content → Content
  | file _ => file data
  | content => content

end Content

/-- An object. -/
structure Object where
  content : Content
  attributes : Attributes
  deriving DecidableEq, Repr

/-- The permission bits of a mode. -/
def permissionBits (mode : Nat) : Nat := mode % 4096

/-- A new object with a mode. -/
def Object.new (content : Content) (mode : Nat) : Object := ⟨content, .ofMode mode⟩

/-- The bit by which a directory hands on its group. -/
def setgidBit : Nat := 0o2000

/-- A new object in a directory. With the setgid bit the directory hands on its group, and to a directory
the bit, too. -/
def Object.heirOf (object directory : Object) : Object :=
  let attributes := object.attributes
  if directory.attributes.mode &&& setgidBit = 0 then object
  else
    { object with
      attributes := { attributes with
        mode := if object.content = .directory then attributes.mode ||| setgidBit else attributes.mode
        gid := directory.attributes.gid } }

/-- Whether the owner of an object may read it. -/
def Object.readable (object : Object) : Bool := object.attributes.mode &&& 0o400 != 0

/-- What differs from one file system to another. -/
inductive Rules
  /-- Of a path only the names count, a new directory has the mode that it was asked for, and what is
  copied hands on its mode to whatever stands in its place. -/
  | plain
  /-- A slash or a dot at the end of a path asks for a directory, the mode of a new directory lacks the
  bits of the mask, a directory with the setgid bit hands on the bit and the group, and a copy leaves the
  attributes of what is no file. -/
  | posix (umask : Nat)
  deriving DecidableEq, Repr

/-- Whether the end of a path counts. -/
def Rules.isPosix : Rules → Bool
  | plain => false
  | posix _ => true

/-- A file tree. -/
structure Volume where
  /-- The entries of the root. -/
  entries : Forest
  /-- The objects by their numbers. The root has the number zero. -/
  objects : Array Object
  /-- Where relative paths start. -/
  cwd : Path
  /-- Where temporary directories are made. -/
  temp : Path
  rules : Rules
  deriving DecidableEq, Repr

namespace Volume

/-- A volume with nothing but a root. -/
def empty (cwd temp : Path) : Volume := ⟨.empty, #[.new .directory 0o755], cwd, temp, .plain⟩

/-! ## What is found -/

/-- What stands at the root. -/
def root (v : Volume) : Branch := ⟨0, v.entries⟩

/-- What stands at a place. -/
def branch? (v : Volume) (place : Place) : Option Branch := v.root.at? place

/-- The number of the object at a place. -/
def number? (v : Volume) (place : Place) : Option Nat := (v.branch? place).map (·.number)

/-- The object at a place. -/
def object? (v : Volume) (place : Place) : Option Object :=
  (v.number? place).bind fun number => v.objects[number]?

/-- The content of the object with a number. -/
def content? (v : Volume) (number : Nat) : Option Content := (v.objects[number]?).map (·.content)

/-- Whether there is a directory at a place. -/
def isDirectory (v : Volume) (place : Place) : Bool :=
  (v.object? place).any (·.content == .directory)

/-- The names in a directory, in the order of their creation. -/
def names (v : Volume) (directory : Place) : List Name :=
  (v.branch? directory).elim [] (·.inner.names)

/-! ## What is changed -/

/-- A new object at a new place. -/
def create (v : Volume) (place : Place) (object : Object) : Volume :=
  { v with
    entries := v.entries.put ⟨v.objects.size, .empty⟩ place
    objects := v.objects.push object }

/-- A further place for the object at a place. -/
def share (v : Volume) (place source : Place) : Volume :=
  (v.number? source).elim v fun number =>
    { v with entries := v.entries.put ⟨number, .empty⟩ place }

/-- A volume without what is at and below a place. An object may still stand at other places. -/
def drop (v : Volume) (place : Place) : Volume := { v with entries := v.entries.drop place }

/-- What is at and below a place, at a new place and behind all others there. -/
def carry (v : Volume) (old new : Place) : Volume :=
  (v.branch? old).elim v fun branch =>
    { v with entries := (v.entries.drop old).put branch new }

/-- A change of the object at a place, and so at all places that share it. -/
def alter (v : Volume) (place : Place) (change : Object → Object) : Volume :=
  match v.number? place with
  | none => v
  | some number => { v with objects := v.objects.modify number change }

end Volume

end Bytework
