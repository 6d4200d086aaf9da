import Bytework.Volume.Resolve

/-!
# File system calls

The calls that a volume answers. Those that change it give the changed volume; a call that fails
changes nothing. Permissions are stored and never checked.

* `stat`, `list`, `readlink`, `realpath`: what can be asked.
* `mkdir`, `rmdir`, `unlink`, `rename`, `chmod`, `symlink`, `link`, `copyFile`: what can be done.
-/

namespace Bytework

/-- The entry of an object under a path. -/
def Object.entry (object : Object) (path : Path) : Entry :=
  let name := path.displayName
  let size := object.content.size
  let mode := permissionBits object.attributes.mode
  { name, path, size
    type := object.content.type
    allocatedSize := (size + 511) / 512 * 512
    modified := object.attributes.modified
    accessed := object.attributes.accessed
    changed := object.attributes.changed
    created := object.attributes.created
    permissions := mode
    uid := object.attributes.uid
    gid := object.attributes.gid
    hidden := Path.isHidden name
    readonly := mode &&& 0o222 == 0
    system := object.attributes.system
    executable := object.content.type == .file && mode &&& 0o111 != 0 }

/-- An object with the data and the mode of a file that was copied over it. -/
def Object.overwritten (copy source : Object) : Object :=
  { content := copy.content.filled source.content.data
    attributes := { copy.attributes with
      mode := source.attributes.mode, modified := 0, accessed := 0, changed := 0, created := 0 } }

namespace Volume

/-! ## What can be asked -/

/-- The entry of a path. -/
def stat (v : Volume) (follow : Bool) (p : Path) : Except Errno Entry := do
  let (_, object) ← v.find follow p
  return object.entry p

/-- The names in a directory. -/
def list (v : Volume) (p : Path) : Except Errno (List Name) := do
  let (place, object) ← v.find true p
  if object.content = .directory then return v.names place else throw .notDirectory

/-- The target of a link. -/
def readlink (v : Volume) (p : Path) : Except Errno Path := do
  let (_, object) ← v.find false p
  match object.content with
  | .symlink target => return target
  | _ => throw .invalidArgument

/-- The absolute path without links and double dots. What is no directory is known by the name that
leads to it, so a path without names, which can name it only as the working place, does not do. -/
def realpath (v : Volume) (p : Path) : Except Errno Path := do
  let (place, object) ← v.find true p
  if p.names.isEmpty && object.content ≠ .directory then throw .noEntry
  return place.path

/-! ## What can be done -/

/-- Whether the last name of a path can be made or taken away. -/
def endsInName (v : Volume) (p : Path) : Bool :=
  p.hasLastName && !(v.rules.isPosix && p.endsInDot)

/-- The place that a path names, if something can be made there. -/
def vacant (v : Volume) (p : Path) : Except Errno Place := do
  let place ← v.seat p
  if v.endsInName p && (v.object? place).isNone then return place else throw .entryExists

/-- The place that a path names, if something other than a directory can be made there. -/
def vacantLeaf (v : Volume) (p : Path) : Except Errno Place := do
  let place ← v.vacant p
  if v.asks p then throw .noEntry else return place

/-- The place and the object that a path names, if it can be taken away. What has no name to be taken
away fails with `nameless`. -/
def removable (v : Volume) (p : Path) (nameless : Errno) : Except Errno (Place × Object) := do
  let place ← v.seat p
  if !v.endsInName p then throw nameless
  match v.object? place with
  | some object =>
    if v.asks p && object.content != .directory then throw .notDirectory
    return (place, object)
  | none => throw .noEntry

/-- The mode of a new directory for which a mode is asked. -/
def grantedMode (v : Volume) (mode : Nat) : Nat :=
  match v.rules with
  | .plain => permissionBits mode
  | .posix umask =>
    let bits := mode &&& 0o1777
    bits - (bits &&& umask)

/-- A new object with what the directory around its place hands on to it. -/
def adopt (v : Volume) (place : Place) (object : Object) : Object :=
  match v.rules, v.object? place.dropLast with
  | .posix _, some directory => object.heirOf directory
  | _, _ => object

/-- A new directory. -/
def mkdir (v : Volume) (p : Path) (mode : Nat) : Except Errno Volume := do
  let place ← v.vacant p
  return v.create place (v.adopt place (.new .directory (v.grantedMode mode)))

/-- Takes away an empty directory. -/
def rmdir (v : Volume) (p : Path) : Except Errno Volume := do
  let nameless :=
    if !v.rules.isPosix || p.names.isEmpty && !p.endsInDot then .busy
    else if p.endsInDot then .invalidArgument
    else .notEmpty
  let (place, object) ← v.removable p nameless
  if object.content ≠ .directory then throw .notDirectory
  if !(v.names place).isEmpty then throw .notEmpty
  return v.drop place

/-- Takes away what is no directory. -/
def unlink (v : Volume) (p : Path) : Except Errno Volume := do
  let nameless := if v.rules.isPosix then .isDirectory else .busy
  let (place, object) ← v.removable p nameless
  if object.content = .directory then throw .isDirectory
  return v.drop place

/-- Whether what stands at `old` may take the place of `target`, which stands at `new`. -/
def checkReplace (v : Volume) (source target : Object) (new : Place) : Except Errno Unit :=
  match source.content, target.content with
  | .directory, .directory => if (v.names new).isEmpty then .ok () else .error .notEmpty
  | .directory, _ => .error .notDirectory
  | _, .directory => .error .isDirectory
  | _, _ => .ok ()

/-- Carries what a path names to another path, over what may stand there. -/
def rename (v : Volume) (a b : Path) : Except Errno Volume := do
  let old ← v.seat a
  let new ← v.seat b
  if !(v.endsInName a && v.endsInName b) then throw .busy
  match v.object? old with
  | none => throw .noEntry
  | some source =>
    if (v.asks a || v.asks b) && source.content != .directory then throw .notDirectory
    if source.content = .directory && Place.within new.dropLast old then throw .invalidArgument
    match v.object? new with
    | none => return v.carry old new
    | some target =>
      if target.content = .directory && Place.within old.dropLast new then throw .notEmpty
      if v.number? old = v.number? new then return v
      v.checkReplace source target new
      return (v.drop new).carry old new

/-- Sets the permission bits. -/
def chmod (v : Volume) (p : Path) (mode : Nat) : Except Errno Volume := do
  let (place, _) ← v.find true p
  return v.alter place fun object =>
    { object with attributes := { object.attributes with mode := permissionBits mode } }

/-- A new symbolic link. -/
def symlink (v : Volume) (target path : Path) : Except Errno Volume := do
  if target.isEmpty then throw .noEntry
  let place ← v.vacantLeaf path
  return v.create place (v.adopt place (.new (.symlink target) 0o777))

/-- A further place for an object that is no directory. -/
def link (v : Volume) (target path : Path) : Except Errno Volume := do
  let (source, object) ← v.find false target
  let place ← v.vacantLeaf path
  if object.content = .directory then throw .notPermitted
  return v.share place source

/-- The place that a copy is written to. By the POSIX rules it is made where a link leads to nothing, and
by the plain ones the link is in its way. -/
def destination (v : Volume) (p : Path) : Except Errno Place :=
  match v.rules with
  | .plain =>
    match v.find true p with
    | .ok (place, _) => .ok place
    | .error .noEntry => v.vacant p
    | .error e => .error e
  | .posix _ =>
    if v.asks p then do
      let _ ← v.seat p
      throw .isDirectory
    else v.reach true p

/-- Whether an object takes part in a copy that is written over it. By the POSIX rules only a file does:
what is written to a pipe or a device is gone, and its attributes stay. -/
def rewrites (v : Volume) (object : Object) : Bool :=
  !v.rules.isPosix || object.content.type == .file

/-- A file made empty, or a new one, at a place that a path reaches. What is neither a file nor a
directory has no data that could be taken away; a socket cannot even be opened by the POSIX rules, for
which the numbers here have no error of its own. -/
def truncate (v : Volume) (place : Place) (mode : Nat) : Except Errno Volume :=
  match v.object? place with
  | none => .ok (v.create place (v.adopt place (.new (.file []) mode)))
  | some object =>
    if object.content = .directory then .error .isDirectory
    else if v.rules.isPosix && object.content == .special .socket then .error .inputOutput
    else .ok (v.alter place fun object => { object with content := object.content.filled [] })

/-- Copies the data and the mode of a file. The copy is emptied before the data is read, so a file
copied onto itself ends empty. Gives the number of bytes. -/
def copyFile (v : Volume) (a b : Path) : Except Errno (Nat × Volume) := do
  let (source, object) ← v.find true a
  if object.content.type ≠ .file then throw .invalidArgument
  let place ← v.destination b
  let v ← v.truncate place object.attributes.mode
  let object := (v.object? source).getD object
  return (object.content.size,
    v.alter place fun copy => if v.rewrites copy then copy.overwritten object else copy)

end Volume

end Bytework
