import Bytework.Directory.Change

/-!
# Copying

Copies of directories. Links are copied as links, and a link in the place of a copy is taken away, so
that nothing is ever written through it. What was copied before a failure stays.

* `copy`: the files of a directory; `copyRecursive`: all that is below a path.
* `moveTo`: carries, or copies and then takes away; `backup`: a copy beside the first.
* `mirror`: a copy in the place of what was there; `sync`: a copy into what is there.
-/

namespace Bytework.Directory

variable {σ η : Type} (platform : Platform σ η)

/-- Where an entry is copied to in a directory. -/
def childOf (directory : Path) (entry : Entry) : Path :=
  directory.join (entry.path.fileName?.getD entry.name)

/-- Takes away what a path names if it is a link. -/
def unlinkSymlink (p : Path) : Action σ Unit := do
  if ← isSymlink platform p then platform.unlink p

/-- Copies an entry, to a number of levels. What is neither a file nor a directory nor a link is left
out. -/
def copyEntry : Nat → Entry → Path → Action σ Unit
  | 0, _, _ => throw .endless
  | levels + 1, entry, target => do
    unlinkSymlink platform target
    match entry.type with
    | .directory =>
      create platform target
      (← children platform entry.path).forM fun child =>
        copyEntry levels child (childOf target child)
    | .symlink =>
      let destination ← platform.readlink entry.path
      removeRecursive platform target
      platform.symlink destination target
    | .file =>
      let _ ← platform.copyFile entry.path target
    | .special _ => return ()

/-- Copies the files of a directory into another one. Its directories are made there and stay
empty. -/
def copy (source target : Path) : Action σ Unit := do
  requireDirectory platform source
  create platform target
  (← children platform source).forM fun child => do
    let place := childOf target child
    if child.isDirectory then
      unlinkSymlink platform place
      create platform place
    else withLevels platform place fun levels => copyEntry platform levels child place

/-- Whether a path lies at or below another by the text alone. -/
def isWithin (p top : Path) : Action σ Bool := do
  let cwd ← platform.getcwd
  return (cwd.join p).normalize.startsWith (cwd.join top).normalize

/-- Copies what a path names with all that is below it. A directory is not copied to a place in
itself. -/
def copyRecursive (source target : Path) : Action σ Unit := do
  let entry ← platform.lstat source
  if entry.isDirectory then
    if ← isWithin platform target source then throw (.intoItself source target)
  withLevels platform target fun levels => copyEntry platform levels entry target

/-- Carries what a path names to another path. If that cannot be done in one step, it is copied and
then taken away. -/
def moveTo (source target : Path) : Action σ Unit := do
  match ← (platform.rename source target).outcome with
  | .ok () => return ()
  | .error _ =>
    copyRecursive platform source target
    removeRecursive platform source

/-- A copy beside the first, with a suffix to its name. -/
def backup (p : Path) (suffix : List Char) : Action σ Path := do
  let p := p.trimmed
  if p.isEmpty then throw .emptyPath
  copyRecursive platform p (p ++ suffix)
  return p ++ suffix

/-- A copy of a directory in the place of what was there. -/
def mirror (source target : Path) : Action σ Unit := do
  requireDirectory platform source
  removeRecursive platform target
  copyRecursive platform source target

/-! ## Bringing up to date -/

/-- Whether a path names something of which a property holds; links are not followed. -/
def namesSuch (p : Path) (property : Entry → Bool) : Action σ Bool :=
  (platform.lstat p).succeeds property

/-- Copies all that is in a directory into another one, to a number of levels. What stands in the way
of a directory, or is a directory in the way of something else, is taken away. -/
def syncTree : Nat → Path → Path → Action σ Unit
  | 0, _, _ => throw .endless
  | levels + 1, source, target => do
    create platform target
    (← children platform source).forM fun child => do
      let place := childOf target child
      let inTheWay ← namesSuch platform place fun e => e.isDirectory != child.isDirectory
      if inTheWay then removeRecursive platform place
      if child.isDirectory then syncTree levels child.path place
      else withLevels platform place fun levels => copyEntry platform levels child place

/-- Takes away all below a directory that has no counterpart below another one, to a number of
levels. -/
def prune : Nat → Path → Path → Action σ Unit
  | 0, _, _ => throw .endless
  | levels + 1, source, target => do
    let names := (← children platform source).filterMap (·.path.fileName?)
    (← children platform target).forM fun extra =>
      match extra.path.fileName? with
      | none => return ()
      | some name =>
        if !names.contains name then
          withLevels platform target fun levels => removeEntry platform levels extra
        else if extra.isDirectory then prune levels (source.join name) extra.path
        else return ()

/-- Brings a directory up to date with another one. If that is asked for, what has no counterpart is
taken away at the end, when all is copied. -/
def sync (source target : Path) (deleteExtraneous : Bool) : Action σ Unit := do
  requireDirectory platform source
  withLevels platform target fun levels => syncTree platform levels source target
  if deleteExtraneous then
    withLevels platform target fun levels => prune platform levels source target

end Bytework.Directory
