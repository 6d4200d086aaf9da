import Bytework.Directory.Query

/-!
# Making and removing

* `create`: a directory with all its parents; `createTemp`: a new directory with a name of its own.
* `remove`, `removeRecursive`, `clear`: taking away; links are taken away and never followed.
* `rename`, `link`, `symlink`, `setPermissions`: the calls of a platform, checked where they need it.
-/

namespace Bytework.Directory

variable {σ η : Type} (platform : Platform σ η)

/-! ## Making directories -/

/-- The mode of a directory that is made. -/
def directoryMode : Nat := 0o755

/-- A path, its parent, and so on, at most `n` times, up to the first directory. Fails at what exists
and is no directory. -/
def missing : Nat → Path → Action σ (List Path)
  | 0, _ => return []
  | n + 1, p => do
    if p.isEmpty then return []
    match ← (platform.stat p).outcome with
    | .ok entry => if entry.isDirectory then return [] else throw (.occupied p)
    | .error _ =>
      match p.parent? with
      | none => return [p]
      | some parent => return p :: (← missing n parent)

/-- Makes one directory. A failure does not matter if there is one now. -/
def makeOne (p : Path) : Action σ Unit := do
  match ← (platform.mkdir p directoryMode).outcome with
  | .ok () => return ()
  | .error e => if !(← isDirectory platform p) then throw e

/-- Makes directories, one after the other. -/
def makeAll (ps : List Path) : Action σ Unit := ps.forM (makeOne platform)

/-- Makes a directory, and every parent of it that is missing. -/
def create (p : Path) : Action σ Unit := do
  if p.isEmpty then throw .emptyPath
  let ps ← missing platform p.length p
  makeAll platform ps.reverse

/-- The mode of a temporary directory. -/
def tempMode : Nat := 0o700

/-- How many names for a temporary directory are tried. -/
def tempAttempts : Nat := 1000

/-- A name for a temporary directory. The tag tells apart those who make them. -/
def tempName (tag : Name) (n : Nat) : Name :=
  "io-kit-".toList ++ tag ++ '-' :: Nat.toDigits 10 n

/-- Makes the first of some directories that does not exist yet; `none` if all of them do. -/
def makeFirst : List Path → Action σ (Option Path)
  | [] => return none
  | p :: ps => do
    match ← (platform.mkdir p tempMode).outcome with
    | .ok () => return some p
    | .error e => if e.errno? = some .entryExists then makeFirst ps else throw e

/-- Makes a new directory among the temporary ones, for its owner only. -/
def createTemp (tag : Name) : Action σ Path := do
  let base ← .of fun s => (.ok (platform.tempDir s), s)
  match ← makeFirst platform ((List.range tempAttempts).map fun n => base.join (tempName tag n)) with
  | some p => return p
  | none => throw (.noFreeName base tempAttempts)

/-! ## Taking away -/

/-- Takes away an empty directory. -/
def remove (p : Path) : Action σ Unit := platform.rmdir p

/-- Takes away an entry and all that is below it, to a number of levels. -/
def removeEntry : Nat → Entry → Action σ Unit
  | 0, _ => throw .endless
  | levels + 1, entry =>
    if entry.isDirectory then do
      (← children platform entry.path).forM (removeEntry levels)
      platform.rmdir entry.path
    else platform.unlink entry.path

/-- How many levels work at a path can go down and still end. A tree that is copied to a path in
itself gains the names of that path again and again, until a call fails; any other tree gains no
level beside those names. -/
def levels (p : Path) (s : σ) : Nat :=
  let extent := platform.extent s
  (extent + 1) * (extent + p.length + 1)

/-- Runs a computation with levels enough for work at a path. -/
def withLevels {α : Type} (p : Path) (body : Nat → Action σ α) : Action σ α :=
  .of fun s => (body (levels platform p s)).apply s

/-- Takes away what a path names with all that is below it. It need not exist. -/
def removeRecursive (p : Path) : Action σ Unit := do
  match ← (platform.lstat p).outcome with
  | .ok entry => withLevels platform p fun levels => removeEntry platform levels entry
  | .error e => if e.errno? ≠ some .noEntry then throw e

/-- Takes away all that is in a directory. -/
def clear (p : Path) : Action σ Unit := do
  requireDirectory platform p
  (← children platform p).forM fun entry =>
    withLevels platform p fun levels => removeEntry platform levels entry

/-! ## Single calls -/

/-- Carries what a path names to another path, in one step. -/
def rename (a b : Path) : Action σ Unit := platform.rename a b

/-- A further name for a regular file. -/
def link (target p : Path) : Action σ Unit := do
  if !(← platform.stat target).isFile then throw (.linkTarget target)
  platform.link target p

/-- A symbolic link. -/
def symlink (target p : Path) : Action σ Unit := platform.symlink target p

/-- Sets the permission bits. -/
def setPermissions (p : Path) (mode : Nat) : Action σ Unit := platform.chmod p mode

end Bytework.Directory
