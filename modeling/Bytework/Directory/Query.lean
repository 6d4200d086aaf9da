import Bytework.Directory.Walk

/-!
# Queries

What can be asked about a file tree.

* `present`, `isDirectory`, `isFile`, `isSymlink`: checks that take a failure for a no.
* `children`, `count`, `isEmpty`, `list`, `size`: what is in a directory.
* `scan`: a visitor over the entries; `survey`: a walk with all that happens on it.
-/

namespace Bytework.Directory

variable {σ η τ : Type} (platform : Platform σ η)

/-! ## Single entries -/

/-- Whether a path names anything, a link that leads nowhere included. -/
def present (p : Path) : Action σ Bool := (platform.lstat p).succeeds fun _ => true

/-- Whether a path names a directory, or a link to one. -/
def isDirectory (p : Path) : Action σ Bool := (platform.stat p).succeeds Entry.isDirectory

/-- Whether a path names a regular file, or a link to one. -/
def isFile (p : Path) : Action σ Bool := (platform.stat p).succeeds Entry.isFile

/-- Whether a path names a symbolic link. -/
def isSymlink (p : Path) : Action σ Bool := (platform.lstat p).succeeds Entry.isSymlink

/-- Fails unless a path names a directory, or a link to one. -/
def requireDirectory (p : Path) : Action σ Unit := do
  if !(← platform.stat p).isDirectory then throw (.notDirectory p)

/-- The time of the last modification. -/
def modified (p : Path) : Action σ Nat := Entry.modified <$> platform.stat p

/-- The time of creation. -/
def created (p : Path) : Action σ Nat := Entry.created <$> platform.stat p

/-- The permission bits. -/
def permissions (p : Path) : Action σ Nat := Entry.permissions <$> platform.stat p

/-! ## What is in a directory -/

/-- The entries that a walk from a directory gives. -/
def entries (options : WalkOptions) (p : Path) : Action σ (List Entry) :=
  Walk.within platform options p (Walk.all platform (Walk.next platform))

/-- The entries directly in a directory. -/
def children (p : Path) : Action σ (List Entry) := entries platform {} p

/-- Whether there is nothing in a directory. -/
def isEmpty (p : Path) : Action σ Bool :=
  Walk.within platform {} p (Option.isNone <$> Walk.next platform)

/-- The number of entries directly in a directory. -/
def count (p : Path) : Action σ Nat := List.length <$> children platform p

/-- Entries directly in a directory, at most a number of them. -/
def list (p : Path) (limit : Nat) : Action σ (List Entry) :=
  Walk.within platform {} p (Walk.take (Walk.next platform) limit)

/-- The size of a regular file. -/
def fileSize (entry : Entry) : Nat := if entry.isFile then entry.size else 0

/-- The sum of some numbers in a machine word. -/
def wordSum (ns : List Nat) : UInt64 := ns.foldl (fun sum n => sum + .ofNat n) 0

/-- The size of a file, or of all files below a directory together as far as a machine word holds it.
Links count as nothing. -/
def size (p : Path) : Action σ Nat := do
  let entry ← platform.lstat p
  if entry.isDirectory then
    return (wordSum ((← entries platform .deep p).map fileSize)).toNat
  else return fileSize entry

/-! ## Visitors -/

/-- Shows the entries of a walk to a visitor, which has a state of its own, until it has seen enough
or there are no more. -/
def drive (visit : τ → Entry → τ × Bool) : Nat → τ → Walking σ η (τ × Option Failure)
  | 0, t => return (t, some .endless)
  | n + 1, t => do
    match ← (Walk.next platform).outcome with
    | .error e => return (t, some e)
    | .ok none => return (t, none)
    | .ok (some entry) =>
      match visit t entry with
      | (t, true) => drive visit n t
      | (t, false) => return (t, none)

/-- Shows the entries of a walk from a directory to a visitor. The state of the visitor outlives a
failure. -/
def scan (options : WalkOptions) (p : Path) (visit : τ → Entry → τ × Bool) (t : τ) :
    Action σ (τ × Option Failure) := do
  match ← (Walk.start platform options p).outcome with
  | .error e => return (t, some e)
  | .ok walk =>
    Walk.finish platform walk <|
      .of fun (s, walk) => (drive platform visit (platform.extent s + 1) t).apply (s, walk)

/-- A walk with all that happened on it. -/
structure Survey where
  entries : List Entry
  /-- The failure that ended the walk. -/
  failed? : Option Failure
  /-- After a failure: whether the walk gave nothing more. -/
  ended : Bool
  /-- The failure to give the open directories back. -/
  closing? : Option Failure

/-- The failure of a result. -/
def failure? {α : Type} : Except Failure α → Option Failure
  | .error e => some e
  | .ok _ => none

/-- Whether a result is the end of a walk. -/
def isEnd : Except Failure (Option Entry) → Bool
  | .ok none => true
  | _ => false

/-- A walk from a directory up to its end, a failure, or a number of entries, and then closed. -/
def survey (options : WalkOptions) (p : Path) (limit? : Option Nat) : Action σ Survey :=
  Walk.within platform options p <| .of fun (s, walk) =>
    let visit (state : List Entry × Nat) (entry : Entry) : (List Entry × Nat) × Bool :=
      ((entry :: state.1, state.2 + 1), limit?.all (state.2 + 1 < ·))
    let body : Walking σ η Survey := do
      let ((entries, _), failed?) ←
        if limit? = some 0 then pure (([], 0), none)
        else drive platform visit (platform.extent s + 1) ([], 0)
      let ended ← if failed?.isSome then isEnd <$> (Walk.next platform).outcome else pure false
      let closing ← (Walk.close platform).outcome
      return ⟨entries.reverse, failed?, ended, failure? closing⟩
    body.apply (s, walk)

/-! ## Places -/

/-- Where temporary directories are made. -/
def temp (s : σ) : Path := platform.tempDir s

/-- The working directory. -/
def cwd : Action σ Path := platform.getcwd

/-- The absolute path without links. -/
def realpath (p : Path) : Action σ Path := platform.realpath p

end Bytework.Directory
