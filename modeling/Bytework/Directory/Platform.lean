import Bytework.Directory.Failure
import Bytework.Volume.Entry

/-!
# Platforms

The calls that operations on file trees are made of, over any kind of state.

* `Action`: a computation that can fail and keeps the state in either case.
* `Platform`: the calls, with `σ` for the state and `η` for open directories.
-/

namespace Bytework

/-- A computation on a state that can fail; the state outlives a failure. -/
abbrev Action (σ : Type) := ExceptT Failure (StateM σ)

namespace Action

variable {σ α : Type}

/-- The computation of a function that gives the result and the state. -/
def of (f : σ → Except Failure α × σ) : Action σ α := ExceptT.mk f

/-- The result of a computation and the state after it. -/
def apply (a : Action σ α) (s : σ) : Except Failure α × σ := StateT.run (ExceptT.run a) s

/-- A computation whose failure is a result. -/
def outcome (a : Action σ α) : Action σ (Except Failure α) :=
  .of fun s => let (r, s) := a.apply s; (.ok r, s)

/-- Whether a computation succeeds with a result that has a property. -/
def succeeds (a : Action σ α) (p : α → Bool) : Action σ Bool := do
  match ← a.outcome with
  | .ok x => return p x
  | .error _ => return false

/-- A computation whose result and failure are of no interest. -/
def ignore (a : Action σ α) : Action σ Unit := do
  let _ ← a.outcome

end Action

/-- The calls of a file system. -/
structure Platform (σ η : Type) where
  /-- The entry of a path, links followed. -/
  stat : Path → Action σ Entry
  /-- The entry of a path; a link at its end is not followed. -/
  lstat : Path → Action σ Entry
  /-- A directory opened for reading. -/
  opendir : Path → Action σ η
  /-- The next entry, which is never a dot or a double dot; `none` at the end. -/
  readdir : η → Action σ (Option (Entry × η))
  /-- Gives an open directory back. -/
  closedir : η → Action σ Unit
  /-- A new directory with a mode. -/
  mkdir : Path → Nat → Action σ Unit
  /-- Takes away an empty directory. -/
  rmdir : Path → Action σ Unit
  /-- Carries what the first path names to the second one. -/
  rename : Path → Path → Action σ Unit
  /-- Takes away what is no directory. -/
  unlink : Path → Action σ Unit
  /-- Sets the permission bits. -/
  chmod : Path → Nat → Action σ Unit
  /-- A symbolic link to the first path, at the second one. -/
  symlink : Path → Path → Action σ Unit
  /-- The target of a symbolic link. -/
  readlink : Path → Action σ Path
  /-- A further name, the second path, for what the first one names. -/
  link : Path → Path → Action σ Unit
  /-- Copies content and mode of a file; gives the number of bytes. -/
  copyFile : Path → Path → Action σ Nat
  /-- The working directory. -/
  getcwd : Action σ Path
  /-- The absolute path without links. -/
  realpath : Path → Action σ Path
  /-- Where temporary directories are made. -/
  tempDir : σ → Path
  /-- How far work on the file tree can go: no less than the number of its entries. -/
  extent : σ → Nat

end Bytework
