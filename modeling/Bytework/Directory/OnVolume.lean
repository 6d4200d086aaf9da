import Bytework.Directory.Platform
import Bytework.Volume.Calls

/-!
# Volumes as platforms

The calls of a volume in memory. An open directory keeps the names it had when it was opened.

* `Volume.platform`: the platform whose state is a volume.
-/

namespace Bytework.Volume

/-- An open directory: the path it was opened by, and the names that are still to be read. -/
structure Stream where
  path : Path
  ahead : List Name
  deriving DecidableEq, Repr

/-- A question as a call. -/
def ask {α : Type} (call : Call) (question : Volume → Except Errno α) : Action Volume α :=
  .of fun v => ((question v).mapError (.system call), v)

/-- A change as a call. -/
def perform {α : Type} (call : Call) (change : Volume → Except Errno (α × Volume)) :
    Action Volume α :=
  .of fun v =>
    match change v with
    | .ok (a, v) => (.ok a, v)
    | .error e => (.error (.system call e), v)

/-- A change without a result as a call. -/
def update (call : Call) (change : Volume → Except Errno Volume) : Action Volume Unit :=
  perform call fun v => (change v).map fun v => ((), v)

/-- The next entry of an open directory. -/
def readNext (stream : Stream) : Action Volume (Option (Entry × Stream)) :=
  match stream.ahead with
  | [] => pure none
  | name :: ahead => do
    let path := Path.join stream.path name
    let entry ← ask (.readdir path) fun v => v.stat false path
    return some (entry, ⟨stream.path, ahead⟩)

/-- The platform whose state is a volume. -/
def platform : Platform Volume Stream where
  stat p := ask (.stat p) fun v => v.stat true p
  lstat p := ask (.lstat p) fun v => v.stat false p
  opendir p := ask (.opendir p) fun v => (v.list p).map fun names => ⟨p, names⟩
  readdir := readNext
  closedir _ := pure ()
  mkdir p mode := update (.mkdir p) fun v => v.mkdir p mode
  rmdir p := update (.rmdir p) fun v => v.rmdir p
  rename a b := update (.rename a b) fun v => v.rename a b
  unlink p := update (.unlink p) fun v => v.unlink p
  chmod p mode := update (.chmod p) fun v => v.chmod p mode
  symlink target p := update (.symlink target p) fun v => v.symlink target p
  readlink p := ask (.readlink p) fun v => v.readlink p
  link target p := update (.link target p) fun v => v.link target p
  copyFile a b := perform (.copyFile a b) fun v => v.copyFile a b
  getcwd := ask .getcwd fun v => .ok v.cwd
  realpath p := ask (.realpath p) fun v => v.realpath p
  tempDir v := v.temp
  extent v := v.entries.size + 1

end Bytework.Volume
