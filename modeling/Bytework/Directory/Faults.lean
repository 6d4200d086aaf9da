import Bytework.Directory.Platform

/-!
# Faults

A platform whose calls fail as planned. Before a call runs, the planned faults are tried in order,
and the first one that is due makes the call fail without effect.

* `Fault`: which calls it meets, how many it lets pass, how often it strikes, and with what.
* `Platform.withFaults`: the platform with a plan of faults beside its state.
-/

namespace Bytework

/-- What a fault makes a call fail with. -/
inductive Cause
  /-- An error number, as if the call itself had failed. -/
  | errno (errno : Errno)
  /-- Words that name no call. -/
  | words (text : List Char)
  deriving DecidableEq, Repr

/-- The failure of a call by a cause. -/
def Cause.failure (call : Call) : Cause → Failure
  | errno e => .system call e
  | words text => .reported text

/-- A planned fault. -/
structure Fault where
  /-- The name of the calls that it meets. -/
  call : String
  /-- The path of the calls that it meets; `none` for all paths. -/
  path? : Option Path
  cause : Cause
  /-- The number of calls that still pass. -/
  skip : Nat
  /-- The number of calls that can still fail; `none` for no bound. -/
  times? : Option Nat
  deriving DecidableEq, Repr

namespace Fault

/-- How far work can go before a fault is settled: the calls that it lets pass or makes fail, and the
length of the path at which it waits. -/
def patience (fault : Fault) : Nat :=
  fault.skip + fault.times?.getD 0 + (fault.path?.elim 0 List.length) + 1

/-- Whether a fault meets a call. -/
def meets (fault : Fault) (call : Call) : Bool :=
  fault.call == call.name && fault.path?.all (· == call.path)

/-- The cause that makes a call fail, if a fault is due, and the plan after it. A fault that lets the
call pass, or is spent, leaves it to the next one. -/
def strike (call : Call) : List Fault → Option Cause × List Fault
  | [] => (none, [])
  | fault :: plan =>
    if !fault.meets call then
      let (cause, plan) := strike call plan
      (cause, fault :: plan)
    else if 0 < fault.skip then
      let (cause, plan) := strike call plan
      (cause, { fault with skip := fault.skip - 1 } :: plan)
    else if fault.times? = some 0 then
      let (cause, plan) := strike call plan
      (cause, fault :: plan)
    else (some fault.cause, { fault with times? := fault.times?.map (· - 1) } :: plan)

/-- Fails if a fault is due for a call. -/
def check {σ : Type} (call : Call) : Action (σ × List Fault) Unit :=
  .of fun (s, plan) =>
    match strike call plan with
    | (some cause, plan) => (.error (cause.failure call), (s, plan))
    | (none, plan) => (.ok (), (s, plan))

/-- A computation beside a plan that it does not touch. -/
def beside {σ α : Type} (a : Action σ α) : Action (σ × List Fault) α :=
  .of fun (s, plan) => let (r, s) := a.apply s; (r, (s, plan))

/-- A call, if no fault is due for it. -/
def guarded {σ α : Type} (call : Call) (a : Action σ α) : Action (σ × List Fault) α := do
  check call
  beside a

end Fault

open Fault in
/-- A platform with a plan of faults beside its state. An open directory keeps its path. -/
def Platform.withFaults {σ η : Type} (platform : Platform σ η) :
    Platform (σ × List Fault) (Path × η) where
  stat p := guarded (.stat p) (platform.stat p)
  lstat p := guarded (.lstat p) (platform.lstat p)
  opendir p := guarded (.opendir p) do return (p, ← platform.opendir p)
  readdir handle := do
    match ← beside (platform.readdir handle.2) with
    | none => return none
    | some (entry, h) =>
      check (.readdir entry.path)
      return some (entry, (handle.1, h))
  closedir handle := guarded (.closedir handle.1) (platform.closedir handle.2)
  mkdir p mode := guarded (.mkdir p) (platform.mkdir p mode)
  rmdir p := guarded (.rmdir p) (platform.rmdir p)
  rename a b := guarded (.rename a b) (platform.rename a b)
  unlink p := guarded (.unlink p) (platform.unlink p)
  chmod p mode := guarded (.chmod p) (platform.chmod p mode)
  symlink target p := guarded (.symlink target p) (platform.symlink target p)
  readlink p := guarded (.readlink p) (platform.readlink p)
  link target p := guarded (.link target p) (platform.link target p)
  copyFile a b := guarded (.copyFile a b) (platform.copyFile a b)
  getcwd := guarded .getcwd platform.getcwd
  realpath p := guarded (.realpath p) (platform.realpath p)
  tempDir s := platform.tempDir s.1
  extent s := platform.extent s.1 + (s.2.map Fault.patience).foldr (· + ·) 0

end Bytework
