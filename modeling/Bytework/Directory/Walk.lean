import Bytework.Directory.Platform

/-!
# Walks

Reading a directory entry by entry, with all that is below it if that is asked for. A directory comes
before what is in it.

* `WalkOptions`: what is read and in which order.
* `Walk`: the open directories, the innermost one first, and what has been visited.
* `Walk.start`, `Walk.next`, `Walk.close`: the operations; `Walk.within` runs them and gives every
  open directory back at the end.
-/

namespace Bytework

/-- The order of the entries of a walk. -/
inductive SortMode
  /-- As the platform gives them. -/
  | none
  | name
  | size
  | modified
  deriving DecidableEq, Repr

/-- What a walk reads. -/
structure WalkOptions where
  /-- Directories are entered. -/
  recursive : Bool := false
  /-- Links to directories are entered too, and every real directory at most once. -/
  followSymlinks : Bool := false
  /-- Hidden entries are read; if not, they are not entered either. -/
  includeHidden : Bool := true
  /-- System entries are read; if not, they are not entered either. -/
  includeSystem : Bool := true
  sort : SortMode := .none
  /-- Which entries are given; the others are still entered. -/
  filter? : Option (Entry → Bool) := .none

namespace WalkOptions

/-- All that is below a directory, links not followed. -/
def deep : WalkOptions := { recursive := true }

/-- Whether an entry is left out with all that is below it. -/
def excludes (options : WalkOptions) (entry : Entry) : Bool :=
  (!options.includeHidden && entry.hidden) || (!options.includeSystem && entry.system)

/-- Whether an entry is given. -/
def gives (options : WalkOptions) (entry : Entry) : Bool :=
  match options.filter? with
  | some filter => filter entry
  | none => true

/-- The word for a truth value. -/
def word (b : Bool) : String := if b then "true" else "false"

/-- The word for an order. -/
def sortWord : SortMode → String
  | .none => "None"
  | .name => "Name"
  | .size => "Size"
  | .modified => "Modified"

/-- The options in words. -/
def text (options : WalkOptions) : String :=
  "IterOptions \x7b recursive: " ++ word options.recursive ++
    ", follow_symlinks: " ++ word options.followSymlinks ++
    ", include_hidden: " ++ word options.includeHidden ++
    ", include_system: " ++ word options.includeSystem ++
    ", sort: " ++ sortWord options.sort ++
    ", filter: " ++ word options.filter?.isSome ++ " \x7d"

end WalkOptions

/-! ## Order -/

namespace Entry

/-- The order of entries by path, component by component. -/
def comparePath (a b : Entry) : Ordering := Path.compareComponents a.path b.path

/-- The order of entries by a number, and then by path. -/
def compareBy (key : Entry → Nat) (a b : Entry) : Ordering :=
  (compare (key a) (key b)).then (comparePath a b)

/-- The entries in the given order. -/
def sorted (entries : List Entry) : SortMode → List Entry
  | .none => entries
  | .name => entries.mergeSort fun a b => (comparePath a b).isLE
  | .size => entries.mergeSort fun a b => (compareBy Entry.size a b).isLE
  | .modified => entries.mergeSort fun a b => (compareBy Entry.modified a b).isLE

end Entry

/-! ## Walks -/

/-- A walk that is under way. -/
structure Walk (η : Type) where
  options : WalkOptions
  /-- The open directories, the innermost one first. -/
  handles : List η
  /-- The real paths of the directories that were entered, if links are followed. -/
  visited : List Path
  /-- What is still to be given of a walk that was sorted. -/
  sorted? : Option (List Entry)

/-- A computation on the state of a platform and a walk. -/
abbrev Walking (σ η : Type) := Action (σ × Walk η)

namespace Walk

variable {σ η α : Type} (platform : Platform σ η)

/-- A computation beside a walk that it does not touch. -/
def lift (a : Action σ α) : Walking σ η α :=
  .of fun (s, walk) => let (r, s) := a.apply s; (r, (s, walk))

/-- The walk. -/
def current : Walking σ η (Walk η) := .of fun (s, walk) => (.ok walk, (s, walk))

/-- Changes the open directories. -/
def setHandles (handles : List η) : Walking σ η Unit :=
  .of fun (s, walk) => (.ok (), (s, { walk with handles }))

/-- Notes that a directory is visited; tells whether it was not before. -/
def visit (real : Path) : Walking σ η Bool :=
  .of fun (s, walk) =>
    if walk.visited.contains real then (.ok false, (s, walk))
    else (.ok true, (s, { walk with visited := real :: walk.visited }))

/-- Whether the walk goes on below an entry. -/
def enters (options : WalkOptions) (entry : Entry) : Walking σ η Bool := do
  if !options.recursive then return false
  if !options.followSymlinks then return entry.isDirectory
  let leads ←
    if entry.isSymlink then lift ((platform.stat entry.path).succeeds Entry.isDirectory)
    else pure entry.isDirectory
  if !leads then return false
  visit (← lift (platform.realpath entry.path))

/-- The next entry in the order of the platform, within a number of steps. -/
def advance : Nat → Walking σ η (Option Entry)
  | 0 => throw .endless
  | steps + 1 => do
    let walk ← current
    match walk.handles with
    | [] => return none
    | handle :: outer =>
      match ← lift (platform.readdir handle) with
      | none =>
        setHandles outer
        lift (platform.closedir handle)
        advance steps
      | some (entry, handle) =>
        setHandles (handle :: outer)
        if walk.options.excludes entry then advance steps
        else
          if ← enters platform walk.options entry then
            let inner ← lift (platform.opendir entry.path)
            setHandles (inner :: handle :: outer)
          if walk.options.gives entry then return some entry else advance steps

/-- Steps enough for what is left of a walk: each one reads an entry or leaves a directory. -/
def steps (s : σ) : Nat := 2 * platform.extent s + 2

/-- The next entry in the order of the platform. -/
def nextUnsorted : Walking σ η (Option Entry) :=
  .of fun (s, walk) => (advance platform (steps platform s)).apply (s, walk)

/-- Gives directories back, all of them even if some of them fail; tells the first failure. -/
def closeAll : List η → Action σ Unit
  | [] => pure ()
  | handle :: outer => do
    let first ← (platform.closedir handle).outcome
    let others ← (closeAll outer).outcome
    match first with
    | .error e => throw e
    | .ok () => match others with
      | .error e => throw e
      | .ok () => return ()

/-- Gives all open directories back; tells the first failure. -/
def close : Walking σ η Unit := do
  let walk ← current
  setHandles []
  lift (closeAll platform walk.handles)

/-- The next entry. A walk that has failed is over. -/
def next : Walking σ η (Option Entry) := do
  match (← current).sorted? with
  | some entries =>
    match entries with
    | [] => return none
    | entry :: entries =>
      Action.of fun (s, walk) => (.ok (), (s, { walk with sorted? := some entries }))
      return some entry
  | none =>
    match ← (nextUnsorted platform).outcome with
    | .ok entry? => return entry?
    | .error e =>
      (close platform).ignore
      throw e

/-- Entries from a source, at most a number of them. -/
def take (source : Walking σ η (Option Entry)) : Nat → Walking σ η (List Entry)
  | 0 => return []
  | n + 1 => do
    match ← source with
    | none => return []
    | some entry => return entry :: (← take source n)

/-- All entries from a source, which has fewer than the given number. -/
def drain (source : Walking σ η (Option Entry)) : Nat → Walking σ η (List Entry)
  | 0 => throw .endless
  | n + 1 => do
    match ← source with
    | none => return []
    | some entry => return entry :: (← drain source n)

/-- All entries from a source. -/
def all (source : Walking σ η (Option Entry)) : Walking σ η (List Entry) :=
  .of fun (s, walk) => (drain source (platform.extent s + 1)).apply (s, walk)

/-- Runs a computation on a walk. The directories that it leaves open are given back, without regard
to failures. -/
def finish (walk : Walk η) (body : Walking σ η α) : Action σ α :=
  .of fun s =>
    let (r, (s, walk)) := body.apply (s, walk)
    (r, ((closeAll platform walk.handles).apply s).2)

/-- A walk that starts at a directory. If an order is asked for, all entries are read at once. -/
def start (options : WalkOptions) (p : Path) : Action σ (Walk η) := do
  let handle ← platform.opendir p
  let visited ← if options.followSymlinks then (fun real => [real]) <$> platform.realpath p else pure []
  let walk : Walk η := ⟨options, [handle], visited, none⟩
  if options.sort = .none then return walk
  else
    let entries ← finish platform walk (all platform (nextUnsorted platform))
    return { walk with handles := [], sorted? := some (Entry.sorted entries options.sort) }

/-- Runs a computation on a walk from a directory, and ends the walk. -/
def within (options : WalkOptions) (p : Path) (body : Walking σ η α) : Action σ α := do
  let walk ← start platform options p
  finish platform walk body

end Walk

end Bytework
