import Bytework.Path.Posix

/-!
# Forests

The shape of a file tree: names in an order, each with the number of an object and with the entries
below it. The objects themselves stand elsewhere, so that two names can share one.

* `Place`: the names from the root down to an entry.
* `Forest`, `Branch`: entries side by side, and what stands at one place.
* `Branch.at?`, `Forest.names`, `Forest.rows`, `Forest.size`: what is found.
* `Forest.put`, `Forest.drop`, `Forest.clear`: what is changed at a place.
* `Forest.find?_add`, `Forest.find?_erase`, `Forest.find?_modify`: each change by what is found after
  it.
-/

namespace Bytework

/-- A place in a tree: the names from the root down to an entry. The root's place is the empty list. -/
abbrev Place := List Name

namespace Place

/-- Whether a place is at or below another. -/
def within (place top : Place) : Bool := top.isPrefixOf place

/-- The absolute path of a place. -/
def path (place : Place) : Path := Path.ofSegments true place

end Place

/-- Entries side by side, in the order in which they came to be. -/
inductive Forest
  | empty
  /-- An entry, what is below it, and the entries after it. -/
  | entry (name : Name) (number : Nat) (inner rest : Forest)
  deriving DecidableEq, Repr

/-- What stands at a place: the number of an object, and the entries below. -/
structure Branch where
  number : Nat
  inner : Forest
  deriving DecidableEq, Repr

namespace Forest

/-! ## What is found -/

/-- What stands under a name. -/
def find? (name : Name) : Forest → Option Branch
  | empty => none
  | entry other number inner rest =>
    if other = name then some ⟨number, inner⟩ else find? name rest

/-- The names side by side. -/
def names : Forest → List Name
  | empty => []
  | entry name _ _ rest => name :: names rest

/-- All entries with their places, each one before what is below it. -/
def rows : Forest → List (Place × Nat)
  | empty => []
  | entry name number inner rest =>
    ([name], number) :: (rows inner).map (fun row => (name :: row.1, row.2)) ++ rows rest

/-- The number of entries. -/
def size : Forest → Nat
  | empty => 0
  | entry _ _ inner rest => 1 + size inner + size rest

/-! ## What is changed -/

/-- A new entry behind all others. -/
def add (new : Name) (branch : Branch) : Forest → Forest
  | empty => entry new branch.number branch.inner empty
  | entry name number inner rest => entry name number inner (add new branch rest)

/-- The entries without a name. -/
def erase (name : Name) : Forest → Forest
  | empty => empty
  | entry other number inner rest =>
    if other = name then erase name rest else entry other number inner (erase name rest)

/-- A change of what is below a name. -/
def modify (name : Name) (change : Forest → Forest) : Forest → Forest
  | empty => empty
  | entry other number inner rest =>
    if other = name then entry other number (change inner) rest
    else entry other number inner (modify name change rest)

/-- A branch at a place at which nothing stands. -/
def put (branch : Branch) : Place → Forest → Forest
  | [], forest => forest
  | [name], forest => forest.add name branch
  | name :: next :: below, forest => forest.modify name (put branch (next :: below))

/-- A forest without what is at and below a place. -/
def drop : Place → Forest → Forest
  | [], forest => forest
  | [name], forest => forest.erase name
  | name :: next :: below, forest => forest.modify name (drop (next :: below))

/-- A forest without what is below a place. -/
def clear : Place → Forest → Forest
  | [], _ => empty
  | name :: below, forest => forest.modify name (clear below)

/-! ## Laws -/

theorem find?_add (name new : Name) (branch : Branch) (forest : Forest) :
    (forest.add new branch).find? name =
      (forest.find? name).or (if new = name then some branch else none) := by
  induction forest with
  | empty => simp [add, find?]
  | entry other number inner rest _ ih => by_cases h : other = name <;> simp [add, find?, h, ih]

theorem find?_erase (name gone : Name) (forest : Forest) :
    (forest.erase gone).find? name = if gone = name then none else forest.find? name := by
  induction forest with
  | empty => simp [erase, find?]
  | entry other number inner rest _ ih =>
    grind [erase, find?]

theorem find?_modify (name changed : Name) (change : Forest → Forest) (forest : Forest) :
    (forest.modify changed change).find? name =
      if changed = name then (forest.find? name).map fun b => ⟨b.number, change b.inner⟩
      else forest.find? name := by
  induction forest with
  | empty => simp [modify, find?]
  | entry other number inner rest _ ih =>
    grind [modify, find?]

end Forest

/-- What stands at a place below. -/
def Branch.at? (branch : Branch) : Place → Option Branch
  | [] => some branch
  | name :: below =>
    match branch.inner.find? name with
    | none => none
    | some next => next.at? below

theorem Branch.at?_append (branch : Branch) (place below : Place) :
    branch.at? (place ++ below) = (branch.at? place).bind (·.at? below) := by
  induction place generalizing branch with
  | nil => rfl
  | cons name place ih =>
    simp only [List.cons_append, at?]
    cases branch.inner.find? name with
    | none => rfl
    | some next => exact ih next

end Bytework
