import Bytework.Volume.Resolve

/-!
# Listings

A volume built from a list of objects, and written out as one.

* `install`: an object at a path from the root, with the directories that lead to it.
* `listing`: all objects below the root, every directory before what is in it, and names in order.
-/

namespace Bytework.Volume

/-- The mode of a directory that is made because something is put into it. -/
def leadingMode : Nat := 0o755

/-- Along names from a place, links followed. Directories are made where there is nothing yet. -/
def lead (v : Volume) (place : Place) : List Name → Except Errno (Place × Volume)
  | [] => .ok (place, v)
  | name :: ahead => do
    let next ← v.reachFrom place true name
    if (v.number? next).isSome then v.lead next ahead
    else (v.create next (.new .directory leadingMode)).lead next ahead

/-- An object at a path from the root, and directories on the way to it. What stood there before is
replaced; only a directory keeps what is below. -/
def install (v : Volume) (p : Path) (object : Object) : Except Errno Volume := do
  let (directory, v) ← v.lead [] p.names.dropLast
  let place ← v.reachFrom directory false (p.names.getLast?.getD ['.'])
  if (v.number? place).isSome then
    let v := v.alter place fun _ => object
    return if object.content = .directory then v else { v with entries := v.entries.clear place }
  else return v.create place object

/-- All objects below the root with their places, every directory before what is in it, and names in
order. -/
def listing (v : Volume) : List (Place × Object) :=
  let rows := v.entries.rows.filterMap fun (place, number) =>
    v.objects[number]?.map fun object => (place, object)
  rows.mergeSort fun a b => (compare a.1 b.1).isLE

end Bytework.Volume
