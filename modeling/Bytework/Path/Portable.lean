/-!
# Paths with either separator

Paths as texts in which both the slash and the backslash separate, and a letter with a colon in front
names a drive. What is put together uses the slash.

* `drive`: the drive of a path; `isAbsolute`: whether a separator follows it.
* `join`, `basename`, `dirname`, `normalize`: the operations.
-/

namespace Bytework.Path.Portable

/-- The slash and the backslash. -/
def isSeparator (c : Char) : Bool := c == '/' || c == '\\'

/-- The number of characters of the drive: two for a letter and a colon, else none. -/
def driveLength : List Char → Nat
  | c :: ':' :: _ => if c.isAlpha then 2 else 0
  | _ => 0

/-- Whether a separator follows the drive, if there is one. -/
def isAbsolute (p : List Char) : Bool := (p.drop (driveLength p)).head?.any isSeparator

/-- A path without the separators at its end. -/
def trimEnd (p : List Char) : List Char := (p.reverse.dropWhile isSeparator).reverse

/-- The part of a path after its last separator. -/
def afterLast (p : List Char) : List Char := (p.reverse.takeWhile (!isSeparator ·)).reverse

/-- The part of a path before its last separator; `none` if it has no separator. -/
def beforeLast? (p : List Char) : Option (List Char) :=
  match p.reverse.dropWhile (!isSeparator ·) with
  | [] => none
  | _ :: before => some before.reverse

/-- A path below another, with one separator between them. An absolute path replaces the other one,
and the separator of a root stays as it is. -/
def join (base child : List Char) : List Char :=
  if base.isEmpty || isAbsolute child then child
  else if child.isEmpty then base
  else
    let trimmed := trimEnd base
    let isRoot := trimmed.length == driveLength base && trimmed.length < base.length
    (if isRoot then base.take (trimmed.length + 1) else trimmed ++ ['/']) ++
      child.dropWhile isSeparator

/-- The last component of a path, separators at its end aside. A root is its own last component. -/
def basename (p : List Char) : List Char :=
  let trimmed := trimEnd p
  if trimmed.isEmpty then p.take 1
  else if trimmed.any isSeparator then afterLast trimmed
  else trimmed.drop (driveLength trimmed)

/-- What is in front of the last component: a dot or the drive for a bare name, and the root for
what stands directly below it. -/
def dirname (p : List Char) : List Char :=
  let trimmed := trimEnd p
  if trimmed.isEmpty then if p.isEmpty then ['.'] else p.take 1
  else
    match beforeLast? trimmed with
    | some before =>
      let parent := trimEnd before
      if parent.length == driveLength trimmed then trimmed.take (parent.length + 1) else parent
    | none => if driveLength trimmed = 0 then ['.'] else trimmed.take (driveLength trimmed)

/-- Every run of separators as one slash; `after` tells that a separator went before. -/
def collapse : Bool → List Char → List Char
  | _, [] => []
  | after, c :: p =>
    if isSeparator c then if after then collapse true p else '/' :: collapse true p
    else c :: collapse false p

/-- A path with one slash for every run of separators, and none at its end but that of a root. -/
def normalize (p : List Char) : List Char :=
  let out := collapse false p
  if driveLength out + 1 < out.length && out.getLast? == some '/' then out.dropLast else out

end Bytework.Path.Portable
