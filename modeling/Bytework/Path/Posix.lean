/-!
# Paths of components

Paths as texts in which the slash separates. Repeated slashes, slashes at the end and dots stand for
nothing, except a dot that a relative path starts with.

* `Path`, `Name`: texts; `Component`: what a path is made of, in their order.
* `components`, `compareComponents`: what a path says, and the order of paths by it.
* `asksDirectory`, `endsInDot`: what stands behind the last name.
* `trimmed`, `parent?`, `fileName?`, `join`: parts of a path, as they are written.
* `normalize`: dots and double dots resolved by the text alone.
-/

namespace Bytework

/-- A path, by its characters. -/
abbrev Path := List Char

/-- The name of an entry in a directory. -/
abbrev Name := List Char

namespace Path

/-- A component of a path. -/
inductive Component
  | root
  | current
  | parent
  | name (n : Name)
  deriving DecidableEq, Repr

namespace Component

/-- The place of the kind of a component: the root, the dot, the double dot, and then names. -/
def rank : Component → Nat
  | .root => 0
  | .current => 1
  | .parent => 2
  | .name _ => 3

/-- The order of components: by kind, and names by their characters. -/
def compare : Component → Component → Ordering
  | .name a, .name b => Ord.compare a b
  | a, b => Ord.compare a.rank b.rank

end Component

/-- Whether a path starts at the root. -/
def isAbsolute (p : Path) : Bool := p.head? == some '/'

/-- The texts between the slashes, without the slash of the root. -/
def segments (p : Path) : List Name := (if isAbsolute p then p.drop 1 else p).splitOn '/'

/-- The path with the given root and segments. -/
def ofSegments (absolute : Bool) (segments : List Name) : Path :=
  (if absolute then ['/'] else []) ++ List.intercalate ['/'] segments

/-- Whether a segment stands for nothing. -/
def isIdle (s : Name) : Bool := s.isEmpty || s == ['.']

/-- The component of a segment that does not stand for nothing. -/
def ofSegment (s : Name) : Component :=
  if s = ['.', '.'] then .parent else if s = ['.'] then .current else .name s

/-- The components of a path. -/
def components (p : Path) : List Component :=
  let body (ss : List Name) := (ss.filter (!isIdle ·)).map ofSegment
  if isAbsolute p then .root :: body (segments p)
  else
    match segments p with
    | [] => []
    | s :: ss => if s = ['.'] then .current :: body ss else body (s :: ss)

/-- The order of paths, component by component. -/
def compareComponents (p q : Path) : Ordering :=
  List.compareLex Component.compare (components p) (components q)

/-- Segments without those at the end that stand for nothing; in a relative path a dot in front
stays. -/
def trimSegments (absolute : Bool) : List Name → List Name
  | [] => []
  | s :: ss =>
    let rest := (ss.reverse.dropWhile isIdle).reverse
    if rest.isEmpty && (s.isEmpty || (absolute && s == ['.'])) then [] else s :: rest

/-- Whether a slash or a dot stands behind the last name of a path, which only the name of a directory
can bear. -/
def asksDirectory (p : Path) : Bool :=
  (segments p).getLast?.any isIdle && (segments p).any (!isIdle ·)

/-- Whether a path ends in a dot, slashes behind it aside. -/
def endsInDot (p : Path) : Bool := ((segments p).filter (!·.isEmpty)).getLast? == some ['.']

/-- A path without slashes and dots at its end. -/
def trimmed (p : Path) : Path := ofSegments (isAbsolute p) (trimSegments (isAbsolute p) (segments p))

/-- A path without its last component; `none` for a root and for the empty path. -/
def parent? (p : Path) : Option Path :=
  match trimSegments (isAbsolute p) (segments p) with
  | [] => none
  | ss => some (ofSegments (isAbsolute p) (trimSegments (isAbsolute p) ss.dropLast))

/-- The last component of a path, if it is a name. -/
def fileName? (p : Path) : Option Name :=
  match (components p).getLast? with
  | some (.name n) => some n
  | _ => none

/-- The last component of a path if it is a name, and else the whole path. -/
def displayName (p : Path) : Name := (fileName? p).getD p

/-- A path below another; an absolute path replaces it. -/
def join (base child : Path) : Path :=
  if isAbsolute child then child
  else if base.isEmpty || base.getLast? == some '/' then base ++ child
  else base ++ '/' :: child

/-! ## Resolving by the text alone -/

/-- The names that are left when each double dot takes back the name before it. The names so far
come with the last one first. -/
def resolveNames : List Name → List Component → List Name
  | names, [] => names.reverse
  | names, .name n :: cs => resolveNames (n :: names) cs
  | names, .parent :: cs => resolveNames names.tail cs
  | names, _ :: cs => resolveNames names cs

/-- A path without dots and double dots. A double dot never climbs above the root, or above the
start of a relative path. -/
def normalize (p : Path) : Path :=
  ofSegments (isAbsolute p) (resolveNames [] (components p))

/-- Whether the components of `p` start with those of `q`. -/
def startsWith (p q : Path) : Bool := (components q).isPrefixOf (components p)

/-- Whether a name starts with a dot and is not one of the two names made of dots alone. -/
def isHidden (n : Name) : Bool := n.head? == some '.' && n != ['.'] && n != ['.', '.']

end Path

end Bytework
