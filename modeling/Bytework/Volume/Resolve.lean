import Bytework.Volume.Basic
import Bytework.Volume.Errno

/-!
# Resolution

From a path to a place. Links on the way are followed, and a link at the end if that is asked for. A
walk along names runs until a link has to be followed; the number of links on the whole way is
bounded. Where the end of a path counts, a slash or a dot there has a link at the end followed, and what
it leads to has to be a directory.

* `stride`: along names, up to the end or a link to follow; `travel`: with the links.
* `reach`: the place of a path, of which only the last name may be missing; `find`: of what exists.
* `seat`: where a name is to be made or taken away; the link that may stand there is not followed.
-/

namespace Bytework

/-- The names of a path, double dots among them; what stands for nothing is left out. -/
def Path.names (p : Path) : List Name := p.segments.filter (!Path.isIdle ·)

/-- The name of the double dot. -/
def Path.up : Name := ['.', '.']

/-- Whether a path ends in a name that can be made or taken away: not in a double dot, and not
without any name. -/
def Path.hasLastName (p : Path) : Bool := p.names.getLast?.any (· != Path.up)

namespace Volume

/-- Where a walk along names stops. -/
inductive Stop
  /-- At the end of the names. -/
  | done (place : Place)
  /-- At a link in the directory `base`, with names still ahead. -/
  | link (base : Place) (target : Path) (ahead : List Name)
  deriving DecidableEq, Repr

/-- The end of the names, if those that were passed come with the last one first. -/
def Stop.arrival (passed : List Name) : Stop := .done passed.reverse

/-- What stands at a place, and at the root if nothing does. -/
def branch (v : Volume) (place : Place) : Branch := (v.branch? place).getD v.root

/-- Along names from a directory, which is given by the names that lead to it, the last one first, and
by what stands there. A link at the end is followed if `follow` is set; the last name need not
exist. -/
def stride (v : Volume) (follow : Bool) : List Name → Branch → List Name → Except Errno Stop
  | passed, _, [] => .ok (.arrival passed)
  | passed, branch, name :: ahead =>
    if name = Path.up then stride v follow passed.tail (v.branch passed.tail.reverse) ahead
    else
      match branch.inner.find? name with
      | none => if ahead.isEmpty then .ok (.arrival (name :: passed)) else .error .noEntry
      | some inner =>
        match v.content? inner.number with
        | some .directory => stride v follow (name :: passed) inner ahead
        | some (.symlink target) =>
          if ahead.isEmpty && !follow then .ok (.arrival (name :: passed))
          else .ok (.link passed.reverse target ahead)
        | _ => if ahead.isEmpty then .ok (.arrival (name :: passed)) else .error .notDirectory

/-- Where the names of a path start: at the root or at a given place. -/
def origin (base : Place) (p : Path) : Place := if p.isAbsolute then [] else base

/-- Whether a path asks for a directory. -/
def asks (v : Volume) (p : Path) : Bool := v.rules.isPosix && p.asksDirectory

/-- A place at which a directory stands. -/
def directoryAt (v : Volume) (place : Place) : Except Errno Place :=
  if v.isDirectory place then .ok place
  else if (v.object? place).isSome then .error .notDirectory else .error .noEntry

/-- The end of a walk along the target of a link, with the names that are ahead behind it. -/
def landing (v : Volume) (target : Path) (ahead : List Name) (place : Place) : Except Errno Place :=
  if ahead.isEmpty && v.asks target then v.directoryAt place else .ok place

/-- Along names from a directory, following at most `links` links. -/
def travel (v : Volume) (follow : Bool) (links : Nat) (place : Place) (names : List Name) :
    Except Errno Place :=
  match stride v follow place.reverse (v.branch place) names with
  | .error e => .error e
  | .ok (.done place) => .ok place
  | .ok (.link base target ahead) =>
    match links with
    | 0 => .error .linkLoop
    | links + 1 =>
      if target.isEmpty then .error .noEntry
      else travel v follow links (origin base target) (target.names ++ ahead) >>= v.landing target ahead

/-- The number of links that one resolution may follow. -/
def maxLinks : Nat := 40

/-- Along the names of a path from a place; names start only from a directory. -/
def along (v : Volume) (base : Place) (follow : Bool) (p : Path) : Except Errno Place :=
  if p.isEmpty then .error .noEntry
  else if !p.names.isEmpty && !v.isDirectory (origin base p) then .error .notDirectory
  else travel v follow maxLinks (origin base p) p.names

/-- The end of a path. Behind a slash a directory may still be missing, behind a dot it may not. -/
def settle (v : Volume) (p : Path) (place : Place) : Except Errno Place :=
  if v.asks p && (p.endsInDot || (v.object? place).isSome) then v.directoryAt place else .ok place

/-- The place of a path from a place. Only the last name may be missing. -/
def reachFrom (v : Volume) (base : Place) (follow : Bool) (p : Path) : Except Errno Place :=
  v.along base (follow || v.asks p) p >>= v.settle p

/-- A place at which something exists. -/
def existing (v : Volume) (place : Place) : Except Errno Place :=
  if (v.object? place).isSome then .ok place else .error .noEntry

/-- The place of the working directory. -/
def workingPlace (v : Volume) : Except Errno Place := do
  v.existing (← v.reachFrom [] true v.cwd)

/-- The place that a path starts from, unless it is absolute. -/
def baseOf (v : Volume) (p : Path) : Except Errno Place :=
  if p.isAbsolute || p.isEmpty then .ok [] else v.workingPlace

/-- The place of a path. Only the last name may be missing. -/
def reach (v : Volume) (follow : Bool) (p : Path) : Except Errno Place := do
  v.reachFrom (← v.baseOf p) follow p

/-- The place of the last name of a path. What leads behind a dot has to be there. -/
def seat (v : Volume) (p : Path) : Except Errno Place :=
  if v.asks p && p.endsInDot then v.reach false p else do v.along (← v.baseOf p) false p

/-- The place and the object that a path names. -/
def find (v : Volume) (follow : Bool) (p : Path) : Except Errno (Place × Object) := do
  let place ← v.reach follow p
  match v.object? place with
  | some object => return (place, object)
  | none => throw .noEntry

end Volume

end Bytework
