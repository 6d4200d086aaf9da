import Bytework.Pattern.Parser
import Bytework.Text.Integer

/-!
# Written patterns

The trees that a pattern can say, and the pattern that writes such a tree.

* `metabytes`, `writeByte`: a byte outside a class, behind a backslash if it has a meaning of its own
  there; `memberMetabytes`, `writeMember`, `ByteRange.write`: the same in a class.
* `writeCount`, `writeBounds`: the bounds of a repetition in braces.
* `Tree.render`: the pattern of a tree, each of its groups opened by `writeOpening`.
* `Tree.Rank`, `Tree.Fits`: the grammar of trees, from single atoms up to alternatives.
* `Tree.captures`, `Tree.NumberedFrom`, `Tree.depth`: groups, their indices and how deep they nest.
* `Tree.Expressible`: the trees that some pattern says.
-/

namespace Bytework.Pattern

/-! ## Bytes -/

/-- The bytes that have a meaning of their own outside a class. -/
def metabytes : Bytes := [byte '\\', byte '.', byte '^', byte '$', byte '|', byte '(', byte ')',
  byte '[', byte ']', byte '\x7b', byte '\x7d', byte '*', byte '+', byte '?']

/-- A byte as it stands outside a class. -/
def writeByte (b : UInt8) : Bytes := if b ∈ metabytes then [backslash, b] else [b]

/-- The bytes that have a meaning of their own in a class. -/
def memberMetabytes : Bytes := [byte '\\', byte ']', byte '^', byte '-']

/-- A byte as it stands in a class. -/
def writeMember (b : UInt8) : Bytes := if b ∈ memberMetabytes then [backslash, b] else [b]

/-- A range as it stands in a class: one byte, or its two ends with a hyphen between. -/
def ByteRange.write (r : ByteRange) : Bytes :=
  if r.lo = r.hi then writeMember r.lo else writeMember r.lo ++ byte '-' :: writeMember r.hi

/-- Whether a tree stands for the bytes outside its ranges, as the first byte of a class says it. -/
def writeNegated (negated : Bool) : Bytes := if negated then [byte '^'] else []

/-! ## Repetitions -/

/-- A count in decimal digits. -/
def writeCount (n : Nat) : Bytes := (Text.decimal n).map byte

/-- The bounds of a repetition in braces, with nothing after the comma if there is no most. -/
def writeBounds (least : Nat) (most : Option Nat) : Bytes :=
  byte '\x7b' :: writeCount least ++ byte ',' :: (most.elim [] writeCount ++ [byte '\x7d'])

/-- What follows the bounds of a repetition. -/
def writeGreedy (greedy : Bool) : Bytes := if greedy then [] else [byte '?']

/-! ## Trees -/

/-- How a group opens. -/
def writeOpening (index : Option Nat) : Bytes :=
  if index.isSome then [byte '('] else [byte '(', byte '?', byte ':']

namespace Tree

/-- The pattern of a tree. -/
def render : Tree → Bytes
  | .empty => []
  | .byte b => writeByte b
  | .any => [Bytework.byte '.']
  | .set ranges negated =>
    Bytework.byte '[' ::
      (writeNegated negated ++ ranges.flatMap ByteRange.write ++ [Bytework.byte ']'])
  | .start => [Bytework.byte '^']
  | .stop => [Bytework.byte '$']
  | .group body index => writeOpening index ++ body.render ++ [Bytework.byte ')']
  | .seq first second => first.render ++ second.render
  | .alt left right => left.render ++ Bytework.byte '|' :: right.render
  | .rep body least most greedy => body.render ++ writeBounds least most ++ writeGreedy greedy

/-- What a tree may be made of, from one atom up to a whole pattern. -/
inductive Rank
  /-- What a quantifier applies to. -/
  | atom
  /-- An atom, perhaps with a quantifier. -/
  | item
  /-- Items one after the other, at least one. -/
  | items
  /-- Items one after the other, or none. -/
  | branch
  /-- Branches as alternatives, at least one. -/
  | whole
  deriving DecidableEq, Repr

/-- The trees of a rank. Sequences and alternatives lean to the right: neither the first of some
items nor the first of some branches is itself made of several. -/
inductive Fits : Rank → Tree → Prop
  | byte (b : UInt8) : Fits .atom (.byte b)
  | any : Fits .atom .any
  | set {ranges : List ByteRange} (negated : Bool) (hne : ranges ≠ [])
      (hle : ∀ r ∈ ranges, r.lo ≤ r.hi) : Fits .atom (.set ranges negated)
  | start : Fits .atom .start
  | stop : Fits .atom .stop
  | group {body : Tree} (index : Option Nat) (hbody : Fits .whole body) :
      Fits .atom (.group body index)
  | plain {t : Tree} (ht : Fits .atom t) : Fits .item t
  | rep {body : Tree} {least : Nat} {most : Option Nat} (greedy : Bool) (hbody : Fits .atom body)
      (hleast : least ≤ maxRepeat) (hmost : ∀ m ∈ most, least ≤ m ∧ m ≤ maxRepeat) :
      Fits .item (.rep body least most greedy)
  | one {t : Tree} (ht : Fits .item t) : Fits .items t
  | seq {first second : Tree} (hfirst : Fits .item first) (hsecond : Fits .items second) :
      Fits .items (.seq first second)
  | empty : Fits .branch .empty
  | some {t : Tree} (ht : Fits .items t) : Fits .branch t
  | only {t : Tree} (ht : Fits .branch t) : Fits .whole t
  | alt {left right : Tree} (hleft : Fits .branch left) (hright : Fits .whole right) :
      Fits .whole (.alt left right)

/-- The number of capturing groups. -/
def captures : Tree → Nat
  | .group body index => (if index.isSome then 1 else 0) + body.captures
  | .seq first second => first.captures + second.captures
  | .alt left right => left.captures + right.captures
  | .rep body _ _ _ => body.captures
  | _ => 0

/-- The capturing groups have the indices from `n` on, in the order in which they open. -/
def NumberedFrom (n : Nat) : Tree → Prop
  | .group body none => body.NumberedFrom n
  | .group body (some i) => i = n ∧ body.NumberedFrom (n + 1)
  | .seq first second => first.NumberedFrom n ∧ second.NumberedFrom (n + first.captures)
  | .alt left right => left.NumberedFrom n ∧ right.NumberedFrom (n + left.captures)
  | .rep body _ _ _ => body.NumberedFrom n
  | _ => True

/-- How many groups enclose the innermost place. -/
def depth : Tree → Nat
  | .group body _ => body.depth + 1
  | .seq first second => max first.depth second.depth
  | .alt left right => max left.depth right.depth
  | .rep body _ _ _ => body.depth
  | _ => 0

/-- A tree that some pattern says. -/
structure Expressible (t : Tree) : Prop where
  fits : t.Fits .whole
  numbered : t.NumberedFrom 0
  depth_le : t.depth ≤ maxNesting

end Tree

end Bytework.Pattern
