import Bytework.Bytes.Basic

/-!
# Pattern trees

What a pattern says. A pattern is read over the bytes of its text.

* `ByteRange`: a range of bytes; `digits`, `wordBytes`, `spaces` and `complement`.
* `Tree`: the tree of a pattern.
-/

namespace Bytework.Pattern

/-- The bytes from `lo` to `hi`. -/
structure ByteRange where
  lo : UInt8
  hi : UInt8
  deriving DecidableEq, Repr

/-- Whether a byte lies in a range. -/
def ByteRange.mem (r : ByteRange) (b : UInt8) : Bool := r.lo ≤ b && b ≤ r.hi

/-- The range of one byte. -/
def ByteRange.single (b : UInt8) : ByteRange := ⟨b, b⟩

/-- The digits. -/
def digits : List ByteRange := [⟨48, 57⟩]

/-- Digits, letters and the underscore. -/
def wordBytes : List ByteRange := [⟨48, 57⟩, ⟨65, 90⟩, ⟨95, 95⟩, ⟨97, 122⟩]

/-- White space. -/
def spaces : List ByteRange := [⟨9, 13⟩, ⟨32, 32⟩]

/-- The bytes from `next` on that lie in none of the ranges, which are sorted and disjoint. -/
def complementFrom : Nat → List ByteRange → List ByteRange
  | next, [] => if next ≤ 255 then [⟨next.toUInt8, 255⟩] else []
  | next, r :: ranges =>
    if next < r.lo.toNat then ⟨next.toUInt8, r.lo - 1⟩ :: complementFrom (r.hi.toNat + 1) ranges
    else complementFrom (r.hi.toNat + 1) ranges

/-- The bytes that lie in none of the ranges, which are sorted and disjoint. -/
def complement (ranges : List ByteRange) : List ByteRange := complementFrom 0 ranges

/-- The tree of a pattern. -/
inductive Tree
  /-- The empty text. -/
  | empty
  /-- One byte. -/
  | byte (b : UInt8)
  /-- Any byte, perhaps without the line feed. -/
  | any
  /-- A byte in, or if negated outside, some ranges. -/
  | set (ranges : List ByteRange) (negated : Bool)
  /-- The start of the text, perhaps of a line. -/
  | start
  /-- The end of the text, perhaps of a line. -/
  | stop
  /-- A group; what it matches is captured if it has an index. -/
  | group (body : Tree) (index : Option Nat)
  /-- One after the other. -/
  | seq (first second : Tree)
  /-- One or the other, the left one preferred. -/
  | alt (left right : Tree)
  /-- At least `least` and at most `most` times, if there is a most; as often as possible if
  greedy, else as seldom. -/
  | rep (body : Tree) (least : Nat) (most : Option Nat) (greedy : Bool)
  deriving DecidableEq, Repr

/-- The trees one after the other. -/
def Tree.ofItems : List Tree → Tree
  | [] => .empty
  | [t] => t
  | t :: u :: rest => .seq t (ofItems (u :: rest))

/-- The trees as alternatives, the first one preferred. -/
def Tree.ofBranches : List Tree → Tree
  | [] => .empty
  | [t] => t
  | t :: u :: rest => .alt t (ofBranches (u :: rest))

end Bytework.Pattern
