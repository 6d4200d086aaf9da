import Bytework.Bytes.Basic

/-!
# Searching byte strings

* `indexOf?`: the position of the leftmost occurrence; `countOf` searches on behind each of them.
* `replaceAll`: one pass over the string, which tests for an occurrence at each byte.
* `pieces`: a string cut at the leftmost, non-overlapping occurrences of a separator.
* `compareFolded`, `equalFolded`, `includesFolded`: the same questions with case ignored.
-/

namespace Bytework.Bytes

/-- The position of the leftmost occurrence of `sub`; the empty string occurs at the start. -/
def indexOf? (sub : Bytes) : Bytes → Option Nat
  | [] => if sub.isEmpty then some 0 else none
  | b :: s => if sub.isPrefixOf (b :: s) then some 0 else (indexOf? sub s).map (· + 1)

/-- Whether `sub` occurs in `s`. -/
def includes (s sub : Bytes) : Bool := (indexOf? sub s).isSome

/-- Whether `s` begins with `sub`. -/
def startsWith (s sub : Bytes) : Bool := sub.isPrefixOf s

/-- Whether `s` ends with `sub`. -/
def endsWith (s sub : Bytes) : Bool := sub.isSuffixOf s

/-- The pieces between the leftmost, non-overlapping occurrences of `sub`. The number is how many
bytes of the current occurrence are still to be passed over. -/
def piecesFrom (sub : Bytes) : Nat → Bytes → List Bytes
  | _, [] => [[]]
  | skip + 1, _ :: s => piecesFrom sub skip s
  | 0, b :: s =>
    if sub.isPrefixOf (b :: s) then [] :: piecesFrom sub (sub.length - 1) s
    else (piecesFrom sub 0 s).modifyHead (b :: ·)

/-- The string cut at each occurrence of `sub`; the empty string is never cut at. -/
def pieces (s sub : Bytes) : List Bytes :=
  if sub.isEmpty then [s] else piecesFrom sub 0 s

/-- What is behind an occurrence of a string that is not empty is shorter. -/
theorem length_drop_lt_of_indexOf? {s sub : Bytes} {i : Nat} (hsub : ¬ sub.isEmpty = true)
    (h : indexOf? sub s = some i) : (s.drop (i + sub.length)).length < s.length := by
  cases s with
  | nil => simp [indexOf?, hsub] at h
  | cons b s =>
    have hpos : 0 < sub.length := List.length_pos_iff.mpr fun hnil => hsub (by rw [hnil]; rfl)
    rw [List.length_drop, List.length_cons]
    omega

/-- How often `sub` occurs, without overlaps: behind each occurrence the search starts again. The
empty string counts zero. -/
def countOf (s sub : Bytes) : Nat :=
  if sub.isEmpty then 0
  else
    match h : indexOf? sub s with
    | none => 0
    | some i => countOf (s.drop (i + sub.length)) sub + 1
termination_by s.length
decreasing_by exact length_drop_lt_of_indexOf? ‹_› h

/-- The string from some byte on, with `new` for each occurrence of `old`. The number is how many
bytes of the current occurrence are still to be passed over. -/
def replaceFrom (old new : Bytes) : Nat → Bytes → Bytes
  | _, [] => []
  | skip + 1, _ :: s => replaceFrom old new skip s
  | 0, b :: s =>
    if old.isPrefixOf (b :: s) then new ++ replaceFrom old new (old.length - 1) s
    else b :: replaceFrom old new 0 s

/-- Every occurrence of `old`, from the left and without overlaps, replaced by `new`; the empty
string is never replaced. -/
def replaceAll (s old new : Bytes) : Bytes :=
  if old.isEmpty then s else replaceFrom old new 0 s

/-- The fields between the occurrences of one byte, empty fields included. -/
def split (s : Bytes) (delimiter : UInt8) : List Bytes := s.splitOn delimiter

/-- The parts with one delimiter between neighbours. -/
def join (parts : List Bytes) (delimiter : UInt8) : Bytes := List.intercalate [delimiter] parts

/-! ## With case ignored -/

/-- The order of two strings byte by byte, each byte in lower case as it is met. -/
def compareFolded : Bytes → Bytes → Ordering
  | [], [] => .eq
  | [], _ :: _ => .lt
  | _ :: _, [] => .gt
  | a :: s, b :: t => (compare (lowerByte a) (lowerByte b)).then (compareFolded s t)

/-- Whether two strings differ at most in case. -/
def equalFolded (a b : Bytes) : Bool := a.isEqv b sameFolded

/-- Whether some piece of the string differs from `sub` at most in case. -/
def includesFolded (sub : Bytes) : Bytes → Bool
  | [] => sub.isEmpty
  | b :: s => equalFolded ((b :: s).take sub.length) sub || includesFolded sub s

end Bytework.Bytes
