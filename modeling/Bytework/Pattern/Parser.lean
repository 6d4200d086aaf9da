import Bytework.Pattern.Tree

/-!
# Reading patterns

A reader of patterns from left to right, with the enclosing groups on a stack.

* `SyntaxError`, `Fault`: what can be wrong, and where, as the number of bytes left to read.
* `bounds`, `quantify`: the quantifier after an atom; a brace that opens no bounds is a literal.
* `classItems`: the items of a bracket class.
* `Level`: what has been read of one group; `readFrom` reads a pattern, `Tree.parse` the whole of it.
-/

namespace Bytework.Pattern

/-- What can be wrong with a pattern. -/
inductive SyntaxError
  | unmatchedClose
  | missingClose
  | nestedQuantifier
  | boundsOutOfOrder
  | countTooLarge
  | nestingTooDeep
  | nothingToRepeat
  | trailingBackslash
  | unterminatedClass
  | rangeOutOfOrder
  deriving DecidableEq, Repr

/-- What an error says. -/
def SyntaxError.text : SyntaxError → String
  | .unmatchedClose => "unmatched ')'"
  | .missingClose => "missing ')'"
  | .nestedQuantifier => "nested quantifier"
  | .boundsOutOfOrder => "repetition bounds out of order"
  | .countTooLarge => "repetition count too large"
  | .nestingTooDeep => "nesting too deep"
  | .nothingToRepeat => "nothing to repeat"
  | .trailingBackslash => "trailing backslash"
  | .unterminatedClass => "unterminated character class"
  | .rangeOutOfOrder => "character range out of order"

/-- An error with the number of bytes that were left to read. -/
structure Fault where
  error : SyntaxError
  left : Nat
  deriving DecidableEq, Repr

/-- A reader that fails in front of the given rest of the pattern. -/
def failAt {α : Type} (error : SyntaxError) (rest : Bytes) : Except Fault α :=
  .error ⟨error, rest.length⟩

/-- The largest count in bounds. -/
def maxRepeat : Nat := 1000

/-- The deepest nesting of groups. -/
def maxNesting : Nat := 256

/-! ## Escapes -/

/-- The ranges of a letter that names a set, after a backslash. -/
def shorthand? (b : UInt8) : Option (List ByteRange) :=
  if b = byte 'd' then some digits
  else if b = byte 'w' then some wordBytes
  else if b = byte 's' then some spaces
  else none

/-- The byte that stands after a backslash. -/
def literalEscape (b : UInt8) : UInt8 :=
  if b = byte 'n' then 10 else if b = byte 't' then 9 else if b = byte 'r' then 13 else b

/-- The atom of a byte after a backslash outside a class. An upper-case letter names the bytes that
its lower-case form does not. -/
def escapeTree (b : UInt8) : Tree :=
  match shorthand? (lowerByte b) with
  | some ranges => .set ranges (isUpper b)
  | none => .byte (literalEscape b)

/-- The ranges of a byte after a backslash in a class, if it names a set. -/
def escapeRanges? (b : UInt8) : Option (List ByteRange) :=
  (shorthand? (lowerByte b)).map fun ranges => if isUpper b then complement ranges else ranges

/-! ## Bracket classes -/

/-- The range that ends in `hi`, and the rest of the pattern. -/
def closeRange (lo hi : UInt8) (rest : Bytes) : Except Fault (List ByteRange × Bytes) :=
  if hi < lo then failAt .rangeOutOfOrder rest else .ok ([⟨lo, hi⟩], rest)

/-- The item that starts with the byte `lo`: a range if a hyphen and a byte other than the closing
bracket follow. -/
def rangeFrom (lo : UInt8) (rest : Bytes) : Except Fault (List ByteRange × Bytes) :=
  match rest with
  | h :: hi :: after =>
    if h = byte '-' ∧ hi ≠ byte ']' then
      if hi = backslash then
        match after with
        | [] => failAt .trailingBackslash []
        | e :: after' => closeRange lo (literalEscape e) after'
      else closeRange lo hi after
    else .ok ([.single lo], rest)
  | _ => .ok ([.single lo], rest)

/-- The item of a class that starts with the byte `b`. -/
def classItem (b : UInt8) (rest : Bytes) : Except Fault (List ByteRange × Bytes) :=
  if b = backslash then
    match rest with
    | [] => failAt .trailingBackslash []
    | e :: after =>
      match escapeRanges? e with
      | some ranges => .ok (ranges, after)
      | none => rangeFrom (literalEscape e) after
  else rangeFrom b rest

theorem length_of_closeRange {lo hi : UInt8} {rest after : Bytes} {ranges : List ByteRange}
    (h : closeRange lo hi rest = .ok (ranges, after)) : after.length ≤ rest.length := by
  unfold closeRange failAt at h
  split at h
  · simp at h
  · simp_all

theorem length_of_rangeFrom {lo : UInt8} {rest after : Bytes} {ranges : List ByteRange}
    (h : rangeFrom lo rest = .ok (ranges, after)) : after.length ≤ rest.length := by
  unfold rangeFrom at h
  split at h
  · split at h
    · split at h
      · split at h
        · simp [failAt] at h
        · have := length_of_closeRange h
          simp only [List.length_cons]
          omega
      · have := length_of_closeRange h
        simp only [List.length_cons]
        omega
    · simp_all
  · simp_all

theorem length_of_classItem {b : UInt8} {rest after : Bytes} {ranges : List ByteRange}
    (h : classItem b rest = .ok (ranges, after)) : after.length ≤ rest.length := by
  unfold classItem at h
  split at h
  · split at h
    · simp [failAt] at h
    · split at h
      · simp_all
      · have := length_of_rangeFrom h
        simp only [List.length_cons]
        omega
  · exact length_of_rangeFrom h

/-- The items of a class up to its closing bracket; a bracket that comes first is an item. -/
def classItems (first : Bool) (rest : Bytes) : Except Fault (List ByteRange × Bytes) :=
  match rest with
  | [] => failAt .unterminatedClass []
  | b :: after =>
    if b = byte ']' ∧ first = false then .ok ([], after)
    else
      match _h : classItem b after with
      | .error e => .error e
      | .ok (ranges, after') => do
        let (more, tail) ← classItems false after'
        return (ranges ++ more, tail)
termination_by rest.length
decreasing_by
  have := length_of_classItem _h
  simp only [List.length_cons]
  omega

/-- A class after its opening bracket. -/
def classTree (rest : Bytes) : Except Fault (Tree × Bytes) :=
  let (negated, rest) := match rest with
    | b :: after => if b = byte '^' then (true, after) else (false, rest)
    | [] => (false, [])
  (classItems true rest).map fun (ranges, after) => (.set ranges negated, after)

/-! ## Quantifiers -/

/-- The count at the start of a text, if there is one, and what follows it. -/
def count (rest : Bytes) : Except Fault (Option Nat × Bytes) :=
  let written := rest.takeWhile isDigit
  let after := rest.dropWhile isDigit
  let value := written.foldl (fun n d => 10 * n + (d.toNat - 48)) 0
  if written.isEmpty then .ok (none, rest)
  else if maxRepeat < value then failAt .countTooLarge after
  else .ok (some value, after)

/-- The largest count after the least one: another count after a comma, where none is no limit, and
else the least one itself. -/
def mostCount (least : Nat) (rest : Bytes) : Except Fault (Option Nat × Bytes) :=
  match rest with
  | [] => .ok (some least, [])
  | b :: after => if b = byte ',' then count after else .ok (some least, rest)

/-- The bounds up to the closing brace, and what follows it; `none` if there is no brace. -/
def closeBounds (least : Nat) (most : Option Nat) (rest : Bytes) :
    Except Fault (Option (Nat × Option Nat × Bytes)) :=
  match rest with
  | [] => .ok none
  | b :: after =>
    if b = byte '}' then
      if most.any (· < least) then failAt .boundsOutOfOrder after
      else .ok (some (least, most, after))
    else .ok none

/-- The bounds after an opening brace, and what follows the closing one; `none` if there are no
bounds. -/
def bounds (rest : Bytes) : Except Fault (Option (Nat × Option Nat × Bytes)) :=
  match count rest with
  | .error e => .error e
  | .ok (none, _) => .ok none
  | .ok (some least, after) =>
    match mostCount least after with
    | .error e => .error e
    | .ok (most, after') => closeBounds least most after'

/-- The mark of a quantifier without bounds. -/
def mark? (b : UInt8) : Option (Nat × Option Nat) :=
  if b = byte '*' then some (0, none)
  else if b = byte '+' then some (1, none)
  else if b = byte '?' then some (0, some 1)
  else none

/-- The quantified atom after the quantifier itself: a question mark makes it lazy, and no other
mark may follow. -/
def finishQuantifier (atom : Tree) (least : Nat) (most : Option Nat) (rest : Bytes) :
    Except Fault (Tree × Bytes) :=
  let (greedy, rest) := match rest with
    | b :: after => if b = byte '?' then (false, after) else (true, rest)
    | [] => (true, [])
  match rest with
  | b :: _ =>
    if (mark? b).isSome then failAt .nestedQuantifier rest
    else .ok (.rep atom least most greedy, rest)
  | [] => .ok (.rep atom least most greedy, [])

/-- An atom with the quantifier that follows it, if one does. -/
def quantify (atom : Tree) (rest : Bytes) : Except Fault (Tree × Bytes) :=
  match rest with
  | [] => .ok (atom, [])
  | b :: after =>
    match mark? b with
    | some (least, most) => finishQuantifier atom least most after
    | none =>
      if b = byte '{' then
        match bounds after with
        | .error e => .error e
        | .ok none => .ok (atom, rest)
        | .ok (some (least, most, after')) => finishQuantifier atom least most after'
      else .ok (atom, rest)

/-! ## Groups and alternatives -/

/-- The atom that starts with the byte `b`, which opens no group. -/
def atom (b : UInt8) (rest : Bytes) : Except Fault (Tree × Bytes) :=
  if b = byte '.' then .ok (.any, rest)
  else if b = byte '^' then .ok (.start, rest)
  else if b = byte '$' then .ok (.stop, rest)
  else if b = byte '[' then classTree rest
  else if b = backslash then
    match rest with
    | [] => failAt .trailingBackslash []
    | e :: after => .ok (escapeTree e, after)
  else if (mark? b).isSome then failAt .nothingToRepeat (b :: rest)
  else .ok (.byte b, rest)

/-- What has been read of a group: its finished alternatives and the items of the current one, both
with the last one first. -/
structure Level where
  branches : List Tree
  items : List Tree

namespace Level

/-- Nothing read. -/
def new : Level := ⟨[], []⟩

/-- One more item. -/
def push (level : Level) (item : Tree) : Level := { level with items := item :: level.items }

/-- The current alternative finished. -/
def finishBranch (level : Level) : Level :=
  ⟨Tree.ofItems level.items.reverse :: level.branches, []⟩

/-- The tree of a group. -/
def tree (level : Level) : Tree := Tree.ofBranches level.finishBranch.branches.reverse

end Level

theorem length_of_count {rest after : Bytes} {n : Option Nat} (h : count rest = .ok (n, after)) :
    after.length ≤ rest.length := by
  have hd : (rest.dropWhile isDigit).length ≤ rest.length :=
    (List.dropWhile_sublist _).length_le
  unfold count failAt at h
  simp only at h
  split at h
  · simp_all
  · split at h
    · simp at h
    · simp only [Except.ok.injEq, Prod.mk.injEq] at h
      rw [← h.2]
      exact hd

theorem length_of_mostCount {least : Nat} {rest after : Bytes} {most : Option Nat}
    (h : mostCount least rest = .ok (most, after)) : after.length ≤ rest.length := by
  unfold mostCount at h
  split at h
  · simp_all
  · split at h
    · have := length_of_count h
      simp only [List.length_cons]
      omega
    · simp_all

theorem length_of_closeBounds {least least' : Nat} {most most' : Option Nat} {rest after : Bytes}
    (h : closeBounds least most rest = .ok (some (least', most', after))) :
    after.length ≤ rest.length := by
  unfold closeBounds failAt at h
  split at h
  · simp at h
  · split at h
    · split at h
      · simp at h
      · simp_all
    · simp at h

theorem length_of_bounds {rest after : Bytes} {least : Nat} {most : Option Nat}
    (h : bounds rest = .ok (some (least, most, after))) : after.length ≤ rest.length := by
  unfold bounds at h
  split at h
  · simp at h
  · simp at h
  · rename_i h₁
    split at h
    · simp at h
    · rename_i h₂
      have := length_of_closeBounds h
      have := length_of_mostCount h₂
      have := length_of_count h₁
      omega

theorem length_of_finishQuantifier {t u : Tree} {least : Nat} {most : Option Nat} {rest after : Bytes}
    (h : finishQuantifier t least most rest = .ok (u, after)) : after.length ≤ rest.length := by
  unfold finishQuantifier failAt at h
  simp only at h
  split at h
  · split at h
    · simp at h
    · simp only [Except.ok.injEq, Prod.mk.injEq] at h
      rw [← h.2]
      split
      · split <;> simp
      · simp
  · simp only [Except.ok.injEq, Prod.mk.injEq] at h
    simp [← h.2]

theorem length_of_quantify {t u : Tree} {rest after : Bytes}
    (h : quantify t rest = .ok (u, after)) : after.length ≤ rest.length := by
  unfold quantify at h
  split at h
  · simp_all
  · split at h
    · have := length_of_finishQuantifier h
      simp only [List.length_cons]
      omega
    · split at h
      · split at h
        · simp at h
        · simp_all
        · rename_i hb
          have := length_of_finishQuantifier h
          have := length_of_bounds hb
          simp only [List.length_cons]
          omega
      · simp_all

theorem length_of_classItems {first : Bool} {rest after : Bytes} {ranges : List ByteRange}
    (h : classItems first rest = .ok (ranges, after)) : after.length ≤ rest.length := by
  fun_induction classItems first rest generalizing ranges with
  | case1 => simp [failAt] at h
  | case2 => simp_all
  | case3 => simp at h
  | case4 first b rest hb found after' hitem ih =>
    cases hmore : classItems false after' with
    | error e => simp [hmore, bind, Except.bind] at h
    | ok r =>
      simp only [hmore, bind, Except.bind, pure, Except.pure, Except.ok.injEq, Prod.mk.injEq] at h
      have := length_of_classItem hitem
      have : after.length ≤ after'.length := ih (by rw [hmore, ← h.2])
      simp only [List.length_cons]
      omega

theorem length_of_classTree {rest after : Bytes} {t : Tree}
    (h : classTree rest = .ok (t, after)) : after.length ≤ rest.length := by
  unfold classTree at h
  cases rest with
  | nil => simp [classItems, failAt, Except.map] at h
  | cons b rest =>
    by_cases hb : b = byte '^'
    · cases hc : classItems true rest with
      | error e => simp [hb, hc, Except.map] at h
      | ok r =>
        simp only [hb, hc, Except.map, if_pos, Except.ok.injEq, Prod.mk.injEq] at h
        have := length_of_classItems hc
        simp only [List.length_cons, ← h.2]
        omega
    · cases hc : classItems true (b :: rest) with
      | error e => simp [hb, hc, Except.map] at h
      | ok r =>
        simp only [hb, hc, Except.map, if_neg, not_false_eq_true, Except.ok.injEq, Prod.mk.injEq] at h
        have := length_of_classItems hc
        rw [← h.2]
        exact this

theorem length_of_atom {b : UInt8} {t : Tree} {rest after : Bytes}
    (h : atom b rest = .ok (t, after)) : after.length ≤ rest.length := by
  unfold atom at h
  split at h
  · simp_all
  split at h
  · simp_all
  split at h
  · simp_all
  split at h
  · exact length_of_classTree h
  split at h
  · split at h
    · simp [failAt] at h
    · simp_all
  split at h
  · simp [failAt] at h
  · simp_all

/-- Reads a pattern from left to right. The stack holds the enclosing levels, each with the index of
the group that was opened in it; `groups` is the number of indices given away. The result is the
tree and the number of groups. -/
def readFrom (stack : List (Level × Option Nat)) (level : Level) (groups : Nat) (rest : Bytes) :
    Except Fault (Tree × Nat) :=
  match rest with
  | [] => if stack.isEmpty then .ok (level.tree, groups) else failAt .missingClose []
  | b :: after =>
    if b = byte '|' then readFrom stack level.finishBranch groups after
    else if b = byte '(' then
      if stack.length = maxNesting then failAt .nestingTooDeep (b :: after)
      else if [byte '?', byte ':'].isPrefixOf after then
        readFrom ((level, none) :: stack) .new groups (after.drop 2)
      else readFrom ((level, some groups) :: stack) .new (groups + 1) after
    else if b = byte ')' then
      match stack with
      | [] => failAt .unmatchedClose (b :: after)
      | (outer, index) :: stack =>
        match _h : quantify (.group level.tree index) after with
        | .error e => .error e
        | .ok (item, after') => readFrom stack (outer.push item) groups after'
    else
      match _h₁ : atom b after with
      | .error e => .error e
      | .ok (item, after') =>
        match _h₂ : quantify item after' with
        | .error e => .error e
        | .ok (item, after'') => readFrom stack (level.push item) groups after''
termination_by rest.length
decreasing_by
  · simp
  · simp only [List.length_drop, List.length_cons]; omega
  · simp
  · have := length_of_quantify _h
    simp only [List.length_cons]
    omega
  · have := length_of_atom _h₁
    have := length_of_quantify _h₂
    simp only [List.length_cons]
    omega

/-- The tree of a whole pattern and the number of its capturing groups. The error comes with its
offset. -/
def Tree.parse (pattern : Bytes) : Except (SyntaxError × Nat) (Tree × Nat) :=
  (readFrom [] .new 0 pattern).mapError fun fault => (fault.error, pattern.length - fault.left)

end Bytework.Pattern
