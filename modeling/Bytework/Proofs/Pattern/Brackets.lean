import Bytework.Proofs.Pattern.Leftmost
import Bytework.Proofs.Pattern.Reread

/-!
# Brackets as patterns

A bracket class that lists some items, as a pattern of its own.

* `writeClass`, `classProgram`: the pattern and its program; `compile_writeClass`.
* `matchesPiece_set_iff`: what a class matches in a text of one byte.
* **`isMatch_writeClass`**: the class matches the bytes for which its items stand, or if negated the
  others.
-/

namespace Bytework.Pattern

/-- A class in brackets. -/
def writeClass (negated : Bool) (items : List ClassItem) : Bytes :=
  byte '[' :: (writeNegated negated ++ (items.flatMap ClassItem.write ++ [byte ']']))

/-- The program of a class: one instruction between the marks of the whole match. -/
def classProgram (ranges : List ByteRange) (negated : Bool) : Program :=
  ⟨#[.save 0, .set ranges negated, .save 1, .accept], 0⟩

variable {items : List ClassItem} {flags : Flags}

theorem parse_writeClass (negated : Bool) (hne : items ≠ []) (hitems : ∀ item ∈ items, item.Ordered) :
    Tree.parse (writeClass negated items) =
      .ok (.set (items.flatMap ClassItem.ranges) negated, 0) := by
  have hatom : atom (byte '[') (writeNegated negated ++ (items.flatMap ClassItem.write ++ [byte ']'])) =
      .ok (.set (items.flatMap ClassItem.ranges) negated, []) := classTree_items [] negated hne hitems
  rw [Tree.parse_eq_ok_iff, writeClass, readFrom_atom (by decide) (by decide) (by decide) hatom,
    quantify, Except.bind, readFrom.eq_def]
  rfl

theorem compile_writeClass (ungreedy negated : Bool) (hne : items ≠ [])
    (hitems : ∀ item ∈ items, item.Ordered) :
    compile ungreedy (writeClass negated items) =
      .ok (classProgram (items.flatMap ClassItem.ranges) negated) := by
  simp only [compile, parse_writeClass negated hne hitems]
  rfl

/-- What a class matches in a text of one byte. -/
theorem matchesPiece_set_iff {ranges : List ByteRange} {negated : Bool} {b : UInt8} {i j : Nat} :
    (Tree.set ranges negated).MatchesPiece flags [b] i j ↔
      i = 0 ∧ j = 1 ∧ ((∃ c ∈ flags.variants b, InRanges ranges c) ↔ negated = false) := by
  rw [Tree.MatchesPiece, Tree.Matches]
  constructor
  · rintro ⟨-, hj, -, rfl, c, hc, hset⟩
    rw [List.length_singleton] at hj
    obtain rfl : i = 0 := by omega
    cases hc
    exact ⟨rfl, rfl, hset⟩
  · rintro ⟨rfl, rfl, hset⟩
    exact ⟨Nat.zero_le 1, Nat.le_refl 1, fun _ => rfl, rfl, b, rfl, hset⟩

/-- **A class matches the bytes for which its items stand**, or if negated the others; with case
ignored, a byte counts as one of them if one of its cases is. -/
theorem isMatch_writeClass (negated : Bool) (hne : items ≠ []) (hitems : ∀ item ∈ items, item.Ordered) :
    ∃ ranges, (∀ b, InRanges ranges b ↔ ∃ item ∈ items, item.Has b) ∧
      ∀ options : Options,
        compile options.ungreedy (writeClass negated items) = .ok (classProgram ranges negated) ∧
        (∀ pattern, Bytes.ofText pattern = writeClass negated items →
          Regex.compile pattern options = .ok ⟨pattern, classProgram ranges negated, options⟩) ∧
        ∀ pattern b, ∃ found,
          Regex.find? ⟨pattern, classProgram ranges negated, options⟩ [b] = .ok found ∧
          Regex.isMatch ⟨pattern, classProgram ranges negated, options⟩ [b] = .ok found.isSome ∧
          (found.isSome = true ↔
            ((∃ c ∈ options.flags.variants b, ∃ item ∈ items, item.Has c) ↔ negated = false)) ∧
          ∀ m ∈ found, m.start = 0 ∧ m.stop = 1 := by
  have hranges : ∀ b, InRanges (items.flatMap ClassItem.ranges) b ↔ ∃ item ∈ items, item.Has b := by
    intro b
    rw [inRanges_flatMap]
    exact exists_congr fun item => and_congr_right fun _ => item.inRanges_ranges_iff b
  refine ⟨_, hranges, fun options => ?_⟩
  have hcompile := compile_writeClass options.ungreedy negated hne hitems
  refine ⟨hcompile, fun pattern hpattern => ?_, fun pattern b => ?_⟩
  · rw [Regex.compile, hpattern, hcompile]
    rfl
  obtain ⟨found, hfound, hmatch, hnone, hleast⟩ := leftmost_of_parse
    ⟨pattern, classProgram (items.flatMap ClassItem.ranges) negated, options⟩ hcompile
    (parse_writeClass negated hne hitems) [b]
  simp only [matchesPiece_set_iff, hranges] at hnone hleast
  refine ⟨found, hfound, hmatch, ?_, fun m hm => ?_⟩
  · cases found with
    | none => exact iff_of_false Bool.false_ne_true fun hset => hnone rfl 0 1 ⟨rfl, rfl, hset⟩
    | some m => exact iff_of_true rfl (hleast m rfl).1.2.2
  · obtain ⟨⟨hstart, hstop, -⟩, -⟩ := hleast m hm
    exact ⟨hstart, hstop⟩

/-- A closing bracket, a range that ends in a hyphen, whatever is no word byte, a caret and a letter. -/
def crowded : List ClassItem :=
  [.single (byte ']'), .range ⟨byte '+', byte '-'⟩, .named .word true, .single (byte '^'),
    .single (byte 'K')]

theorem isMatch_crowded : crowded ≠ [] ∧ (∀ item ∈ crowded, item.Ordered) ∧
    writeClass true crowded = ascii "[^\\]+-\\-\\W\\^K]" ∧
    ∃ ranges, compile false (ascii "[^\\]+-\\-\\W\\^K]") = .ok (classProgram ranges true) ∧
      Regex.isMatch ⟨"", classProgram ranges true, { ignoreCase := true }⟩ [byte 'k'] = .ok false ∧
      Regex.isMatch ⟨"", classProgram ranges true, { ignoreCase := true }⟩ [byte 'j'] = .ok true := by
  have hne : crowded ≠ [] := List.cons_ne_nil _ _
  have hitems : ∀ item ∈ crowded, item.Ordered := by
    simp only [crowded, List.forall_mem_cons, ClassItem.Ordered]
    exact ⟨trivial, by decide, trivial, trivial, trivial, fun _ h => absurd h List.not_mem_nil⟩
  have hwrite : writeClass true crowded = ascii "[^\\]+-\\-\\W\\^K]" := by decide
  obtain ⟨ranges, -, hoptions⟩ := isMatch_writeClass true hne hitems
  obtain ⟨hcompile, -, hfind⟩ := hoptions { ignoreCase := true }
  refine ⟨hne, hitems, hwrite, ranges, hwrite ▸ hcompile, ?_, ?_⟩
  · obtain ⟨found, -, hmatch, hiff, -⟩ := hfind "" (byte 'k')
    have hfalse : found.isSome = false := by
      rw [Bool.eq_false_iff, ne_eq, hiff]
      simp only [Bool.true_eq_false, iff_false, not_not]
      exact ⟨byte 'K', by decide, .single (byte 'K'), by decide, rfl⟩
    rw [hmatch, hfalse]
  · obtain ⟨found, -, hmatch, hiff, -⟩ := hfind "" (byte 'j')
    have htrue : found.isSome = true := by
      rw [hiff]
      simp only [Bool.true_eq_false, iff_false]
      rintro ⟨c, hc, item, hitem, hhas⟩
      simp only [Flags.variants, Options.flags, if_true, List.mem_cons, List.not_mem_nil, or_false] at hc
      simp only [crowded, List.mem_cons, List.not_mem_nil, or_false] at hitem
      rcases hc with rfl | rfl | rfl <;> rcases hitem with rfl | rfl | rfl | rfl | rfl <;>
        revert hhas <;> simp only [ClassItem.Has, NamedSet.Has] <;> decide
    rw [hmatch, htrue]

end Bytework.Pattern
