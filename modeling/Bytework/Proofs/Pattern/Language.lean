import Bytework.Proofs.Bytes.Folded
import Bytework.Proofs.Pattern.Moves

/-!
# What a tree matches

The pieces of a text that a tree matches, defined over the tree alone.

* `Flags.variants`: the bytes that are read like a byte; `Flags.reads_byte_iff` and
  `Flags.reads_set_iff` say what is read in these terms.
* `Repeats`: a relation between positions several times over.
* `Tree.Matches`: a tree matches a text between two positions; `Tree.bounds_of_matches`.
* `Tree.leaf?`, **`mem_next_of_leaf`**: a tree that is laid out as one instruction, whose steps are
  the pieces that the tree matches.
-/

namespace Bytework.Pattern

/-! ## Bytes -/

namespace Flags

/-- The bytes that are read like a byte: itself, and with case ignored its two cases. -/
def variants (flags : Flags) (b : UInt8) : List UInt8 :=
  if flags.ignoreCase then [b, lowerByte b, upperByte b] else [b]

variable {flags : Flags} {b : UInt8}

theorem reads_byte_iff {c : UInt8} : flags.reads (.byte c) b = true ↔ c ∈ flags.variants b := by
  rw [reads]
  unfold sameByte variants sameFolded
  split
  · rw [beq_iff_eq, lowerByte_eq_iff, List.mem_cons, List.mem_cons, List.mem_singleton]
  · rw [beq_iff_eq, List.mem_singleton, eq_comm]

theorem reads_any_iff : flags.reads .any b = true ↔ flags.dotAll = true ∨ b ≠ lineFeed := by
  rw [reads, Bool.or_eq_true, bne_iff_ne]

theorem reads_set_iff {ranges : List ByteRange} {negated : Bool} :
    flags.reads (.set ranges negated) b = true ↔
      ((∃ c ∈ flags.variants b, ∃ r ∈ ranges, r.lo ≤ c ∧ c ≤ r.hi) ↔ negated = false) := by
  have hfound : ∀ c, inRanges ranges c = true ↔ ∃ r ∈ ranges, r.lo ≤ c ∧ c ≤ r.hi := by
    intro c
    simp [inRanges, ByteRange.mem]
  have hvariants : (if flags.ignoreCase then
      inRanges ranges b || inRanges ranges (lowerByte b) || inRanges ranges (upperByte b)
      else inRanges ranges b) = (flags.variants b).any (inRanges ranges) := by
    unfold variants
    split <;> simp [Bool.or_assoc]
  rw [reads, inSet, hvariants]
  simp only [← hfound, ← List.any_eq_true]
  cases (flags.variants b).any (inRanges ranges) <;> cases negated <;> decide

theorem atStart_iff {text : Bytes} {i : Nat} : flags.atStart text.toArray i = true ↔
    i = 0 ∨ flags.multiline = true ∧ text[i - 1]? = some lineFeed := by
  simp [atStart]

theorem atStop_iff {text : Bytes} {i : Nat} : flags.atStop text.toArray i = true ↔
    i = text.length ∨ flags.multiline = true ∧ text[i]? = some lineFeed := by
  simp [atStop]

end Flags

/-! ## Trees -/

/-- A relation between positions, a number of times over. -/
def Repeats (R : Nat → Nat → Prop) : Nat → Nat → Nat → Prop
  | 0, i, j => i = j
  | k + 1, i, j => ∃ m, R i m ∧ Repeats R k m j

theorem repeats_add {R : Nat → Nat → Prop} {a b i j : Nat} :
    Repeats R (a + b) i j ↔ ∃ m, Repeats R a i m ∧ Repeats R b m j := by
  induction a generalizing i with
  | zero => simp [Repeats]
  | succ a ih =>
    rw [Nat.succ_add, Repeats]
    constructor
    · rintro ⟨m, hm, hrest⟩
      obtain ⟨k, hk, hj⟩ := ih.mp hrest
      exact ⟨k, ⟨m, hm, hk⟩, hj⟩
    · rintro ⟨k, ⟨m, hm, hk⟩, hj⟩
      exact ⟨m, hm, ih.mpr ⟨k, hk, hj⟩⟩

theorem repeats_least_iff {R : Nat → Nat → Prop} {least i j : Nat} :
    (∃ m, Repeats R least i m ∧ ∃ q, Repeats R q m j) ↔ ∃ k, least ≤ k ∧ Repeats R k i j := by
  constructor
  · rintro ⟨m, him, q, hmj⟩
    exact ⟨least + q, Nat.le_add_right _ _, repeats_add.mpr ⟨m, him, hmj⟩⟩
  · rintro ⟨k, hk, hij⟩
    rw [← Nat.add_sub_cancel' hk, repeats_add] at hij
    obtain ⟨m, him, hmj⟩ := hij
    exact ⟨m, him, k - least, hmj⟩

/-- The least number of times, and then up to the most. -/
theorem repeats_most_iff {R : Nat → Nat → Prop} {least most i j : Nat} (hle : least ≤ most) :
    (∃ m, Repeats R least i m ∧ ∃ q ≤ most - least, Repeats R q m j) ↔
      ∃ k, least ≤ k ∧ k ≤ most ∧ Repeats R k i j := by
  constructor
  · rintro ⟨m, him, q, hq, hmj⟩
    exact ⟨least + q, Nat.le_add_right _ _, by omega, repeats_add.mpr ⟨m, him, hmj⟩⟩
  · rintro ⟨k, hk, hmost, hij⟩
    rw [← Nat.add_sub_cancel' hk, repeats_add] at hij
    obtain ⟨m, him, hmj⟩ := hij
    exact ⟨m, him, k - least, Nat.sub_le_sub_right hmost least, hmj⟩

namespace Tree

variable (flags : Flags) (text : Bytes)

/-- A tree matches a text between two positions. -/
def Matches : Tree → Nat → Nat → Prop
  | .empty, i, j => i = j
  | .byte c, i, j => j = i + 1 ∧ ∃ b, text[i]? = some b ∧ c ∈ flags.variants b
  | .any, i, j => j = i + 1 ∧ ∃ b, text[i]? = some b ∧ (flags.dotAll = true ∨ b ≠ lineFeed)
  | .set ranges negated, i, j =>
    j = i + 1 ∧ ∃ b, text[i]? = some b ∧
      ((∃ c ∈ flags.variants b, ∃ r ∈ ranges, r.lo ≤ c ∧ c ≤ r.hi) ↔ negated = false)
  | .start, i, j => j = i ∧ (i = 0 ∨ flags.multiline = true ∧ text[i - 1]? = some lineFeed)
  | .stop, i, j => j = i ∧ (i = text.length ∨ flags.multiline = true ∧ text[i]? = some lineFeed)
  | .group body _, i, j => Matches body i j
  | .seq first second, i, j => ∃ m, Matches first i m ∧ Matches second m j
  | .alt left right, i, j => Matches left i j ∨ Matches right i j
  | .rep body least most _, i, j =>
    ∃ k, least ≤ k ∧ (∀ m ∈ most, k ≤ m) ∧ Repeats (Matches body) k i j

variable {flags text}

/-- The pieces that a tree matches lie in the text. -/
theorem bounds_of_matches {t : Tree} {i j : Nat} (h : t.Matches flags text i j)
    (hi : i ≤ text.length) : i ≤ j ∧ j ≤ text.length := by
  have hread : ∀ {k : Nat} {b : UInt8}, text[k]? = some b → k < text.length := fun hb => by
    obtain ⟨hk, -⟩ := List.getElem?_eq_some_iff.mp hb
    exact hk
  induction t generalizing i j with
  | empty =>
    obtain rfl : i = j := h
    exact ⟨Nat.le_refl i, hi⟩
  | byte | any | set =>
    obtain ⟨rfl, b, hb, -⟩ := h
    exact ⟨Nat.le_succ i, hread hb⟩
  | start | stop =>
    obtain ⟨rfl, -⟩ := h
    exact ⟨Nat.le_refl j, hi⟩
  | group body index ih => exact ih h hi
  | seq first second ih₁ ih₂ =>
    obtain ⟨m, hfirst, hsecond⟩ := h
    obtain ⟨him, hm⟩ := ih₁ hfirst hi
    obtain ⟨hmj, hj⟩ := ih₂ hsecond hm
    exact ⟨him.trans hmj, hj⟩
  | alt left right ih₁ ih₂ =>
    rcases h with h | h
    · exact ih₁ h hi
    · exact ih₂ h hi
  | rep body least most greedy ih =>
    obtain ⟨k, -, -, hk⟩ := h
    induction k generalizing i with
    | zero =>
      obtain rfl : i = j := hk
      exact ⟨Nat.le_refl i, hi⟩
    | succ k ihk =>
      obtain ⟨m, hbody, hrest⟩ := hk
      obtain ⟨him, hm⟩ := ih hbody hi
      obtain ⟨hmj, hj⟩ := ihk hm hrest
      exact ⟨him.trans hmj, hj⟩

/-! ## Leaves -/

/-- The instruction as which a tree without parts is laid out. -/
def leaf? : Tree → Option Inst
  | .byte b => some (.byte b)
  | .any => some .any
  | .set ranges negated => some (.set ranges negated)
  | .start => some .assertStart
  | .stop => some .assertStop
  | _ => none

end Tree

variable {flags : Flags} {text : Bytes}

theorem mem_reader_iff {pc i : Nat} {s : State} {reads : UInt8 → Bool} :
    s ∈ (if text.toArray[i]?.any reads then [(pc + 1, i + 1)] else []) ↔
      s.1 = pc + 1 ∧ s.2 = i + 1 ∧ ∃ b, text[i]? = some b ∧ reads b = true := by
  rw [List.getElem?_toArray, ← Option.any_eq_true]
  split
  · rename_i h
    simp [h, Prod.ext_iff]
  · rename_i h
    simp [h]

/-- **The steps of a leaf** are the pieces that it matches. -/
theorem mem_next_of_leaf {t : Tree} {inst : Inst} (h : t.leaf? = some inst) {pc i : Nat}
    {s : State} : s ∈ inst.next flags text.toArray (pc, i) ↔
      s.1 = pc + 1 ∧ t.Matches flags text i s.2 := by
  cases t <;> cases h <;> simp only [Inst.next, Tree.Matches]
  case byte => simp only [mem_reader_iff, Flags.reads_byte_iff]
  case any => simp only [mem_reader_iff, Flags.reads_any_iff]
  case set => simp only [mem_reader_iff, Flags.reads_set_iff]
  case start =>
    rw [← Flags.atStart_iff]
    split <;> simp [*, Prod.ext_iff]
  case stop =>
    rw [← Flags.atStop_iff]
    split <;> simp [*, Prod.ext_iff]

end Bytework.Pattern
