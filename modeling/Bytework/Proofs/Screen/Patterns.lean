import Bytework.Screen.Account
import Mathlib.Data.List.Chain
import Mathlib.Data.List.Enum
import Mathlib.Data.List.Infix
import Mathlib.Data.List.Pairwise

/-!
# Patterns of bytes

The tests of neighbours, and the counter of runs, in terms of the whole string.

* `Counts`, `Counts.read`: what the counter holds, and that one more byte keeps it; `le_longestRun_iff`:
  the longest run is the longest piece of the string with bytes of one kind.
* `neighbours_iff_pairwise`: a transitive relation that holds between all neighbours holds between all
  pairs.
* `alternating_iff`: two bytes take turns.
* `HasPair`, `not_pairwise_iff`: a pair of positions at which a relation fails.
* **`patterns_decided`**: all of this for every string, and what a password that is not weak must have.
-/

namespace Bytework.Screen

variable {p : UInt8 → Bool} {s run : Bytes} {count : RunCount} {b : UInt8} {k : ℕ}

/-! ## Runs -/

/-- As many bytes as `k`, all in `p`. -/
structure IsRun (p : UInt8 → Bool) (k : ℕ) (run : Bytes) : Prop where
  length_eq : run.length = k
  mem : ∀ b ∈ run, p b = true

/-- The counter after all of a string: it holds the length of the longest run in the string, and that
of the longest run at the end of the string. -/
structure Counts (p : UInt8 → Bool) (s : Bytes) (count : RunCount) : Prop where
  longest : ∀ k, k ≤ count.longest ↔ ∃ run, run <:+: s ∧ IsRun p k run
  current : ∀ k, k ≤ count.current ↔ ∃ run, run <:+ s ∧ IsRun p k run

theorem isRun_nil_iff : IsRun p k [] ↔ k = 0 :=
  ⟨fun h => h.length_eq.symm, fun h => ⟨h.symm, by simp⟩⟩

theorem isRun_concat_iff : IsRun p k (run ++ [b]) ↔ ∃ j, k = j + 1 ∧ p b = true ∧ IsRun p j run := by
  constructor
  · rintro ⟨rfl, hrun⟩
    obtain ⟨hrun, hb⟩ := List.forall_mem_append.mp hrun
    exact ⟨run.length, by simp, by simpa using hb, rfl, hrun⟩
  · rintro ⟨j, rfl, hb, rfl, hrun⟩
    exact ⟨by simp, List.forall_mem_append.mpr ⟨hrun, by simpa using hb⟩⟩

/-- A run at the end of a string is empty, or goes on with one that ended before the last byte. -/
theorem exists_suffix_concat_iff : (∃ run, run <:+ s ++ [b] ∧ IsRun p k run) ↔
    k = 0 ∨ ∃ j, k = j + 1 ∧ p b = true ∧ ∃ run, run <:+ s ∧ IsRun p j run := by
  constructor
  · rintro ⟨run, hend, hrun⟩
    rcases List.suffix_concat_iff.mp hend with rfl | ⟨before, rfl, hbefore⟩
    · exact .inl (isRun_nil_iff.mp hrun)
    · obtain ⟨j, hj, hb, hrun⟩ := isRun_concat_iff.mp hrun
      exact .inr ⟨j, hj, hb, before, hbefore, hrun⟩
  · rintro (rfl | ⟨j, hj, hb, run, hend, hrun⟩)
    · exact ⟨[], List.nil_suffix, isRun_nil_iff.mpr rfl⟩
    · exact ⟨run ++ [b], List.suffix_concat_iff.mpr (.inr ⟨run, rfl, hend⟩),
        isRun_concat_iff.mpr ⟨j, hj, hb, hrun⟩⟩

theorem counts_nil : Counts p [] {} := by
  constructor <;> intro k <;> simp [isRun_nil_iff]

/-- **One more byte** keeps the counter right. -/
theorem Counts.read (h : Counts p s count) (b : UInt8) : Counts p (s ++ [b]) (count.read p b) := by
  have hcurrent : ∀ k, k ≤ (count.read p b).current ↔ ∃ run, run <:+ s ++ [b] ∧ IsRun p k run := by
    intro k
    simp only [exists_suffix_concat_iff, ← h.current, RunCount.read]
    cases k with
    | zero => simp
    | succ k => cases p b <;> simp
  refine ⟨fun k => ?_, hcurrent⟩
  -- a run in the longer string is one at its end, or one in the shorter string
  have hlongest : k ≤ (count.read p b).longest ↔
      k ≤ count.longest ∨ k ≤ (count.read p b).current := by
    show k ≤ max count.longest (count.read p b).current ↔ _
    omega
  rw [hlongest, hcurrent, h.longest, or_comm, ← exists_or]
  simp only [List.infix_concat_iff, or_and_right]

theorem counts_foldl (p : UInt8 → Bool) (s : Bytes) : Counts p s (s.foldl (RunCount.read p) {}) := by
  induction s using List.reverseRecOn with
  | nil => exact counts_nil
  | append_singleton s b ih =>
    rw [List.foldl_concat]
    exact ih.read b

/-- **The longest run** is at least as long as every piece of the string with all bytes in `p`, and there
is such a piece. -/
theorem le_longestRun_iff : k ≤ longestRun p s ↔
    ∃ run, run <:+: s ∧ run.length = k ∧ ∀ b ∈ run, p b = true := by
  rw [longestRun, (counts_foldl p s).longest]
  exact exists_congr fun run => and_congr_right fun _ => ⟨fun h => ⟨h.1, h.2⟩, fun h => ⟨h.1, h.2⟩⟩

/-! ## Neighbours -/

section Neighbours

variable {r : UInt8 → UInt8 → Bool} {R : UInt8 → UInt8 → Prop}

theorem neighbours_iff : neighbours r s = true ↔ s.IsChain fun a b => r a b = true := by
  induction s with
  | nil => simp [neighbours]
  | cons a s ih =>
    cases s with
    | nil => simp [neighbours]
    | cons b s =>
      rw [List.isChain_cons_cons, ← ih]
      simp [neighbours]

/-- **A transitive relation between all neighbours** holds between all pairs. -/
theorem neighbours_iff_pairwise [Trans R R R] (hr : ∀ a b, r a b = true ↔ R a b) :
    neighbours r s = true ↔ s.Pairwise R := by
  rw [neighbours_iff, ← List.isChain_iff_pairwise]
  simp only [hr]

theorem pairwise_iff : s.Pairwise R ↔ ∀ i j (_ : i < j) (_ : j < s.length), R s[i] s[j] := by
  rw [List.pairwise_iff_getElem]
  exact ⟨fun h i j hij hj => h i j (hij.trans hj) hj hij, fun h i j _ hj hij => h i j hij hj⟩

/-- Two positions, one behind the other, with bytes in a relation. -/
def HasPair (R : UInt8 → UInt8 → Prop) (s : Bytes) : Prop :=
  ∃ i j, ∃ (_ : i < j) (_ : j < s.length), R s[i] s[j]

theorem not_pairwise_iff : ¬ s.Pairwise R ↔ HasPair (fun a b => ¬ R a b) s := by
  simp only [pairwise_iff, HasPair, not_forall]

end Neighbours

theorem allSame_iff : allSame s = true ↔ s.Pairwise (· = ·) :=
  neighbours_iff_pairwise fun _ _ => beq_iff_eq

theorem increasing_iff : increasing s = true ↔ s.Pairwise (· < ·) :=
  neighbours_iff_pairwise fun _ _ => decide_eq_true_iff

theorem decreasing_iff : decreasing s = true ↔ s.Pairwise (· > ·) :=
  neighbours_iff_pairwise fun _ _ => decide_eq_true_iff

theorem allSame_iff_forall : allSame s = true ↔ ∀ a ∈ s, ∀ b ∈ s, a = b := by
  rw [allSame_iff]
  exact ⟨List.Pairwise.forall_of_forall fun _ _ => rfl, fun h => List.pairwise_of_forall_mem_list h⟩

/-! ## Turns -/

/-- Two bytes take turns in a string. -/
def Alternates (a b : UInt8) (s : Bytes) : Prop :=
  ∀ i (_ : i < s.length), s[i] = if i % 2 = 0 then a else b

theorem alternates_cons_cons {a b x y : UInt8} :
    Alternates a b (x :: y :: s) ↔ x = a ∧ y = b ∧ Alternates a b s := by
  constructor
  · intro h
    refine ⟨h 0 (by simp), h 1 (by simp), fun i hi => ?_⟩
    have hbehind := h (i + 2) (by simpa using hi)
    rwa [Nat.add_mod_right] at hbehind
  · rintro ⟨hx, hy, hs⟩ i hi
    match i with
    | 0 => exact hx
    | 1 => exact hy
    | i + 2 => simpa using hs i (by simpa using hi)

theorem alternating_iff : alternating s = true ↔
    4 ≤ s.length ∧ ∃ a b, a ≠ b ∧ Alternates a b s := by
  match s with
  | [] => simp [alternating]
  | [x] => simp [alternating]
  | x :: y :: s =>
    have hturns : (s.zipIdx.all fun q => q.1 == if q.2 % 2 = 0 then x else y) = true ↔
        Alternates x y s := by
      simp only [List.all_eq_true, beq_iff_eq, List.forall_mem_zipIdx', Alternates]
    have hlength : 4 ≤ (x :: y :: s).length ↔ 2 ≤ s.length := by simp
    simp only [alternating, Bool.and_eq_true, decide_eq_true_eq, bne_iff_ne, hturns,
      alternates_cons_cons, hlength]
    constructor
    · rintro ⟨⟨hlong, hne⟩, hs⟩
      exact ⟨hlong, x, y, hne, rfl, rfl, hs⟩
    · rintro ⟨hlong, a, b, hne, rfl, rfl, hs⟩
      exact ⟨⟨hlong, hne⟩, hs⟩

/-! ## Passwords -/

theorem patterns_of_strong {username email : Bytes} (h : isWeakPassword s username email = false) :
    allSame s = false ∧ increasing s = false ∧ decreasing s = false := by
  simp only [isWeakPassword, Bool.or_eq_false_iff] at h
  obtain ⟨⟨⟨⟨⟨-, hsame⟩, hincreasing⟩, hdecreasing⟩, -⟩, -⟩ := h
  exact ⟨hsame, hincreasing, hdecreasing⟩

/-- **The patterns are those of the whole string**: the longest run of bytes of a kind is the longest
piece of such bytes; and the tests of neighbours decide whether all bytes are equal, whether they
increase or decrease throughout, and whether two bytes take turns. A password that is not weak has two
bytes that do not decrease, two that do not increase, and two that differ. -/
theorem patterns_decided (s : Bytes) :
    (∀ p k, k ≤ longestRun p s ↔ ∃ run, run <:+: s ∧ run.length = k ∧ ∀ b ∈ run, p b = true) ∧
    (allSame s = true ↔ ∀ a ∈ s, ∀ b ∈ s, a = b) ∧
    (increasing s = true ↔ ∀ i j (_ : i < j) (_ : j < s.length), s[i] < s[j]) ∧
    (decreasing s = true ↔ ∀ i j (_ : i < j) (_ : j < s.length), s[i] > s[j]) ∧
    (alternating s = true ↔ 4 ≤ s.length ∧ ∃ a b, a ≠ b ∧ Alternates a b s) ∧
    ∀ username email, isWeakPassword s username email = false →
      HasPair (· ≤ ·) s ∧ HasPair (· ≥ ·) s ∧ HasPair (· ≠ ·) s := by
  refine ⟨fun p k => le_longestRun_iff, allSame_iff_forall, increasing_iff.trans pairwise_iff,
    decreasing_iff.trans pairwise_iff, alternating_iff, fun username email h => ?_⟩
  obtain ⟨hsame, hincreasing, hdecreasing⟩ := patterns_of_strong h
  rw [Bool.eq_false_iff, Ne, allSame_iff, not_pairwise_iff] at hsame
  rw [Bool.eq_false_iff, Ne, increasing_iff, not_pairwise_iff] at hincreasing
  rw [Bool.eq_false_iff, Ne, decreasing_iff, not_pairwise_iff] at hdecreasing
  simp only [gt_iff_lt, UInt8.not_lt] at hincreasing hdecreasing
  exact ⟨hdecreasing, hincreasing, hsame⟩

/-- A password that is not weak, with a run of three letters, beside one that increases throughout. -/
theorem patterns_decided_strong :
    let strong := ascii "Tr0ub4dor&3x"
    let sorted := ascii "!#%9AIZz"
    (isWeakPassword strong (ascii "alice") (ascii "alice@gmail.com") = false ∧
      HasPair (· ≤ ·) strong ∧ HasPair (· ≥ ·) strong ∧ HasPair (· ≠ ·) strong) ∧
    (∃ run, run <:+: strong ∧ run.length = 3 ∧ ∀ b ∈ run, isAlpha b = true) ∧
    increasing sorted = true ∧ ∃ x y, sorted[1]? = some x ∧ sorted[6]? = some y ∧ x < y := by
  intro strong sorted
  have hstrong : isWeakPassword strong (ascii "alice") (ascii "alice@gmail.com") = false := by decide
  have hsorted : increasing sorted = true := by decide
  obtain ⟨hruns, -, -, -, -, hpairs⟩ := patterns_decided strong
  obtain ⟨-, -, hincreasing, -⟩ := patterns_decided sorted
  have hrun : 3 ≤ longestRun isAlpha strong := by decide
  have hbytes : sorted[1] < sorted[6] := hincreasing.mp hsorted 1 6 (by decide) (by decide)
  exact ⟨⟨hstrong, hpairs _ _ hstrong⟩, (hruns isAlpha 3).mp hrun, hsorted, _, _, rfl, rfl, hbytes⟩

end Bytework.Screen
