import Bytework.Proofs.Bytes.Search
import Bytework.Proofs.Pattern.Expressed
import Bytework.Proofs.Pattern.Leftmost

/-!
# Literal patterns

A byte string, written as a pattern that says nothing else, is found where it occurs first.

* `writeBytes`: the pattern of a byte string, and `Tree.literal`, its tree.
* `parse_writeBytes`, `compile_writeBytes`: the pattern is read as that tree, and compiles unless it is
  too long.
* `matches_literal_iff`: what the tree matches.
* **`find?_writeBytes`**: searching for the pattern is searching for the byte string.
-/

namespace Bytework.Pattern

/-- A byte string as it stands outside a class. -/
def writeBytes (w : Bytes) : Bytes := w.flatMap writeByte

/-- The tree of a byte string. -/
def Tree.literal (w : Bytes) : Tree := ofItems (w.map Tree.byte)

/-! ## The pattern -/

namespace Tree

theorem render_ofItems (items : List Tree) : (ofItems items).render = items.flatMap render := by
  fun_induction ofItems items with
  | case1 => rfl
  | case2 t => simp
  | case3 t u rest ih =>
    rw [render, ih]
    rfl

variable (w : Bytes)

theorem render_literal : (literal w).render = writeBytes w := by
  rw [literal, render_ofItems, List.flatMap_map]
  rfl

theorem size_literal : (literal w).size = w.length := by
  have hone : size ∘ byte = fun _ => 1 := rfl
  rw [literal, size_ofItems, List.map_map, hone, List.map_const', List.sum_replicate_nat, Nat.mul_one]

theorem allPlaced_literal : AllPlaced 0 0 (w.map byte) ∧ capturesOf (w.map byte) = 0 := by
  induction w with
  | nil => exact ⟨trivial, rfl⟩
  | cons b w ih => exact ⟨⟨⟨trivial, Nat.zero_le _⟩, ih.1⟩, (Nat.zero_add _).trans ih.2⟩

theorem captures_literal : (literal w).captures = 0 := by
  rw [literal, captures_ofItems, (allPlaced_literal w).2]

theorem expressible_literal : (literal w).Expressible := by
  have hfits : ∀ t ∈ w.map byte, t.Fits .item := by
    intro t ht
    obtain ⟨b, -, rfl⟩ := List.mem_map.mp ht
    exact .plain (.byte b)
  have hplaced := placed_ofItems (Nat.zero_le maxNesting) (allPlaced_literal w).1
  exact ⟨.only (fits_ofItems hfits), hplaced.numbered, (Nat.zero_add _).ge.trans hplaced.depth_le⟩

end Tree

theorem parse_writeBytes (w : Bytes) : Tree.parse (writeBytes w) = .ok (Tree.literal w, 0) := by
  have hread := Tree.readFrom_render (Tree.expressible_literal w)
  rw [Tree.render_literal, Tree.captures_literal] at hread
  exact Tree.parse_eq_ok_iff.mpr hread

/-- The pattern of a byte string compiles, unless it takes more instructions than a program has. -/
theorem compile_writeBytes (ungreedy : Bool) {w : Bytes} (h : w.length + 3 ≤ maxProgram) :
    ∃ p, compile ungreedy (writeBytes w) = .ok p := by
  have hsize : (Tree.literal w).size + 3 ≤ maxProgram := by rwa [Tree.size_literal]
  simp only [compile, parse_writeBytes, Program.ofTree?_eq, if_pos hsize]
  exact ⟨_, rfl⟩

/-! ## What is found -/

section Found

variable {flags : Flags} {text : Bytes} {i j : Nat}

theorem Tree.matches_ofItems_cons {t : Tree} {items : List Tree} :
    (ofItems (t :: items)).Matches flags text i j ↔
      ∃ m, t.Matches flags text i m ∧ (ofItems items).Matches flags text m j := by
  cases items with
  | nil => simp [ofItems, Matches]
  | cons u items => rfl

/-- A byte string matches where it occurs. -/
theorem Tree.matches_literal_iff (hcase : flags.ignoreCase = false) {w : Bytes} :
    (literal w).Matches flags text i j ↔ j = i + w.length ∧ w <+: text.drop i := by
  have hvariants : ∀ b, flags.variants b = [b] := fun b => if_neg (by simp [hcase])
  induction w generalizing i with
  | nil => simp [literal, ofItems, Matches, eq_comm]
  | cons c w ih =>
    have hread : c :: w <+: text.drop i ↔ text[i]? = some c ∧ w <+: text.drop (i + 1) := by
      rw [← List.tail_drop, ← List.head?_drop]
      cases text.drop i with
      | nil => simp
      | cons b rest => simp [List.cons_prefix_cons, eq_comm]
    rw [literal, List.map_cons, matches_ofItems_cons, hread, List.length_cons]
    simp only [Matches, hvariants, List.mem_singleton]
    constructor
    · rintro ⟨_, ⟨rfl, b, hb, rfl⟩, hrest⟩
      obtain ⟨rfl, hw⟩ := ih.mp hrest
      exact ⟨by omega, hb, hw⟩
    · rintro ⟨rfl, hb, hw⟩
      exact ⟨i + 1, ⟨rfl, c, hb, rfl⟩, ih.mpr ⟨by omega, hw⟩⟩

theorem Match.groupSpans_eq_nil {m : Match} (h : m.slots.length = 2) : m.groupSpans = [] := by
  rw [groupSpans, groupCount, h]
  rfl

/-- **Searching for the pattern of a byte string is searching for the byte string**: with no options
it is found where it occurs first, without groups, or not at all. -/
theorem find?_writeBytes {w : Bytes} (h : w.length ≤ 65533) :
    ∃ p, compile false (writeBytes w) = .ok p ∧
      (∀ pattern, Bytes.ofText pattern = writeBytes w →
        Regex.compile pattern {} = .ok ⟨pattern, p, {}⟩) ∧
      ∀ pattern text, ∃ found, Regex.find? ⟨pattern, p, {}⟩ text = .ok found ∧
        found.map (fun m => (m.start, m.stop, m.groupSpans)) =
          (Bytes.indexOf? w text).map fun i => (i, i + w.length, []) := by
  obtain ⟨p, hp⟩ := compile_writeBytes false (w := w) (by rw [maxProgram]; omega)
  refine ⟨p, hp, fun pattern hpattern => ?_, fun pattern text => ?_⟩
  · rw [Regex.compile, hpattern, hp]
    rfl
  obtain ⟨found, hfound, -, hnone, hleast⟩ :=
    leftmost_of_parse ⟨pattern, p, {}⟩ hp (parse_writeBytes w) text
  have hpiece : ∀ {i j}, (Tree.literal w).MatchesPiece (Options.flags {}) text i j ↔
      i ≤ text.length ∧ j = i + w.length ∧ w <+: text.drop i := by
    intro i j
    rw [Tree.MatchesPiece, Tree.matches_literal_iff rfl]
    constructor
    · rintro ⟨hij, hj, -, hmatch⟩
      exact ⟨hij.trans hj, hmatch⟩
    · rintro ⟨hi, rfl, hw⟩
      have hlength := hw.length_le
      rw [List.length_drop] at hlength
      exact ⟨by omega, by omega, fun hanchored => (by cases hanchored), rfl, hw⟩
  refine ⟨found, hfound, ?_⟩
  cases found with
  | none =>
    cases hindex : Bytes.indexOf? w text with
    | none => rfl
    | some i =>
      obtain ⟨k, hk, hoccurs⟩ : ∃ k ≤ text.length, w <+: text.drop k := by
        have hw := Bytes.prefix_of_indexOf? hindex
        rcases Nat.le_total i text.length with hi | hi
        · exact ⟨i, hi, hw⟩
        · refine ⟨text.length, Nat.le_refl _, ?_⟩
          rwa [List.drop_eq_nil_of_le (Nat.le_refl _), ← List.drop_eq_nil_of_le hi]
      exact absurd (hpiece.mpr ⟨hk, rfl, hoccurs⟩) (hnone rfl k _)
  | some m =>
    obtain ⟨hmatch, hslots, hfirst⟩ := hleast m rfl
    obtain ⟨hstart, hstop, hw⟩ := hpiece.mp hmatch
    obtain ⟨i, hi, hindex⟩ := Bytes.exists_indexOf?_le hw
    have hle := hfirst i _ (hpiece.mpr ⟨by omega, rfl, Bytes.prefix_of_indexOf? hindex⟩)
    obtain rfl : m.start = i := Nat.le_antisymm hle hi
    rw [hindex, Option.map_some, Option.map_some, hstop, Match.groupSpans_eq_nil hslots]

theorem find?_overlapping : (ascii "aa+").length ≤ 65533 ∧
    ∃ p, compile false (ascii "aa\\+") = .ok p ∧
      ∃ m, Regex.find? ⟨"aa\\+", p, {}⟩ (ascii "aaa+aa+") = .ok (some m) ∧
        m.start = 1 ∧ m.stop = 4 ∧ m.groupSpans = [] := by
  have hlength : (ascii "aa+").length ≤ 65533 := by decide
  have hwrite : writeBytes (ascii "aa+") = ascii "aa\\+" := by decide
  have hindex : Bytes.indexOf? (ascii "aa+") (ascii "aaa+aa+") = some 1 := by decide
  obtain ⟨p, hp, -, hfind⟩ := find?_writeBytes hlength
  obtain ⟨found, hfound, hbounds⟩ := hfind "aa\\+" (ascii "aaa+aa+")
  rw [hindex, Option.map_some, Option.map_eq_some_iff] at hbounds
  obtain ⟨m, rfl, hm⟩ := hbounds
  obtain ⟨hstart, hrest⟩ := Prod.mk.inj hm
  obtain ⟨hstop, hgroups⟩ := Prod.mk.inj hrest
  exact ⟨hlength, p, hwrite ▸ hp, m, hfound, hstart, hstop, hgroups⟩

end Found

end Bytework.Pattern
