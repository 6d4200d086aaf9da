import Bytework.Proofs.Bytes.Search
import Bytework.Proofs.Text.Parts

/-!
# Strings cut at the occurrences of a string

Searching, counting and replacing choose the same occurrences, from the left and without overlaps.

* `FirstAt`: where a string occurs first; `indexOf?_eq_some_iff`, `indexOf?_eq_none_iff`: a search
  finds that place, or there is none.
* `Cut`: a string cut at its occurrences, each the leftmost in what remains.
* `Cut.pieces_eq`: there is no other way to cut; `exists_cut`: there is one; `Cut.countOf_add_one`: a
  search that goes on behind each occurrence finds as many as separate the pieces.
* **`unique_cut`**: the one way to cut a string, and what counting, searching and replacing make of it.
* `Cut.split_eq`: the fields between single bytes; **`split_join`**: splitting and joining undo each
  other.
-/

namespace Bytework.Bytes

variable {s sub : Bytes} {i : Nat}

/-! ## The leftmost occurrence -/

/-- A string occurs behind some bytes, and nowhere before. -/
structure FirstAt (sub s : Bytes) (i : Nat) : Prop where
  occurs : sub <+: s.drop i
  first : ∀ k < i, ¬ sub <+: s.drop k

theorem FirstAt.unique {j : Nat} (hi : FirstAt sub s i) (hj : FirstAt sub s j) : i = j := by
  rcases Nat.lt_trichotomy i j with h | h | h
  · exact absurd hi.occurs (hj.first i h)
  · exact h
  · exact absurd hj.occurs (hi.first j h)

/-- **A search finds the leftmost occurrence.** -/
theorem indexOf?_eq_some_iff : indexOf? sub s = some i ↔ FirstAt sub s i := by
  have hfirst : ∀ {j}, indexOf? sub s = some j → FirstAt sub s j := by
    intro j h
    refine ⟨prefix_of_indexOf? h, fun k hk hocc => ?_⟩
    obtain ⟨i, hi, hfound⟩ := exists_indexOf?_le hocc
    rw [h, Option.some_inj] at hfound
    omega
  refine ⟨hfirst, fun h => ?_⟩
  obtain ⟨j, -, hfound⟩ := exists_indexOf?_le h.occurs
  rw [hfound, h.unique (hfirst hfound)]

theorem indexOf?_eq_none_iff : indexOf? sub s = none ↔ ¬ sub <:+: s := by
  rw [← includes_iff, includes, Option.not_isSome_iff_eq_none]

/-- A string has an occurrence with bytes before and behind it. -/
theorem FirstAt.exists_append (hsub : sub ≠ []) (h : FirstAt sub s i) :
    ∃ piece rest, piece.length = i ∧ s = piece ++ sub ++ rest ∧ s.drop (i + sub.length) = rest := by
  have hlength := h.occurs.length_le
  rw [List.length_drop] at hlength
  have hpos := List.length_pos_iff.mpr hsub
  obtain ⟨rest, hrest⟩ := h.occurs
  refine ⟨s.take i, rest, ?_, ?_, ?_⟩
  · rw [List.length_take]
    omega
  · rw [List.append_assoc, hrest, List.take_append_drop]
  · rw [← List.drop_drop, ← hrest, List.drop_left]

theorem countOf_of_none (h : indexOf? sub s = none) : s.countOf sub = 0 := by
  unfold countOf
  split
  · rfl
  · split
    · rfl
    · rename_i hsome
      rw [h] at hsome
      cases hsome

theorem countOf_of_some (hsub : sub ≠ []) (h : indexOf? sub s = some i) :
    s.countOf sub = countOf (s.drop (i + sub.length)) sub + 1 := by
  rw [countOf, if_neg (by rwa [List.isEmpty_iff])]
  split
  · rename_i hnone
    rw [h] at hnone
    cases hnone
  · rename_i hsome
    rw [h] at hsome
    cases hsome
    rfl

/-! ## Cutting -/

/-- A string cut at the occurrences of another: each that is cut at is the leftmost in what remains,
and the last piece has none. -/
inductive Cut (sub : Bytes) : Bytes → List Bytes → Prop
  | last {piece : Bytes} (h : ¬ sub <:+: piece) : Cut sub piece [piece]
  | next {piece rest : Bytes} {pieces : List Bytes}
      (hfirst : FirstAt sub (piece ++ sub ++ rest) piece.length) (hrest : Cut sub rest pieces) :
      Cut sub (piece ++ sub ++ rest) (piece :: pieces)

theorem Cut.ne_nil {pieces : List Bytes} (h : Cut sub s pieces) : pieces ≠ [] := by
  cases h <;> exact List.cons_ne_nil _ _

/-- **There is no other way to cut**: a pass over the string finds the pieces. -/
theorem Cut.pieces_eq {pieces : List Bytes} (hsub : sub ≠ []) (h : Cut sub s pieces) :
    Bytes.pieces s sub = pieces := by
  rw [pieces_of_ne_nil hsub]
  induction h with
  | @last piece h =>
    have hnone : ∀ i < piece.length, ¬ sub <+: (piece ++ []).drop i := by
      intro i _ hpre
      rw [List.append_nil] at hpre
      exact h (hpre.isInfix.trans (List.drop_suffix i piece).isInfix)
    have hone := piecesFrom_before hnone
    rwa [List.append_nil, piecesFrom, List.modifyHead_cons, List.append_nil] at hone
  | @next piece rest pieces hfirst hrest ih =>
    rw [List.append_assoc] at hfirst ⊢
    rw [piecesFrom_before hfirst.first, piecesFrom_append hsub, ih, List.modifyHead_cons,
      List.append_nil]

/-- What remains behind each occurrence is counted on. -/
theorem Cut.countOf_add_one {pieces : List Bytes} (hsub : sub ≠ []) (h : Cut sub s pieces) :
    s.countOf sub + 1 = pieces.length := by
  induction h with
  | last h =>
    rw [countOf_of_none (indexOf?_eq_none_iff.mpr h)]
    rfl
  | @next piece rest pieces hfirst hrest ih =>
    have hbehind : (piece ++ sub ++ rest).drop (piece.length + sub.length) = rest := by
      rw [← List.length_append, List.drop_left]
    rw [countOf_of_some hsub (indexOf?_eq_some_iff.mpr hfirst), hbehind, ih, List.length_cons]

theorem Cut.indexOf?_eq {piece : Bytes} {pieces : List Bytes} (h : Cut sub s (piece :: pieces)) :
    indexOf? sub s = if 0 < pieces.length then some piece.length else none := by
  cases h with
  | last h => exact (indexOf?_eq_none_iff.mpr h).trans (if_neg (Nat.lt_irrefl 0)).symm
  | next hfirst hrest =>
    rw [if_pos (List.length_pos_iff.mpr hrest.ne_nil), indexOf?_eq_some_iff.mpr hfirst]

/-- **Every string can be cut.** -/
theorem exists_cut (hsub : sub ≠ []) (s : Bytes) : ∃ pieces, Cut sub s pieces := by
  fun_induction countOf s sub with
  | case1 s hempty => exact absurd (List.isEmpty_iff.mp hempty) hsub
  | case2 s _ hnone => exact ⟨[s], .last (indexOf?_eq_none_iff.mp hnone)⟩
  | case3 s _ i hsome ih =>
    have hfirst := indexOf?_eq_some_iff.mp hsome
    obtain ⟨piece, rest, rfl, hs, hbehind⟩ := hfirst.exists_append hsub
    rw [hbehind] at ih
    obtain ⟨pieces, hpieces⟩ := ih
    rw [hs] at hfirst ⊢
    exact ⟨piece :: pieces, .next hfirst hpieces⟩

theorem length_intercalate (separator piece : Bytes) (pieces : List Bytes) :
    (List.intercalate separator (piece :: pieces)).length =
      (piece :: pieces).flatten.length + pieces.length * separator.length := by
  induction pieces generalizing piece with
  | nil => simp
  | cons next pieces ih =>
    rw [List.intercalate_cons_cons, List.flatten_cons, List.length_append, List.length_append,
      List.length_append, ih, List.length_cons, Nat.add_one_mul]
    omega

/-- **The one way to cut a string.** Every string is cut at the occurrences of a string that is not
empty in exactly one way. Counting gives how often it was cut, searching the length of the first piece,
and replacing puts the new string where it was cut. -/
theorem unique_cut {old : Bytes} (hold : old ≠ []) (s : Bytes) :
    ∃ piece pieces, Cut old s (piece :: pieces) ∧
      (∀ others, Cut old s others → others = piece :: pieces) ∧
      s = List.intercalate old (piece :: pieces) ∧
      s.countOf old = pieces.length ∧
      (indexOf? old s = if 0 < pieces.length then some piece.length else none) ∧
      (s.includes old = true ↔ 0 < pieces.length) ∧
      (∀ new, s.replaceAll old new = List.intercalate new (piece :: pieces)) ∧
      (∀ new, (s.replaceAll old new).length + s.countOf old * old.length =
        s.length + s.countOf old * new.length) ∧
      s.replaceAll old old = s := by
  obtain ⟨all, hcut⟩ := exists_cut hold s
  obtain ⟨piece, pieces, rfl⟩ := List.exists_cons_of_ne_nil hcut.ne_nil
  have hpieces : Bytes.pieces s old = piece :: pieces := hcut.pieces_eq hold
  have hs : List.intercalate old (piece :: pieces) = s := by
    rw [← hpieces, intercalate_pieces hold]
  have hcount : s.countOf old = pieces.length := Nat.succ.inj (hcut.countOf_add_one hold)
  have hindex := hcut.indexOf?_eq
  have hreplace : ∀ new, s.replaceAll old new = List.intercalate new (piece :: pieces) :=
    fun new => by rw [replaceAll_eq, hpieces]
  refine ⟨piece, pieces, hcut, fun others h => ?_, hs.symm, hcount, hindex, ?_, hreplace,
    fun new => ?_, ?_⟩
  · rw [← hpieces, h.pieces_eq hold]
  · rw [includes, hindex]
    split <;> simp [*]
  · rw [hreplace, hcount, length_intercalate, ← hs, length_intercalate]
    omega
  · rw [hreplace, hs]

/-- Occurrences that could overlap are chosen from the left, and what remains of one at the end is
left alone. -/
theorem unique_cut_overlapping : ascii "aba" ≠ [] ∧
    Cut (ascii "aba") (ascii "xababaabaab") [ascii "x", ascii "ba", ascii "ab"] ∧
    countOf (ascii "xababaabaab") (ascii "aba") = 2 ∧
    indexOf? (ascii "aba") (ascii "xababaabaab") = some 1 ∧
    replaceAll (ascii "xababaabaab") (ascii "aba") (ascii "-") = ascii "x-ba-ab" := by
  have hold : ascii "aba" ≠ [] := by decide
  obtain ⟨piece, pieces, hcut, -, -, hcount, hindex, -, hreplace, -⟩ :=
    unique_cut hold (ascii "xababaabaab")
  have hpieces : Bytes.pieces (ascii "xababaabaab") (ascii "aba") =
      [ascii "x", ascii "ba", ascii "ab"] := by decide
  rw [hcut.pieces_eq hold] at hpieces
  obtain ⟨rfl, rfl⟩ := List.cons.inj hpieces
  exact ⟨hold, hcut, hcount, hindex, (hreplace (ascii "-")).trans (by decide)⟩

/-! ## Fields between single bytes -/

theorem FirstAt.notMem {d : UInt8} {piece rest : Bytes}
    (h : FirstAt [d] (piece ++ [d] ++ rest) piece.length) : d ∉ piece := by
  intro hmem
  obtain ⟨before, behind, rfl⟩ := List.append_of_mem hmem
  refine h.first before.length (by simp) ?_
  rw [List.append_assoc, List.append_assoc, List.drop_left, List.cons_append]
  exact List.prefix_append [d] _

/-- **The fields of a string** are its pieces between the occurrences of the delimiter. -/
theorem Cut.split_eq {d : UInt8} {pieces : List Bytes} (h : Cut [d] s pieces) :
    split s d = pieces := by
  induction h with
  | @last piece h =>
    refine List.splitOn_eq_singleton fun hmem => h ?_
    obtain ⟨before, behind, rfl⟩ := List.append_of_mem hmem
    exact ⟨before, behind, List.append_assoc ..⟩
  | @next piece rest pieces hfirst hrest ih =>
    rw [List.append_assoc, List.singleton_append, ← ih]
    exact List.splitOn_append_cons_self_of_not_mem hfirst.notMem rest

/-- **Splitting and joining undo each other.** A string is the fields that it is split into with the
delimiter between them. There is one more of them than the delimiter occurs, and none contains it; and
fields that do not contain the delimiter, empty ones wherever they stand included, are found again. -/
theorem split_join (d : UInt8) :
    (∀ s : Bytes, join (split s d) d = s ∧ (split s d).length = s.countOf [d] + 1 ∧
      ∀ field ∈ split s d, d ∉ field) ∧
    ∀ fields : List Bytes, fields ≠ [] → (∀ field ∈ fields, d ∉ field) →
      split (join fields d) d = fields := by
  refine ⟨fun s => ⟨List.intercalate_splitOn d, ?_, Text.notMem_of_mem_splitOn⟩,
    fun fields hne hfields => List.splitOn_intercalate d hfields hne⟩
  have hd : [d] ≠ [] := List.cons_ne_nil d []
  obtain ⟨pieces, hcut⟩ := exists_cut hd s
  rw [hcut.split_eq, hcut.countOf_add_one hd]

/-- Empty fields at both ends and in the middle are kept. -/
theorem split_join_empty : [[], ascii "a", [], ascii "b", []] ≠ [] ∧
    (∀ field ∈ [[], ascii "a", [], ascii "b", []], byte ',' ∉ field) ∧
    split (join [[], ascii "a", [], ascii "b", []] (byte ',')) (byte ',') =
      [[], ascii "a", [], ascii "b", []] := by
  have hne : [[], ascii "a", [], ascii "b", []] ≠ [] := List.cons_ne_nil _ _
  have hfields : ∀ field ∈ [[], ascii "a", [], ascii "b", []], byte ',' ∉ field := by decide
  exact ⟨hne, hfields, (split_join (byte ',')).2 _ hne hfields⟩

end Bytework.Bytes
