import Bytework.Bytes.Search

/-!
# Occurrences, and strings cut at separators

A search finds exactly the pieces of a string, and pieces that are joined by a separator none of them
has a byte of are found again by cutting at the separators.

* `includes_iff`: what occurs in a string; `prefix_of_indexOf?`, `exists_indexOf?_le`: where it
  occurs first.
* `takeWhile_append_stop`, `dropWhile_append_stop`: a run of bytes, up to one that ends it.
* `piecesFrom_before`, `piecesFrom_append`: what a piece and a separator do to the pieces behind them.
* **`replaceAll_eq`**: replacing is joining the pieces by the new string.
* **`pieces_intercalate`**, **`intercalate_pieces`**: pieces that are joined are found again, and the
  pieces that are found make up the string.
* `replaceAll_intercalate`: the pieces without the separators.
-/

namespace Bytework.Bytes

/-- What occurs in a string is a piece of it. -/
theorem includes_iff {s sub : Bytes} : s.includes sub = true ↔ sub <:+: s := by
  rw [includes]
  induction s with
  | nil => cases sub <;> simp [indexOf?]
  | cons b s ih =>
    rw [indexOf?, List.infix_cons_iff, ← ih, ← List.isPrefixOf_iff_prefix]
    split
    · rename_i hstarts
      simp [hstarts]
    · rename_i hstarts
      simp [hstarts]

/-- A string occurs at the position that is found. -/
theorem prefix_of_indexOf? {s sub : Bytes} {i : Nat} (h : indexOf? sub s = some i) :
    sub <+: s.drop i := by
  induction s generalizing i with
  | nil =>
    rw [indexOf?] at h
    split at h
    · rename_i hempty
      rw [List.isEmpty_iff.mp hempty]
      exact List.nil_prefix
    · cases h
  | cons b s ih =>
    rw [indexOf?] at h
    split at h
    · rename_i hstarts
      cases h
      exact List.isPrefixOf_iff_prefix.mp hstarts
    · obtain ⟨k, hk, rfl⟩ := Option.map_eq_some_iff.mp h
      exact ih hk

/-- The position that is found is not behind any other. -/
theorem exists_indexOf?_le {s sub : Bytes} {k : Nat} (h : sub <+: s.drop k) :
    ∃ i ≤ k, indexOf? sub s = some i := by
  induction s generalizing k with
  | nil =>
    rw [List.drop_nil, List.prefix_nil] at h
    exact ⟨0, Nat.zero_le k, by rw [h]; rfl⟩
  | cons b s ih =>
    rw [indexOf?]
    split
    · exact ⟨0, Nat.zero_le k, rfl⟩
    · rename_i hstarts
      cases k with
      | zero => exact absurd (List.isPrefixOf_iff_prefix.mpr h) hstarts
      | succ k =>
        obtain ⟨i, hi, hfound⟩ := ih h
        exact ⟨i + 1, Nat.succ_le_succ hi, by rw [hfound]; rfl⟩

section Run

variable {p : UInt8 → Bool} {run rest : Bytes}

theorem takeWhile_append_stop (hrun : ∀ b ∈ run, p b = true) (hstop : ∀ b ∈ rest.head?, p b = false) :
    (run ++ rest).takeWhile p = run := by
  rw [List.takeWhile_append_of_pos hrun]
  cases rest with
  | nil => simp
  | cons b rest => simp [hstop b rfl]

theorem dropWhile_append_stop (hrun : ∀ b ∈ run, p b = true) (hstop : ∀ b ∈ rest.head?, p b = false) :
    (run ++ rest).dropWhile p = rest := by
  rw [List.dropWhile_append_of_pos hrun]
  cases rest with
  | nil => simp
  | cons b rest => simp [hstop b rfl]

end Run

theorem piecesFrom_ne_nil (sub : Bytes) (skip : Nat) (s : Bytes) : piecesFrom sub skip s ≠ [] := by
  induction s generalizing skip with
  | nil =>
    rw [piecesFrom]
    exact List.cons_ne_nil _ _
  | cons b s ih =>
    cases skip with
    | succ skip => exact ih skip
    | zero =>
      rw [piecesFrom]
      split
      · exact List.cons_ne_nil _ _
      · rw [ne_eq, List.modifyHead_eq_nil_iff]
        exact ih 0

variable {c : UInt8} {sub separator : Bytes}

/-- Bytes before the first occurrence of a separator belong to the first piece. -/
theorem piecesFrom_before {piece s : Bytes}
    (h : ∀ i < piece.length, ¬ sub <+: (piece ++ s).drop i) :
    piecesFrom sub 0 (piece ++ s) = (piecesFrom sub 0 s).modifyHead (piece ++ ·) := by
  induction piece with
  | nil => exact (congrFun List.modifyHead_id _).symm
  | cons b piece ih =>
    have hstarts : ¬ sub.isPrefixOf (b :: (piece ++ s)) = true := fun hpre =>
      h 0 (Nat.zero_lt_succ _) (List.isPrefixOf_iff_prefix.mp hpre)
    have hrest : ∀ i < piece.length, ¬ sub <+: (piece ++ s).drop i := fun i hi =>
      h (i + 1) (Nat.succ_lt_succ hi)
    rw [List.cons_append, piecesFrom, if_neg hstarts, ih hrest, List.modifyHead_modifyHead]
    rfl

theorem piecesFrom_piece {piece : Bytes} (h : c ∉ piece) (s : Bytes) :
    piecesFrom (c :: sub) 0 (piece ++ s) = (piecesFrom (c :: sub) 0 s).modifyHead (piece ++ ·) := by
  refine piecesFrom_before fun i hi hpre => h ?_
  obtain ⟨rest, hrest⟩ := hpre
  have hget : (piece ++ s)[i]? = some c := by rw [← List.head?_drop, ← hrest]; rfl
  rw [List.getElem?_append_left hi] at hget
  exact List.mem_of_getElem? hget

theorem piecesFrom_skip (sub passed s : Bytes) :
    piecesFrom sub passed.length (passed ++ s) = piecesFrom sub 0 s := by
  induction passed with
  | nil => rfl
  | cons b passed ih => exact ih

theorem piecesFrom_append (hsub : sub ≠ []) (s : Bytes) :
    piecesFrom sub 0 (sub ++ s) = [] :: piecesFrom sub 0 s := by
  obtain ⟨c, sub, rfl⟩ := List.exists_cons_of_ne_nil hsub
  have hstarts : (c :: sub).isPrefixOf (c :: (sub ++ s)) = true := by simp [List.isPrefixOf]
  rw [List.cons_append, piecesFrom, hstarts, if_pos rfl, List.length_cons, Nat.add_sub_cancel,
    piecesFrom_skip]

theorem pieces_of_ne_nil (hsub : sub ≠ []) (s : Bytes) : pieces s sub = piecesFrom sub 0 s := by
  rw [pieces, List.isEmpty_eq_false_iff.mpr hsub, if_neg Bool.false_ne_true]

/-- **Pieces that are joined are found again**, if they have no byte of the separator. -/
theorem pieces_intercalate {pieces : List Bytes} (hsep : separator ≠ []) (hne : pieces ≠ [])
    (h : ∀ piece ∈ pieces, ∀ b ∈ separator, b ∉ piece) :
    Bytes.pieces (List.intercalate separator pieces) separator = pieces := by
  obtain ⟨c, sub, rfl⟩ := List.exists_cons_of_ne_nil hsep
  rw [pieces_of_ne_nil (List.cons_ne_nil c sub)]
  induction pieces with
  | nil => exact absurd rfl hne
  | cons piece pieces ih =>
    obtain ⟨hpiece, hrest⟩ := List.forall_mem_cons.mp h
    have hc : c ∉ piece := hpiece c List.mem_cons_self
    cases pieces with
    | nil =>
      have hone : piecesFrom (c :: sub) 0 (piece ++ []) = _ := piecesFrom_piece hc []
      rw [List.append_nil] at hone
      rw [List.intercalate_singleton, hone, piecesFrom, List.modifyHead_cons, List.append_nil]
    | cons next pieces =>
      rw [List.intercalate_cons_cons, List.append_assoc, piecesFrom_piece hc,
        piecesFrom_append (List.cons_ne_nil c sub), ih (List.cons_ne_nil _ _) hrest,
        List.modifyHead_cons, List.append_nil]

theorem intercalate_modifyHead (b : UInt8) {pieces : List Bytes} (h : pieces ≠ []) :
    List.intercalate separator (pieces.modifyHead (b :: ·)) =
      b :: List.intercalate separator pieces := by
  obtain ⟨piece, pieces, rfl⟩ := List.exists_cons_of_ne_nil h
  cases pieces with
  | nil => rw [List.modifyHead_cons, List.intercalate_singleton, List.intercalate_singleton]
  | cons next pieces =>
    rw [List.modifyHead_cons, List.intercalate_cons_cons, List.intercalate_cons_cons,
      List.cons_append, List.cons_append]

/-- A replacement leaves the pieces of what is left, with the new string between them. -/
theorem replaceFrom_eq (old new : Bytes) (skip : Nat) (s : Bytes) :
    replaceFrom old new skip s = List.intercalate new (piecesFrom old skip s) := by
  induction s generalizing skip with
  | nil => rw [replaceFrom, piecesFrom, List.intercalate_singleton]
  | cons b s ih =>
    cases skip with
    | succ skip => exact ih skip
    | zero =>
      rw [replaceFrom, piecesFrom]
      split
      · rw [List.intercalate_cons_of_ne_nil (piecesFrom_ne_nil _ _ _), ih, List.nil_append]
      · rw [intercalate_modifyHead b (piecesFrom_ne_nil _ _ _), ih]

/-- **Replacing is joining the pieces** by the new string. -/
theorem replaceAll_eq (s old new : Bytes) :
    replaceAll s old new = List.intercalate new (pieces s old) := by
  rw [replaceAll, pieces]
  split
  · rw [List.intercalate_singleton]
  · exact replaceFrom_eq old new 0 s

theorem intercalate_nil (pieces : List Bytes) : List.intercalate [] pieces = pieces.flatten := by
  induction pieces with
  | nil => rfl
  | cons piece pieces ih =>
    cases pieces with
    | nil => rw [List.intercalate_singleton, List.flatten_singleton]
    | cons next pieces => rw [List.intercalate_cons_cons, ih, List.append_nil, ← List.flatten_cons]

theorem replaceAll_nil (s separator : Bytes) :
    replaceAll s separator [] = (pieces s separator).flatten := by
  rw [replaceAll_eq, intercalate_nil]

/-- The pieces without the separators, if no piece has a byte of the separator. -/
theorem replaceAll_intercalate {pieces : List Bytes}
    (h : ∀ piece ∈ pieces, ∀ b ∈ separator, b ∉ piece) :
    replaceAll (List.intercalate separator pieces) separator [] = pieces.flatten := by
  rw [replaceAll_nil]
  by_cases hsep : separator = []
  · rw [hsep, Bytes.pieces, List.isEmpty_nil, if_pos rfl, List.flatten_singleton, intercalate_nil]
  · by_cases hne : pieces = []
    · rw [hne, List.intercalate_nil, Bytes.pieces]
      cases separator <;> rfl
    · rw [pieces_intercalate hsep hne h]

/-- The pieces of what is left when some bytes have been passed over, joined. -/
theorem intercalate_piecesFrom (hsep : separator ≠ []) (skip : Nat) (s : Bytes) :
    List.intercalate separator (piecesFrom separator skip s) = s.drop skip := by
  induction s generalizing skip with
  | nil => rw [piecesFrom, List.intercalate_singleton, List.drop_nil]
  | cons b s ih =>
    cases skip with
    | succ skip => rw [piecesFrom, ih, List.drop_succ_cons]
    | zero =>
      rw [piecesFrom]
      split
      · rename_i hstarts
        obtain ⟨rest, hrest⟩ := List.isPrefixOf_iff_prefix.mp hstarts
        obtain ⟨c, sub, rfl⟩ := List.exists_cons_of_ne_nil hsep
        have hs : sub ++ rest = s := (List.cons.inj hrest).2
        rw [List.intercalate_cons_of_ne_nil (piecesFrom_ne_nil _ _ _), ih, List.length_cons,
          Nat.add_sub_cancel, ← hs, List.drop_left, List.nil_append, List.drop_zero, hrest, hs]
      · rw [intercalate_modifyHead b (piecesFrom_ne_nil _ _ _), ih, List.drop_zero, List.drop_zero]

/-- **A string is its pieces with the separator between them.** -/
theorem intercalate_pieces (hsep : separator ≠ []) (s : Bytes) :
    List.intercalate separator (pieces s separator) = s := by
  rw [pieces_of_ne_nil hsep, intercalate_piecesFrom hsep, List.drop_zero]

end Bytework.Bytes
