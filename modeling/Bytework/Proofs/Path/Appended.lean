import Bytework.Proofs.Path.Shapes

/-!
# Paths put behind paths

What comes of a path put behind another one, and of three paths in a row.

* `Relative`, `IsDrive`: the paths that can be put behind others, and the drives alone.
* `lead`, `join_relative`: a path with one separator at its end, and a relative path behind it.
* `lead_lead`: the second of three paths is led by the first one and leads the third one.
* `isAbsolute_lead_append`: what is put behind a drive alone stands below the root of the drive.
* `join_assoc`, `join_drive`: three paths are put together from the left as from the right, unless the
  second one is a drive alone.
* **`join_laws`**: exactly when that holds, and exactly when two paths together are absolute.
-/

namespace Bytework.Path.Portable

variable {a b c p front s : List Char}

/-- A path that is put behind others: neither empty nor absolute. -/
structure Relative (p : List Char) : Prop where
  ne_nil : p ≠ []
  not_absolute : isAbsolute p = false

/-- A letter and a colon alone. -/
def IsDrive (p : List Char) : Prop := ∃ d, d.isAlpha = true ∧ p = [d, ':']

/-- What stands in front of a path put behind `base`: `base` with one separator at its end. -/
def lead (base : List Char) : List Char :=
  let trimmed := trimEnd base
  let isRoot := trimmed.length == driveLength base && trimmed.length < base.length
  if isRoot then base.take (trimmed.length + 1) else trimmed ++ ['/']

theorem IsDrive.anchor (h : IsDrive p) : Anchor p := .inr h

theorem isDrive_of_anchor (hp : Anchor p) (hne : p ≠ []) : IsDrive p := hp.resolve_left hne

theorem IsDrive.relative (h : IsDrive p) : Relative p := by
  refine ⟨?_, isAbsolute_plain h.anchor.plain⟩
  obtain ⟨d, -, rfl⟩ := h
  exact List.cons_ne_nil d _

theorem IsName.relative (h : IsName p) : Relative p := ⟨h.ne_nil, isAbsolute_plain h.plain⟩

theorem Relative.ne_below (h : Relative p) (hfront : Anchor front) {c : Char}
    (hc : isSeparator c = true) (rest : List Char) : p ≠ front ++ c :: rest := by
  intro hp
  have habsolute : isAbsolute p = true := isAbsolute_iff.mpr ⟨front, c, rest, hfront, hc, hp⟩
  exact Bool.false_ne_true (h.not_absolute.symm.trans habsolute)

/-! ## One path behind another -/

theorem join_nil_left (b : List Char) : join [] b = b := rfl

theorem join_nil_right (a : List Char) : join a [] = a := by
  cases a <;> simp [join, isAbsolute]

theorem join_absolute (a : List Char) (hb : isAbsolute b = true) : join a b = b := by
  simp [join, hb]

theorem Relative.dropWhile_eq (h : Relative p) : p.dropWhile isSeparator = p := by
  obtain ⟨c, p, rfl⟩ := List.exists_cons_of_ne_nil h.ne_nil
  exact List.dropWhile_cons_of_neg fun hc => h.ne_below (.inl rfl) hc p rfl

/-- **A relative path comes right behind the lead** of the path in front. -/
theorem join_relative (ha : a ≠ []) (hb : Relative b) : join a b = lead a ++ b := by
  simp [join, lead, ha, hb.ne_nil, hb.not_absolute, hb.dropWhile_eq]

/-! ## The lead -/

/-- Behind an anchor the first separator stays, and every other lead ends in a slash. -/
theorem lead_append (hfront : Trimmed front) (hs : Separators s) :
    lead (front ++ s) = front ++ [if Anchor front then s.headD '/' else '/'] := by
  have hdrive : driveLength (front ++ s) = driveLength front :=
    driveLength_append fun c hc => hs c (List.mem_of_head? hc)
  have hanchor := anchor_iff (p := front)
  cases s with
  | nil => simp [lead, trimEnd_of_trimmed hfront]
  | cons c s =>
    by_cases h : Anchor front <;>
      simp [lead, trimEnd_append hfront hs, hdrive, ← hanchor, h, List.take_append]

/-- The lead of a path ends in one separator. -/
theorem exists_lead (p : List Char) : ∃ c, isSeparator c = true ∧ lead p = trimEnd p ++ [c] := by
  obtain ⟨s, hs, hp⟩ := exists_trimEnd p
  have hlead := lead_append (trimmed_trimEnd p) hs
  rw [← hp] at hlead
  refine ⟨_, ?_, hlead⟩
  split
  · cases s with
    | nil => rfl
    | cons c s => exact hs c List.mem_cons_self
  · rfl

theorem lead_ne_nil (p : List Char) : lead p ≠ [] := by
  obtain ⟨c, -, hlead⟩ := exists_lead p
  rw [hlead]
  simp

/-- A relative path is some name, and if it is a drive no separators are behind it. -/
theorem Relative.exists_trimmed (h : Relative p) : ∃ front s, Trimmed front ∧ front ≠ [] ∧
    Separators s ∧ p = front ++ s ∧ (Anchor front → s = []) := by
  obtain ⟨s, hs, hp⟩ := exists_trimEnd p
  have hroot : Anchor (trimEnd p) → s = [] := by
    intro hanchor
    by_contra hne
    obtain ⟨c, s, rfl⟩ := List.exists_cons_of_ne_nil hne
    exact h.ne_below hanchor (hs c List.mem_cons_self) s hp
  refine ⟨trimEnd p, s, trimmed_trimEnd p, fun hempty => ?_, hs, hp, hroot⟩
  rw [hempty, hroot (.inl hempty)] at hp
  exact h.ne_nil hp

/-- **The lead of a path in two parts** is that of the second part, behind that of the first one. -/
theorem lead_lead (a : List Char) (hb : Relative b) : lead (lead a ++ b) = lead a ++ lead b := by
  obtain ⟨front, s, hfront, hne, hs, rfl, hroot⟩ := hb.exists_trimmed
  obtain ⟨c, hc, hlead⟩ := exists_lead a
  -- an anchor has no separator in it
  have hnot : ¬ Anchor (lead a ++ front) := fun h =>
    absurd (h.plain c (by simp [hlead])) (by simp [hc])
  have hslash : (if Anchor front then s.headD '/' else '/') = '/' := by
    split
    · rename_i hanchor
      rw [hroot hanchor]
      rfl
    · rfl
  rw [← List.append_assoc, lead_append (hfront.append hne _) hs, if_neg hnot, lead_append hfront hs,
    hslash, List.append_assoc]

/-- **What is put behind a path is absolute** if the path is, and behind a drive alone. -/
theorem isAbsolute_lead_append (ha : a ≠ []) (b : List Char) :
    isAbsolute (lead a ++ b) = true ↔ isAbsolute a = true ∨ IsDrive a := by
  obtain ⟨s, hs, hp⟩ := exists_trimEnd a
  obtain ⟨c, hc, hlead⟩ := exists_lead a
  rw [hlead, List.append_assoc, List.singleton_append]
  by_cases hanchor : Anchor (trimEnd a)
  · have hleft : isAbsolute (trimEnd a ++ c :: b) = true :=
      isAbsolute_iff.mpr ⟨trimEnd a, c, b, hanchor, hc, rfl⟩
    refine iff_of_true hleft ?_
    cases s with
    | nil =>
      rw [List.append_nil] at hp
      exact .inr (isDrive_of_anchor (hp ▸ hanchor) ha)
    | cons d s =>
      exact .inl (isAbsolute_iff.mpr ⟨trimEnd a, d, s, hanchor, hs d List.mem_cons_self, hp⟩)
  · have hnot : ¬ IsDrive a := by
      intro h
      rw [trimEnd_of_trimmed h.anchor.trimmed] at hanchor
      exact hanchor h.anchor
    have hstart := isAbsolute_append hanchor fun d hd => hs d (List.mem_of_head? hd)
    rw [← hp] at hstart
    rw [or_iff_left hnot, hstart, isAbsolute_append hanchor (by simpa using hc)]

/-! ## Paths in a row -/

theorem isAbsolute_join : isAbsolute (join a b) = true ↔
    isAbsolute a = true ∨ isAbsolute b = true ∨ (IsDrive a ∧ b ≠ []) := by
  by_cases ha : a = []
  · subst ha
    have hnot : ¬ IsDrive [] := fun h => h.relative.ne_nil rfl
    have hempty : isAbsolute [] = false := rfl
    simp [join_nil_left, hnot, hempty]
  by_cases hb : b = []
  · subst hb
    have hempty : isAbsolute [] = false := rfl
    simp [join_nil_right, hempty]
  cases habsolute : isAbsolute b with
  | true => simp [join_absolute a habsolute, habsolute]
  | false =>
    rw [join_relative ha ⟨hb, habsolute⟩, isAbsolute_lead_append ha]
    simp [hb]

theorem join_assoc (h : ¬ (a ≠ [] ∧ IsDrive b ∧ Relative c)) :
    join (join a b) c = join a (join b c) := by
  by_cases ha : a = []
  · rw [ha, join_nil_left, join_nil_left]
  by_cases hb : b = []
  · rw [hb, join_nil_right, join_nil_left]
  by_cases hc : c = []
  · rw [hc, join_nil_right, join_nil_right]
  cases hcabsolute : isAbsolute c with
  | true => rw [join_absolute _ hcabsolute, join_absolute b hcabsolute, join_absolute a hcabsolute]
  | false =>
    have hcrelative : Relative c := ⟨hc, hcabsolute⟩
    cases hbabsolute : isAbsolute b with
    | true =>
      have hjoin : isAbsolute (join b c) = true := isAbsolute_join.mpr (.inl hbabsolute)
      rw [join_absolute a hbabsolute, join_absolute a hjoin]
    | false =>
      have hbrelative : Relative b := ⟨hb, hbabsolute⟩
      have hdrive : ¬ IsDrive b := fun hdrive => h ⟨ha, hdrive, hcrelative⟩
      have hjoin : Relative (join b c) := by
        rw [join_relative hb hcrelative]
        refine ⟨by simp [lead_ne_nil], Bool.eq_false_iff.mpr ?_⟩
        rw [Ne, isAbsolute_lead_append hb]
        simp [hbabsolute, hdrive]
      have hab : lead a ++ b ≠ [] := by simp [lead_ne_nil]
      calc join (join a b) c = lead (lead a ++ b) ++ c := by
            rw [join_relative ha hbrelative, join_relative hab hcrelative]
        _ = lead a ++ (lead b ++ c) := by rw [lead_lead a hbrelative, List.append_assoc]
        _ = join a (join b c) := by rw [join_relative ha hjoin, join_relative hb hcrelative]

/-- **Behind a drive alone a path becomes absolute**, and what is put in front of both later is lost. -/
theorem join_drive (ha : a ≠ []) (hb : IsDrive b) (hc : Relative c) :
    join (join a b) c = lead a ++ join a (join b c) := by
  have hjoin : isAbsolute (join b c) = true := isAbsolute_join.mpr (.inr (.inr ⟨hb, hc.ne_nil⟩))
  have hab : lead a ++ b ≠ [] := by simp [lead_ne_nil]
  rw [join_absolute a hjoin, join_relative ha hb.relative, join_relative hab hc,
    join_relative hb.relative.ne_nil hc, lead_lead a hb.relative, List.append_assoc]

/-- **Three paths are put together from the left as from the right** if and only if there is no drive
alone between a path and a relative one; and **two paths together are absolute** if and only if one of
them is, or the second one stands behind a drive alone. -/
theorem join_laws (a b c : List Char) :
    (join (join a b) c = join a (join b c) ↔ ¬ (a ≠ [] ∧ IsDrive b ∧ Relative c)) ∧
      (isAbsolute (join a b) = true ↔
        isAbsolute a = true ∨ isAbsolute b = true ∨ (IsDrive a ∧ b ≠ [])) := by
  refine ⟨⟨?_, join_assoc⟩, isAbsolute_join⟩
  rintro h ⟨ha, hb, hc⟩
  rw [join_drive ha hb hc] at h
  exact lead_ne_nil a (List.append_left_eq_self.mp h)

/-- A drive between two names: from the left the three are a path below the first name, from the right
one below the root of the drive, where the last name has come to by standing behind the drive. -/
theorem join_assoc_fails :
    let a := ['a']
    let b := ['C', ':']
    let c := ['x']
    join (join a b) c ≠ join a (join b c) ∧
      isAbsolute (join b c) = true ∧ isAbsolute b = false ∧ isAbsolute c = false := by
  decide

end Bytework.Path.Portable
