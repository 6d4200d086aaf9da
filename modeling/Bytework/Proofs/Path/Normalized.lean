import Bytework.Proofs.Path.Appended
import Bytework.Proofs.Path.Collapsed
import Bytework.Proofs.Path.Sliced

/-!
# Normal forms of portable paths

What a normalized path looks like, and that normalizing keeps what the other operations read off a path.

* `Normal`, `normal_normalize`, `Normal.normalize_eq`: normal forms, which normalizing leaves alone.
* `exists_normalize`, `normalize_root`, `normalize_bare`, `normalize_nested`: the normal form of a path, and
  of a path of each shape.
* `isAbsolute_normalize`, `dirname_normalize`, `basename_normalize`: the operations on a normalized path.
* `normalize_join`: a path is put together again from its two parts.
* **`normalize_laws`**: all of this for every path, by positions in bytes as by characters.
-/

namespace Bytework.Path.Portable

variable {p s name parent gap tail : List Char} {c : Char}

/-- Slashes only, one at a time, and none at the end but that of a root. -/
structure Normal (p : List Char) : Prop where
  slashes : '\\' ∉ p
  spaced : Spaced p
  last : ∀ c ∈ p.getLast?, isSeparator c = true → ∃ anchor, Anchor anchor ∧ p = anchor ++ ['/']

/-! ## Normal forms by shape -/

theorem exists_normalize (p : List Char) : ∃ s, Separators s ∧ p = trimEnd p ++ s ∧
    normalize p = collapse false (trimEnd p) ++ if s ≠ [] ∧ Anchor (trimEnd p) then ['/'] else [] := by
  obtain ⟨s, hs, hp⟩ := exists_trimEnd p
  have hout := normalize_append (trimmed_trimEnd p) hs
  rw [← hp] at hout
  exact ⟨s, hs, hp, hout⟩

theorem normalize_trimmed (hp : Trimmed p) : normalize p = collapse false p := by
  have h := normalize_append hp separators_nil
  simpa using h

theorem normalize_root (hs : Separators s) (hne : s ≠ []) : normalize s = ['/'] := by
  have h := normalize_append trimmed_nil hs
  rwa [if_pos ⟨hne, .inl rfl⟩] at h

theorem normalize_bare (hname : IsName name) (htail : Separators tail) :
    ∃ rest, Separators rest ∧ normalize (name ++ tail) = name ++ rest := by
  refine ⟨if tail ≠ [] ∧ Anchor name then ['/'] else [], ?_, ?_⟩
  · split <;> simp [Separators, isSeparator]
  · rw [normalize_append hname.trimmed htail, collapse_plain hname.plain]

theorem normalize_nested (hparent : Trimmed parent) (hne : gap ≠ []) (hgap : Separators gap)
    (hname : IsName name) (htail : Separators tail) :
    normalize (parent ++ (gap ++ (name ++ tail))) = collapse false parent ++ '/' :: name := by
  obtain ⟨c, gap, rfl⟩ := List.exists_cons_of_ne_nil hne
  have htrimmed := hname.trimmed_append (parent ++ c :: gap)
  -- an anchor has no separator in it
  have hnot : ¬ Anchor (parent ++ c :: gap ++ name) := fun h =>
    absurd (h.plain c (by simp)) (by simp [hgap c List.mem_cons_self])
  have h := normalize_append htrimmed htail
  rw [if_neg fun h => hnot h.2, List.append_nil] at h
  simp only [List.append_assoc] at h
  rw [h, collapse_nested hparent hne hgap hname]

/-! ## Normal forms -/

theorem normal_normalize (p : List Char) : Normal (normalize p) := by
  obtain ⟨s, -, -, hout⟩ := exists_normalize p
  have hcollapsed : normalize p <+: collapse false p := by
    rw [normalize]
    split
    · exact List.dropLast_prefix _
    · exact List.prefix_refl _
  obtain ⟨rest, hrest⟩ := hcollapsed
  have hspaced := spaced_collapse false p
  rw [← hrest] at hspaced
  refine ⟨fun h => ?_, hspaced.left_of_append, fun c hc hsep => ?_⟩
  · have hmem : '\\' ∈ collapse false p := hrest ▸ List.mem_append_left rest h
    rcases mem_collapse hmem with h | h <;> exact absurd h (by decide)
  · split at hout
    · rename_i hroot
      exact ⟨trimEnd p, hroot.2, by rw [hout, collapse_plain hroot.2.plain]⟩
    · rw [hout, List.append_nil] at hc
      rw [trimmed_collapse (trimmed_trimEnd p) c hc] at hsep
      cases hsep

theorem Normal.normalize_eq (h : Normal p) : normalize p = p := by
  have hout : collapse false p = p := collapse_spaced h.spaced h.slashes (by simp)
  rw [normalize, hout]
  split
  · rename_i hlong
    obtain ⟨hlong, hlast⟩ := Bool.and_eq_true_iff.mp hlong
    obtain ⟨anchor, hanchor, rfl⟩ := h.last '/' (beq_iff_eq.mp hlast) rfl
    rw [driveLength_below hanchor rfl] at hlong
    simp at hlong
  · rfl

theorem normalize_normalize (p : List Char) : normalize (normalize p) = normalize p :=
  (normal_normalize p).normalize_eq

/-! ## The operations on a normal form -/

theorem isAbsolute_normalize (p : List Char) : isAbsolute (normalize p) = isAbsolute p := by
  obtain ⟨s, hs, hp, hout⟩ := exists_normalize p
  by_cases hanchor : Anchor (trimEnd p)
  · cases s with
    | nil =>
      rw [if_neg (by simp), List.append_nil, collapse_plain hanchor.plain] at hout
      rw [List.append_nil] at hp
      rw [hout, ← hp]
    | cons c s =>
      rw [if_pos ⟨List.cons_ne_nil c s, hanchor⟩, collapse_plain hanchor.plain] at hout
      have hleft : isAbsolute (normalize p) = true :=
        isAbsolute_iff.mpr ⟨trimEnd p, '/', [], hanchor, rfl, hout⟩
      have hright : isAbsolute p = true :=
        isAbsolute_iff.mpr ⟨trimEnd p, c, s, hanchor, hs c List.mem_cons_self, hp⟩
      rw [hleft, hright]
  · rw [if_neg fun h => hanchor h.2, List.append_nil] at hout
    have hstart := isAbsolute_append hanchor fun c hc => hs c (List.mem_of_head? hc)
    rw [← hp] at hstart
    rw [hout, isAbsolute_collapse, hstart]

theorem dirname_normalize (p : List Char) : dirname (normalize p) = normalize (dirname p) := by
  cases exists_shape p with
  | root hs =>
    cases p with
    | nil => decide
    | cons c p =>
      have hfirst := normalize_root (separators_singleton (hs c List.mem_cons_self)) (by simp)
      rw [normalize_root hs (by simp), dirname_root hs (by simp)]
      exact hfirst.symm
  | @bare name tail hname htail =>
    obtain ⟨rest, hrest, hout⟩ := normalize_bare hname htail
    have hdot : normalize ['.'] = ['.'] := by decide
    have hdrive := anchor_take name
    have hleft : normalize (name.take (driveLength name)) = name.take (driveLength name) := by
      rw [normalize_trimmed hdrive.trimmed, collapse_plain hdrive.plain]
    rw [hout, dirname_bare hname hrest, dirname_bare hname htail, apply_ite normalize, hdot, hleft]
  | @nested parent gap name tail hparent hne hgap hname htail =>
    have hfirst : Separators (gap.take 1) := fun c hc => hgap c (List.mem_of_mem_take hc)
    rw [normalize_nested hparent hne hgap hname htail, dirname_cons (trimmed_collapse hparent) rfl hname,
      dirname_nested hparent hne hgap hname htail, apply_ite normalize, normalize_trimmed hparent,
      normalize_append hparent hfirst]
    by_cases hanchor : Anchor parent
    · simp [anchor_collapse_iff, hanchor, hne]
    · simp [anchor_collapse_iff, hanchor]

/-- The last component stays, unless all of the path is the separators of a root. -/
theorem basename_normalize (h : ¬ (p ≠ [] ∧ Separators p)) : basename (normalize p) = basename p := by
  cases exists_shape p with
  | root hs =>
    obtain rfl : p = [] := by_contra fun hne => h ⟨hne, hs⟩
    rfl
  | bare hname htail =>
    obtain ⟨rest, hrest, hout⟩ := normalize_bare hname htail
    rw [hout, basename_bare hname hrest, basename_bare hname htail]
  | @nested parent gap name tail hparent hne hgap hname htail =>
    rw [normalize_nested hparent hne hgap hname htail, basename_cons rfl hname,
      basename_nested hne hgap hname htail]

/-! ## Two parts put together -/

theorem join_root (hp : Anchor p) (hc : isSeparator c = true) (hname : IsName name) :
    join (p ++ [c]) name = p ++ c :: name := by
  rw [join_relative (by simp) hname.relative, lead_append hp.trimmed (separators_singleton hc),
    if_pos hp, List.append_assoc]
  rfl

theorem join_trimmed (hp : Trimmed p) (hne : p ≠ []) (hname : IsName name) :
    join p name = p ++ '/' :: name := by
  have hlead : lead p = p ++ ['/'] := by simpa using lead_append hp separators_nil
  rw [join_relative hne hname.relative, hlead, List.append_assoc]
  rfl

/-- **A path with something in front of its name is put together again** from the two. -/
theorem normalize_join (h : ∃ c ∈ trimEnd p, isSeparator c = true) :
    normalize (join (dirname p) (basename p)) = normalize p := by
  obtain ⟨c, hc, hsep⟩ := h
  cases exists_shape p with
  | root hs =>
    rw [trimEnd_root hs] at hc
    cases hc
  | bare hname htail =>
    rw [trimEnd_append hname.trimmed htail] at hc
    rw [hname.plain c hc] at hsep
    cases hsep
  | @nested parent gap name tail hparent hne hgap hname htail =>
    have hjoined : ∃ d, isSeparator d = true ∧
        join (dirname (parent ++ (gap ++ (name ++ tail)))) name = parent ++ d :: name := by
      rw [dirname_nested hparent hne hgap hname htail]
      by_cases hanchor : Anchor parent
      · obtain ⟨d, gap, rfl⟩ := List.exists_cons_of_ne_nil hne
        have hd := hgap d List.mem_cons_self
        exact ⟨d, hd, by rw [if_pos hanchor]; exact join_root hanchor hd hname⟩
      · exact ⟨'/', rfl, by
          rw [if_neg hanchor]
          exact join_trimmed hparent (fun h => hanchor (.inl h)) hname⟩
    obtain ⟨d, hd, hjoined⟩ := hjoined
    have hout := normalize_nested hparent (List.cons_ne_nil d []) (separators_singleton hd) hname
      separators_nil
    rw [List.append_nil, List.singleton_append] at hout
    rw [basename_nested hne hgap hname htail, hjoined, hout, normalize_nested hparent hne hgap hname htail]

/-- **The laws of normalizing**: it ends in normal forms, where it stays; paths keep whether they are
absolute, what is in front of their last component, and that component; the two parts of a path give
the path; and no operation on paths cuts a text where it cannot be cut. -/
theorem normalize_laws (p : List Char) :
    normalize (normalize p) = normalize p ∧ Normal (normalize p) ∧
      isAbsolute (normalize p) = isAbsolute p ∧ dirname (normalize p) = normalize (dirname p) ∧
      (¬ (p ≠ [] ∧ Separators p) → basename (normalize p) = basename p) ∧
      ((∃ c ∈ trimEnd p, isSeparator c = true) →
        normalize (join (dirname p) (basename p)) = normalize p) ∧
      isAbsolute? p = some (isAbsolute p) ∧ basename? p = some (basename p) ∧
      dirname? p = some (dirname p) ∧ normalizeBytes p = normalize p ∧
      ∀ child, join? p child = some (join p child) :=
  ⟨normalize_normalize p, normal_normalize p, isAbsolute_normalize p, dirname_normalize p,
    basename_normalize, normalize_join, isAbsolute?_eq p, basename?_eq p, dirname?_eq p,
    normalizeBytes_eq p, join?_eq p⟩

/-- A drive, both separators and a character of two bytes. -/
theorem normalize_laws_mixed :
    let p := ['C', ':', '\\', '\\', 'é', '/', '/', 'x', '\\']
    ¬ (p ≠ [] ∧ Separators p) ∧ (∃ c ∈ trimEnd p, isSeparator c = true) ∧
      basename (normalize p) = basename p ∧ normalize (join (dirname p) (basename p)) = normalize p := by
  intro p
  have hname : ¬ (p ≠ [] ∧ Separators p) := fun h => absurd (h.2 'x' (by decide)) (by decide)
  have hparent : ∃ c ∈ trimEnd p, isSeparator c = true := ⟨'/', by decide, rfl⟩
  obtain ⟨-, -, -, -, hbasename, hjoin, -⟩ := normalize_laws p
  exact ⟨hname, hparent, hbasename hname, hjoin hparent⟩

end Bytework.Path.Portable
