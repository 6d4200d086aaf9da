import Bytework.Proofs.Path.Shapes
import Mathlib.Logic.Function.Iterate

/-!
# Walking up to the root

What comes of a path when its last component is taken away again and again.

* `root`, `IsRoot`: what an absolute path starts with; `DriveRoot`: a drive with nothing but separators
  behind it.
* `dirname_below`: one step up stays below the root, and the path gets shorter.
* `Climbs`, `climbs_below`: by steps like this the root is reached.
* `iterate_dirname_driveRoot`, `basename_driveRoot`: a step up from the root of a drive leaves it.
* **`climb`**: the walk up from any absolute path.
-/

namespace Bytework.Path.Portable

variable {p r anchor rest s : List Char} {c d : Char}

/-- What an absolute path starts with: the drive, if there is one, and a separator. -/
def root (p : List Char) : List Char := p.take (driveLength p + 1)

/-- A separator, or a letter, a colon and a separator. -/
def IsRoot (r : List Char) : Prop :=
  ∃ anchor c, Anchor anchor ∧ isSeparator c = true ∧ r = anchor ++ [c]

/-- A drive with separators behind it, and nothing else. -/
def DriveRoot (p : List Char) : Prop :=
  ∃ d s, d.isAlpha = true ∧ s ≠ [] ∧ Separators s ∧ p = d :: ':' :: s

/-- Steps up lead from one path to another, and all paths on the way are absolute. -/
def Climbs (p r : List Char) : Prop :=
  ∃ n, dirname^[n] p = r ∧ ∀ i ≤ n, isAbsolute (dirname^[i] p) = true

theorem Climbs.refl (hp : isAbsolute p = true) : Climbs p p :=
  ⟨0, rfl, fun i hi => by rwa [Nat.le_zero.mp hi]⟩

theorem Climbs.step (hp : isAbsolute p = true) (h : Climbs (dirname p) r) : Climbs p r := by
  obtain ⟨n, hn, hway⟩ := h
  refine ⟨n + 1, hn, fun i hi => ?_⟩
  cases i with
  | zero => exact hp
  | succ i => exact hway i (Nat.le_of_succ_le_succ hi)

theorem root_eq (hanchor : Anchor anchor) (hc : isSeparator c = true) (rest : List Char) :
    root (anchor ++ c :: rest) = anchor ++ [c] := by
  rw [root, driveLength_below hanchor hc]
  simp [List.take_append]

/-! ## Below a root -/

section Below

variable (hanchor : Anchor anchor) (hc : isSeparator c = true)
include hanchor hc

theorem isAbsolute_below (rest : List Char) : isAbsolute (anchor ++ c :: rest) = true :=
  isAbsolute_iff.mpr ⟨anchor, c, rest, hanchor, hc, rfl⟩

/-- **One step up from a path with a name below a root** leads to the root, or to a shorter path with a
name below it. -/
theorem dirname_below (hrest : ¬ Separators rest) :
    ∃ above, above.length < rest.length ∧ (above = [] ∨ ¬ Separators above) ∧
      dirname (anchor ++ c :: rest) = anchor ++ c :: above := by
  have hlength : 0 < rest.length := List.length_pos_iff.mpr fun h => hrest (h ▸ separators_nil)
  have hgap : ∀ {s}, Separators s → Separators (c :: s) := fun hs => List.forall_mem_cons.mpr ⟨hc, hs⟩
  cases exists_shape rest with
  | root hs => exact absurd hs hrest
  | bare hname htail =>
    have h := dirname_nested hanchor.trimmed (List.cons_ne_nil c []) (hgap separators_nil) hname htail
    rw [if_pos hanchor] at h
    exact ⟨[], hlength, .inl rfl, h⟩
  | @nested parent gap name tail hparent hne hs hname htail =>
    by_cases hempty : parent = []
    · subst hempty
      have h := dirname_nested hanchor.trimmed (List.cons_ne_nil c gap) (hgap hs) hname htail
      rw [if_pos hanchor] at h
      exact ⟨[], hlength, .inl rfl, h⟩
    · have htrimmed : Trimmed (anchor ++ c :: parent) := by
        have h := hparent.append hempty (anchor ++ [c])
        rwa [← List.append_cons] at h
      have hnot : ¬ Anchor (anchor ++ c :: parent) := fun h =>
        absurd (h.plain c (by simp)) (by simp [hc])
      have h := dirname_nested htrimmed hne hs hname htail
      rw [if_neg hnot] at h
      refine ⟨parent, ?_, .inr (hparent.not_separators hempty), by simpa using h⟩
      have := List.length_pos_iff.mpr hne
      simp only [List.length_append]
      omega

/-- **From a path with a name below a root the root is reached**, and all paths on the way are below it. -/
theorem climbs_below (hrest : rest = [] ∨ ¬ Separators rest) :
    Climbs (anchor ++ c :: rest) (anchor ++ [c]) := by
  induction hlength : rest.length using Nat.strong_induction_on generalizing rest with
  | _ length ih =>
    rcases hrest with rfl | hrest
    · exact .refl (isAbsolute_below hanchor hc [])
    · obtain ⟨above, hlt, habove, hstep⟩ := dirname_below hanchor hc hrest
      have hclimbs := ih above.length (hlength ▸ hlt) habove rfl
      exact .step (isAbsolute_below hanchor hc rest) (hstep ▸ hclimbs)

theorem dirname_absolute (h : ¬ DriveRoot (anchor ++ c :: rest)) :
    ∃ above, (above = [] ∨ ¬ Separators above) ∧ dirname (anchor ++ c :: rest) = anchor ++ c :: above := by
  by_cases hrest : Separators rest
  · have hs : Separators (c :: rest) := List.forall_mem_cons.mpr ⟨hc, hrest⟩
    rcases hanchor with rfl | ⟨d, hd, rfl⟩
    · exact ⟨[], .inl rfl, dirname_root hs (List.cons_ne_nil c rest)⟩
    · exact absurd ⟨d, c :: rest, hd, List.cons_ne_nil c rest, hs, rfl⟩ h
  · obtain ⟨above, -, habove, hstep⟩ := dirname_below hanchor hc hrest
    exact ⟨above, habove, hstep⟩

end Below

/-! ## The root of a drive -/

theorem isName_drive (hd : d.isAlpha = true) : IsName [d, ':'] :=
  ⟨by simp, (show Anchor [d, ':'] from .inr ⟨d, hd, rfl⟩).plain⟩

theorem driveLength_drive (hd : d.isAlpha = true) : driveLength [d, ':'] = 2 := by
  rw [driveLength_cons_cons, if_pos ⟨rfl, hd⟩]

theorem dirname_driveRoot (hd : d.isAlpha = true) (hs : Separators s) :
    dirname (d :: ':' :: s) = [d, ':'] := by
  have h := dirname_bare (isName_drive hd) hs
  rwa [driveLength_drive hd] at h

theorem basename_driveRoot (hd : d.isAlpha = true) (hs : Separators s) :
    basename (d :: ':' :: s) = [] := by
  have h := basename_bare (isName_drive hd) hs
  rwa [driveLength_drive hd] at h

theorem iterate_dirname_driveRoot (hd : d.isAlpha = true) (hs : Separators s) (n : ℕ) :
    dirname^[n + 1] (d :: ':' :: s) = [d, ':'] := by
  rw [Function.iterate_succ_apply, dirname_driveRoot hd hs]
  exact Function.iterate_fixed (dirname_driveRoot hd separators_nil) n

/-- **The walk up from an absolute path.** Unless the path is the root of a drive, the walk stays at
absolute paths until it ends at the root, and without a drive the root is the parent and the last
component of itself. A step up from the root of a drive leads to the drive alone, which is not absolute
and is never left again. -/
theorem climb (h : isAbsolute p = true) :
    (¬ DriveRoot p → isAbsolute (dirname p) = true ∧ IsRoot (root p) ∧ Climbs p (root p)) ∧
      (driveLength p = 0 → dirname (root p) = root p ∧ basename (root p) = root p) ∧
      (DriveRoot p → basename p = [] ∧
        ∀ n, dirname^[n + 1] p = p.take 2 ∧ isAbsolute (dirname^[n + 1] p) = false) := by
  obtain ⟨anchor, c, rest, hanchor, hc, rfl⟩ := isAbsolute_iff.mp h
  have hroot := root_eq hanchor hc rest
  refine ⟨fun hdrive => ?_, fun hlength => ?_, ?_⟩
  · obtain ⟨above, habove, hstep⟩ := dirname_absolute hanchor hc hdrive
    have hclimbs := climbs_below hanchor hc habove
    rw [← hstep] at hclimbs
    rw [hroot]
    exact ⟨hstep ▸ isAbsolute_below hanchor hc above, ⟨anchor, c, hanchor, hc, rfl⟩, hclimbs.step h⟩
  · rw [driveLength_below hanchor hc] at hlength
    obtain rfl := List.length_eq_zero_iff.mp hlength
    rw [hroot]
    exact ⟨dirname_root (separators_singleton hc) (by simp), basename_root (separators_singleton hc)⟩
  · rintro ⟨d, s, hd, -, hs, hp⟩
    rw [hp]
    refine ⟨basename_driveRoot hd hs, fun n => ?_⟩
    rw [iterate_dirname_driveRoot hd hs n]
    exact ⟨rfl, isAbsolute_plain (isName_drive hd).plain⟩

/-- A walk below the root of a drive, one to a root without a drive, and one that leaves the root of a
drive. -/
theorem climb_drives :
    let below := ['C', ':', '\\', '\\', 'a', '/', 'b']
    let plain := ['/', '/', 'a']
    let drive := ['c', ':', '/', '\\']
    (isAbsolute below = true ∧ ¬ DriveRoot below ∧ isAbsolute (dirname below) = true ∧
      Climbs below ['C', ':', '\\']) ∧
    (isAbsolute plain = true ∧ driveLength plain = 0 ∧ dirname ['/'] = ['/'] ∧
      basename ['/'] = ['/']) ∧
    (isAbsolute drive = true ∧ DriveRoot drive ∧ basename drive = [] ∧
      dirname^[2] drive = ['c', ':']) := by
  intro below plain drive
  have hbelow : isAbsolute below = true := by decide
  have hplain : isAbsolute plain = true := by decide
  have hdrive : isAbsolute drive = true := by decide
  have hnot : ¬ DriveRoot below := by
    rintro ⟨d, s, -, -, hs, h⟩
    obtain ⟨-, h⟩ := List.cons.inj h
    obtain ⟨-, rfl⟩ := List.cons.inj h
    exact absurd (hs 'a' (by decide)) (by decide)
  have hroot : DriveRoot drive :=
    ⟨'c', ['/', '\\'], rfl, by decide, by simp [Separators, isSeparator], rfl⟩
  obtain ⟨hup, -, hclimbs⟩ := (climb hbelow).1 hnot
  obtain ⟨hname, hway⟩ := (climb hdrive).2.2 hroot
  exact ⟨⟨hbelow, hnot, hup, hclimbs⟩, ⟨hplain, rfl, (climb hplain).2.1 rfl⟩, hdrive, hroot, hname,
    (hway 1).1⟩

/-- The root of a drive is absolute, and what is in front of it is not. No way up from it ends at a root
that is in front of itself, and it is not its own last component. -/
theorem climb_leaves :
    let p := ['C', ':', '/']
    IsRoot p ∧ isAbsolute p = true ∧ isAbsolute (dirname p) = false ∧
      (¬ ∃ n, IsRoot (dirname^[n] p) ∧ dirname (dirname^[n] p) = dirname^[n] p) ∧ basename p ≠ p := by
  intro p
  have hroot : IsRoot p := ⟨['C', ':'], '/', .inr ⟨'C', rfl, rfl⟩, rfl, rfl⟩
  refine ⟨hroot, by decide, by decide, ?_, by decide⟩
  rintro ⟨n, hn, hfixed⟩
  cases n with
  | zero => exact absurd hfixed (by decide)
  | succ n =>
    rw [iterate_dirname_driveRoot rfl (separators_singleton rfl)] at hn
    obtain ⟨anchor, c, hanchor, hc, heq⟩ := hn
    have habsolute : isAbsolute ['C', ':'] = true := isAbsolute_iff.mpr ⟨anchor, c, [], hanchor, hc, heq⟩
    exact absurd habsolute (by decide)

end Bytework.Path.Portable
