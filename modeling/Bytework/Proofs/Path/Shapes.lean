import Bytework.Path.Portable
import Mathlib.Data.List.DropRight
import Mathlib.Data.List.Infix

/-!
# Shapes of portable paths

Every path is made of separators alone, of a bare name, or of a name with something in front of it, and
the operations are told for each of these shapes.

* `Separators`, `Trimmed`, `IsName`, `Anchor`: what a path is made of; an anchor is what the separator
  of a root comes behind.
* `Shape`, `exists_shape`: the three shapes.
* `driveLength_append`: separators at the end of a path leave its start as it is; `isAbsolute_iff`: a
  path that starts at a root.
* `basename_bare`, `basename_nested`, `dirname_bare`, `dirname_nested`: the last component, and what is
  in front of it.
-/

namespace Bytework.Path.Portable

variable {p q s name parent gap tail : List Char} {c : Char}

/-! ## What a path is made of -/

/-- Separators, or nothing. -/
def Separators (s : List Char) : Prop := ∀ c ∈ s, isSeparator c = true

/-- A path with no separator at its end. -/
def Trimmed (p : List Char) : Prop := ∀ c ∈ p.getLast?, isSeparator c = false

/-- A component: some characters that are no separators. -/
structure IsName (n : List Char) : Prop where
  ne_nil : n ≠ []
  plain : ∀ c ∈ n, isSeparator c = false

/-- Nothing, or a drive: what the separator of a root comes behind. -/
def Anchor (p : List Char) : Prop := p = [] ∨ ∃ c, c.isAlpha = true ∧ p = [c, ':']

/-- A path of one of three shapes: separators alone, a bare name, or a name behind something else. -/
inductive Shape : List Char → Prop
  | root {s : List Char} (hs : Separators s) : Shape s
  | bare {name tail : List Char} (hname : IsName name) (htail : Separators tail) : Shape (name ++ tail)
  | nested {parent gap name tail : List Char} (hparent : Trimmed parent) (hne : gap ≠ [])
      (hgap : Separators gap) (hname : IsName name) (htail : Separators tail) :
      Shape (parent ++ (gap ++ (name ++ tail)))

theorem isAlpha_of_isSeparator (h : isSeparator c = true) : c.isAlpha = false := by
  rcases Bool.or_eq_true_iff.mp h with h | h
  · rw [beq_iff_eq.mp h]
    decide
  · rw [beq_iff_eq.mp h]
    decide

theorem separators_concat (hs : Separators s) (hc : isSeparator c = true) : Separators (s ++ [c]) :=
  List.forall_mem_append.mpr ⟨hs, by simpa using hc⟩

theorem separators_nil : Separators [] := by simp [Separators]

theorem separators_singleton (hc : isSeparator c = true) : Separators [c] := by
  simpa [Separators] using hc

theorem isName_singleton (hc : isSeparator c = false) : IsName [c] := ⟨by simp, by simpa using hc⟩

theorem IsName.concat (h : IsName name) (hc : isSeparator c = false) : IsName (name ++ [c]) :=
  ⟨by simp, List.forall_mem_append.mpr ⟨h.plain, by simpa using hc⟩⟩

theorem Trimmed.append (hq : Trimmed q) (hne : q ≠ []) (p : List Char) : Trimmed (p ++ q) := by
  intro c hc
  rw [List.getLast?_append_of_ne_nil _ hne] at hc
  exact hq c hc

theorem Trimmed.not_separators (hp : Trimmed p) (hne : p ≠ []) : ¬ Separators p := by
  intro hs
  obtain ⟨c, hc⟩ := Option.isSome_iff_exists.mp (List.getLast?_isSome.mpr hne)
  exact Bool.false_ne_true ((hp c hc).symm.trans (hs c (List.mem_of_getLast? hc)))

theorem IsName.trimmed (h : IsName name) : Trimmed name := fun c hc => h.plain c (List.mem_of_getLast? hc)

theorem IsName.trimmed_append (h : IsName name) (p : List Char) : Trimmed (p ++ name) :=
  h.trimmed.append h.ne_nil p

theorem trimmed_nil : Trimmed [] := by simp [Trimmed]

theorem Shape.concat_separator (h : Shape p) (hc : isSeparator c = true) : Shape (p ++ [c]) := by
  cases h with
  | root hs => exact .root (separators_concat hs hc)
  | bare hname htail =>
    rw [List.append_assoc]
    exact .bare hname (separators_concat htail hc)
  | nested hparent hne hgap hname htail =>
    simp only [List.append_assoc]
    exact .nested hparent hne hgap hname (separators_concat htail hc)

theorem Shape.concat_begins (hp : Trimmed p) (hs : Separators s) (hne : s ≠ [])
    (hc : isSeparator c = false) : Shape (p ++ s ++ [c]) := by
  have h := Shape.nested hp hne hs (isName_singleton hc) separators_nil
  rwa [List.append_nil, ← List.append_assoc] at h

theorem Shape.concat_other (h : Shape p) (hc : isSeparator c = false) : Shape (p ++ [c]) := by
  cases h with
  | root hs =>
    by_cases hne : p = []
    · subst hne
      have h := Shape.bare (isName_singleton hc) separators_nil
      exact h
    · exact concat_begins trimmed_nil hs hne hc
  | @bare name tail hname htail =>
    by_cases hne : tail = []
    · subst hne
      have h := Shape.bare (hname.concat hc) separators_nil
      rwa [List.append_nil] at h ⊢
    · exact concat_begins hname.trimmed htail hne hc
  | @nested parent gap name tail hparent hgapne hgap hname htail =>
    by_cases hne : tail = []
    · subst hne
      have h := Shape.nested hparent hgapne hgap (hname.concat hc) separators_nil
      simpa only [List.append_nil, List.append_assoc] using h
    · have h := concat_begins (hname.trimmed_append (parent ++ gap)) htail hne hc
      simpa only [List.append_assoc] using h

/-- **Every path has a shape.** -/
theorem exists_shape (p : List Char) : Shape p := by
  induction p using List.reverseRecOn with
  | nil => exact .root separators_nil
  | append_singleton p c ih =>
    cases hc : isSeparator c with
    | true => exact ih.concat_separator hc
    | false => exact ih.concat_other hc

/-! ## The start of a path -/

theorem driveLength_cons_cons (c d : Char) (p : List Char) :
    driveLength (c :: d :: p) = if d = ':' ∧ c.isAlpha = true then 2 else 0 := by
  by_cases hd : d = ':'
  · subst hd
    simp [driveLength]
  · simp [driveLength, hd]

/-- Separators behind a path leave its drive as it is. -/
theorem driveLength_append (hq : ∀ c ∈ q.head?, isSeparator c = true) :
    driveLength (p ++ q) = driveLength p := by
  match p, q with
  | p, [] => rw [List.append_nil]
  | [], [c] => rfl
  | [], c :: d :: q =>
    have hc := isAlpha_of_isSeparator (hq c rfl)
    rw [List.nil_append, driveLength_cons_cons, if_neg (by simp [hc])]
    rfl
  | [b], c :: q =>
    have hc : c ≠ ':' := by
      rintro rfl
      exact absurd (hq _ rfl) (by decide)
    simp [hc, driveLength]
  | a :: b :: p, q => simp only [List.cons_append, driveLength_cons_cons]

theorem anchor_iff : Anchor p ↔ p.length = driveLength p := by
  constructor
  · rintro (rfl | ⟨c, hc, rfl⟩)
    · rfl
    · rw [driveLength_cons_cons, if_pos ⟨rfl, hc⟩]
      rfl
  · intro h
    match p with
    | [] => exact .inl rfl
    | [c] => cases h
    | c :: d :: p =>
      rw [driveLength_cons_cons] at h
      split at h
      · rename_i hdrive
        obtain ⟨rfl, hc⟩ := hdrive
        obtain rfl : p = [] := by simpa using h
        exact .inr ⟨c, hc, rfl⟩
      · cases h

instance (p : List Char) : Decidable (Anchor p) := decidable_of_iff _ anchor_iff.symm

theorem Anchor.plain (h : Anchor p) : ∀ c ∈ p, isSeparator c = false := by
  rcases h with rfl | ⟨c, hc, rfl⟩
  · simp
  · have hcolon : isSeparator ':' = false := by decide
    have hletter : isSeparator c = false := Bool.eq_false_iff.mpr fun hsep =>
      Bool.false_ne_true ((isAlpha_of_isSeparator hsep).symm.trans hc)
    simpa using ⟨hletter, hcolon⟩

theorem Anchor.trimmed (h : Anchor p) : Trimmed p := fun c hc => h.plain c (List.mem_of_getLast? hc)

theorem driveLength_le (p : List Char) : driveLength p ≤ p.length := by
  match p with
  | [] => exact Nat.le_refl 0
  | [c] => exact Nat.zero_le 1
  | c :: d :: p =>
    rw [driveLength_cons_cons]
    split <;> simp

/-- The drive of a path, or nothing, is an anchor. -/
theorem anchor_take (p : List Char) : Anchor (p.take (driveLength p)) := by
  match p with
  | [] => exact .inl rfl
  | [c] => exact .inl rfl
  | c :: d :: p =>
    rw [driveLength_cons_cons]
    split
    · rename_i hdrive
      obtain ⟨rfl, hc⟩ := hdrive
      exact .inr ⟨c, hc, rfl⟩
    · exact .inl rfl

theorem driveLength_below (hp : Anchor p) (hc : isSeparator c = true) (rest : List Char) :
    driveLength (p ++ c :: rest) = p.length := by
  rw [driveLength_append (by rintro _ ⟨⟩; exact hc), anchor_iff.mp hp]

/-- **A path is absolute** if a separator comes right behind an anchor. -/
theorem isAbsolute_iff : isAbsolute p = true ↔
    ∃ anchor c rest, Anchor anchor ∧ isSeparator c = true ∧ p = anchor ++ c :: rest := by
  constructor
  · intro h
    rw [isAbsolute, Option.any_eq_true] at h
    obtain ⟨c, hc, hsep⟩ := h
    obtain ⟨rest, hrest⟩ := List.head?_eq_some_iff.mp hc
    exact ⟨_, c, rest, anchor_take p, hsep, by rw [← hrest, List.take_append_drop]⟩
  · rintro ⟨anchor, c, rest, hanchor, hsep, rfl⟩
    rw [isAbsolute, driveLength_below hanchor hsep, List.drop_left]
    exact hsep

theorem isAbsolute_plain (hp : ∀ c ∈ p, isSeparator c = false) : isAbsolute p = false := by
  refine Bool.eq_false_iff.mpr fun h => ?_
  obtain ⟨anchor, c, rest, -, hc, rfl⟩ := isAbsolute_iff.mp h
  exact absurd (hp c (by simp)) (by simp [hc])

theorem isAbsolute_append (hp : ¬ Anchor p) (hq : ∀ c ∈ q.head?, isSeparator c = true) :
    isAbsolute (p ++ q) = isAbsolute p := by
  have hlt : driveLength p < p.length :=
    lt_of_le_of_ne (driveLength_le p) fun h => hp (anchor_iff.mpr h.symm)
  have hne : p.drop (driveLength p) ≠ [] := List.drop_eq_nil_iff.not.mpr (Nat.not_le.mpr hlt)
  rw [isAbsolute, driveLength_append hq, List.drop_append_of_le_length hlt.le,
    List.head?_append_of_ne_nil _ hne, isAbsolute]

/-! ## The end of a path -/

theorem trimEnd_append (hp : Trimmed p) (hs : Separators s) : trimEnd (p ++ s) = p := by
  have hreverse : ∀ c ∈ s.reverse, isSeparator c = true := fun c hc => hs c (List.mem_reverse.mp hc)
  rw [trimEnd, List.reverse_append, List.dropWhile_append_of_pos hreverse]
  cases p using List.reverseRecOn with
  | nil => rfl
  | append_singleton p c =>
    have hc : isSeparator c = false := hp c (by simp)
    simp [hc]

theorem trimEnd_root (hs : Separators s) : trimEnd s = [] := trimEnd_append trimmed_nil hs

theorem trimEnd_of_trimmed (hp : Trimmed p) : trimEnd p = p := by
  have h := trimEnd_append hp separators_nil
  rwa [List.append_nil] at h

theorem trimmed_trimEnd (p : List Char) : Trimmed (trimEnd p) := by
  intro c hc
  have h := List.head?_dropWhile_not isSeparator p.reverse
  rw [Option.mem_def, trimEnd, List.getLast?_reverse] at hc
  rwa [hc] at h

/-- **A path is what trimming leaves, with separators behind it.** -/
theorem exists_trimEnd (p : List Char) : ∃ s, Separators s ∧ p = trimEnd p ++ s :=
  ⟨p.rtakeWhile isSeparator, fun _ => List.mem_rtakeWhile_imp,
    List.rdropWhile_append_rtakeWhile.symm⟩

section Last

variable (hq : ∀ x ∈ q, isSeparator x = false)
include hq

theorem dropWhile_reverse_append (p : List Char) : (p ++ q).reverse.dropWhile (!isSeparator ·) =
    p.reverse.dropWhile (!isSeparator ·) := by
  rw [List.reverse_append, List.dropWhile_append_of_pos]
  simpa using hq

theorem beforeLast?_append (hc : isSeparator c = true) (p : List Char) :
    beforeLast? (p ++ c :: q) = some p := by
  rw [List.append_cons, beforeLast?, dropWhile_reverse_append hq]
  simp [hc]

theorem afterLast_append (hc : isSeparator c = true) (p : List Char) :
    afterLast (p ++ c :: q) = q := by
  have hreverse : ∀ x ∈ q.reverse, (!isSeparator x) = true := by simpa using hq
  rw [List.append_cons, afterLast, List.reverse_append, List.takeWhile_append_of_pos hreverse]
  simp [hc]

theorem beforeLast?_eq_none : beforeLast? q = none := by
  have h := dropWhile_reverse_append hq []
  rw [List.nil_append] at h
  rw [beforeLast?, h]
  rfl

end Last

/-! ## The last component, and what is in front of it -/

theorem basename_root (hs : Separators s) : basename s = s.take 1 := by
  rw [basename, trimEnd_root hs]
  rfl

theorem dirname_root (hs : Separators s) (hne : s ≠ []) : dirname s = s.take 1 := by
  rw [dirname, trimEnd_root hs]
  simp [hne]

section Bare

variable (hname : IsName name) (htail : Separators tail)
include hname htail

theorem basename_bare : basename (name ++ tail) = name.drop (driveLength name) := by
  have hany : name.any isSeparator = false := by simpa using hname.plain
  simp [basename, trimEnd_append hname.trimmed htail, hany, hname.ne_nil]

theorem dirname_bare :
    dirname (name ++ tail) = if driveLength name = 0 then ['.'] else name.take (driveLength name) := by
  simp [dirname, trimEnd_append hname.trimmed htail, beforeLast?_eq_none hname.plain, hname.ne_nil]

end Bare

section Nested

variable (hparent : Trimmed parent) (hne : gap ≠ []) (hgap : Separators gap) (hname : IsName name)
  (htail : Separators tail)

include hname htail in
theorem trimEnd_nested : trimEnd (parent ++ (gap ++ (name ++ tail))) = parent ++ (gap ++ name) := by
  have h := trimEnd_append (hname.trimmed_append (parent ++ gap)) htail
  simpa only [List.append_assoc] using h

include hne hgap in
theorem driveLength_nested (name : List Char) :
    driveLength (parent ++ (gap ++ name)) = driveLength parent := by
  refine driveLength_append fun c hc => ?_
  rw [List.head?_append_of_ne_nil _ hne] at hc
  exact hgap c (List.mem_of_head? hc)

include hne in
theorem exists_concat_gap (parent name : List Char) :
    ∃ before c, gap = before ++ [c] ∧ parent ++ (gap ++ name) = (parent ++ before) ++ c :: name := by
  cases gap using List.reverseRecOn with
  | nil => exact absurd rfl hne
  | append_singleton before c => exact ⟨before, c, rfl, by simp⟩

include hne hgap hname htail in
theorem basename_nested : basename (parent ++ (gap ++ (name ++ tail))) = name := by
  have hany : (parent ++ (gap ++ name)).any isSeparator = true := by
    obtain ⟨c, gap, rfl⟩ := List.exists_cons_of_ne_nil hne
    simp [hgap c List.mem_cons_self]
  obtain ⟨before, c, rfl, hlast⟩ := exists_concat_gap hne parent name
  rw [basename, trimEnd_nested hname htail, hany, hlast, afterLast_append hname.plain (hgap c (by simp))]
  simp

include hparent hne hgap hname htail in
/-- What is in front of a name keeps one separator if it is a root. -/
theorem dirname_nested : dirname (parent ++ (gap ++ (name ++ tail))) =
    if Anchor parent then parent ++ gap.take 1 else parent := by
  have htake : (parent ++ (gap ++ name)).take (parent.length + 1) = parent ++ gap.take 1 := by
    obtain ⟨c, gap, rfl⟩ := List.exists_cons_of_ne_nil hne
    simp [List.take_append]
  have hnotEmpty : (parent ++ (gap ++ name)).isEmpty = false := by simp [hne]
  have hbefore : ∃ before, Separators before ∧
      beforeLast? (parent ++ (gap ++ name)) = some (parent ++ before) := by
    obtain ⟨before, c, rfl, hlast⟩ := exists_concat_gap hne parent name
    obtain ⟨hbefore, hc⟩ := List.forall_mem_append.mp hgap
    exact ⟨before, hbefore, by rw [hlast, beforeLast?_append hname.plain (hc c (by simp))]⟩
  obtain ⟨before, hseparators, hbefore⟩ := hbefore
  simp only [dirname, trimEnd_nested hname htail, hnotEmpty, hbefore, driveLength_nested hne hgap,
    trimEnd_append hparent hseparators, htake, beq_iff_eq, anchor_iff, Bool.false_eq_true, if_false]

end Nested

theorem basename_cons (hc : isSeparator c = true) (hname : IsName name) (p : List Char) :
    basename (p ++ c :: name) = name := by
  have h : basename (p ++ ([c] ++ (name ++ []))) = name :=
    basename_nested (List.cons_ne_nil c []) (separators_singleton hc) hname separators_nil
  rwa [List.append_nil] at h

theorem dirname_cons (hp : Trimmed p) (hc : isSeparator c = true) (hname : IsName name) :
    dirname (p ++ c :: name) = if Anchor p then p ++ [c] else p := by
  have h := dirname_nested hp (List.cons_ne_nil c []) (separators_singleton hc) hname separators_nil
  rwa [List.append_nil] at h

end Bytework.Path.Portable
