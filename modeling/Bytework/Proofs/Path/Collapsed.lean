import Bytework.Proofs.Path.Shapes
import Mathlib.Data.List.Chain

/-!
# Runs of separators as one slash

What collapsing the runs of separators does to the parts of a path, and what a normal form is made of.

* `collapse_append`: runs are collapsed part by part, where it is told whether a separator comes in front;
  `collapse_nested`: between two names one slash is left.
* `Spaced`: no two separators are neighbours; `spaced_collapse`, `collapse_spaced`: collapsed paths are
  spaced, and spaced slashes are left alone.
* `driveLength_collapse`, `isAbsolute_collapse`, `anchor_collapse_iff`: the start of a path stays.
* `normalize_append`: the normal form, with a slash at its end only behind an anchor.
-/

namespace Bytework.Path.Portable

variable {p q s name parent gap tail : List Char} {c : Char} {after : Bool}

/-! ## Runs of separators -/

/-- Whether a separator comes last, in a path behind others that may end in one. -/
def endsIn (after : Bool) (p : List Char) : Bool := (p.getLast?.map isSeparator).getD after

theorem endsIn_cons (after : Bool) (c : Char) (p : List Char) :
    endsIn after (c :: p) = endsIn (isSeparator c) p := by
  cases p using List.reverseRecOn with
  | nil => rfl
  | append_singleton p d => simp [endsIn, List.getLast?_cons]

theorem endsIn_of_trimmed (hp : Trimmed p) : endsIn false p = false := by
  cases p using List.reverseRecOn with
  | nil => rfl
  | append_singleton p c => simpa [endsIn] using hp c (by simp)

theorem collapse_append (after : Bool) (p q : List Char) :
    collapse after (p ++ q) = collapse after p ++ collapse (endsIn after p) q := by
  induction p generalizing after with
  | nil => rfl
  | cons c p ih =>
    rw [List.cons_append, endsIn_cons, collapse, collapse]
    cases isSeparator c <;> cases after <;> simp [ih]

theorem collapse_trimmed_append (hp : Trimmed p) (q : List Char) :
    collapse false (p ++ q) = collapse false p ++ collapse false q := by
  rw [collapse_append, endsIn_of_trimmed hp]

theorem collapse_true_separators (hs : Separators s) : collapse true s = [] := by
  induction s with
  | nil => rfl
  | cons c s ih =>
    obtain ⟨hc, hs⟩ := List.forall_mem_cons.mp hs
    rw [collapse, hc, if_pos rfl, if_pos rfl, ih hs]

theorem collapse_separators (hs : Separators s) (hne : s ≠ []) : collapse false s = ['/'] := by
  obtain ⟨c, s, rfl⟩ := List.exists_cons_of_ne_nil hne
  obtain ⟨hc, hs⟩ := List.forall_mem_cons.mp hs
  rw [collapse, hc, if_pos rfl, if_neg Bool.false_ne_true, collapse_true_separators hs]

theorem collapse_plain (hp : ∀ c ∈ p, isSeparator c = false) : collapse after p = p := by
  induction p generalizing after with
  | nil => rfl
  | cons c p ih =>
    obtain ⟨hc, hp⟩ := List.forall_mem_cons.mp hp
    rw [collapse, hc, if_neg Bool.false_ne_true, ih hp]

theorem collapse_nested (hparent : Trimmed parent) (hne : gap ≠ []) (hgap : Separators gap)
    (hname : IsName name) :
    collapse false (parent ++ (gap ++ name)) = collapse false parent ++ '/' :: name := by
  have hends : endsIn false gap = true := by
    cases gap using List.reverseRecOn with
    | nil => exact absurd rfl hne
    | append_singleton gap c => simpa [endsIn] using hgap c (by simp)
  rw [collapse_trimmed_append hparent, collapse_append, hends, collapse_separators hgap hne,
    collapse_plain hname.plain, List.singleton_append]

theorem mem_collapse (h : c ∈ collapse after p) : c = '/' ∨ isSeparator c = false := by
  fun_induction collapse after p with
  | case1 => cases h
  | case2 c p hc ih => exact ih h
  | case3 after d p hc hafter ih =>
    rcases List.mem_cons.mp h with rfl | h
    · exact .inl rfl
    · exact ih h
  | case4 after d p hc ih =>
    rcases List.mem_cons.mp h with rfl | h
    · exact .inr (by simpa using hc)
    · exact ih h

/-- No two separators are neighbours. -/
def Spaced (p : List Char) : Prop := p.IsChain fun c d => isSeparator c = true → isSeparator d = false

/-- Behind a separator comes no other. -/
theorem head?_collapse_true (p : List Char) : ∀ c ∈ (collapse true p).head?, isSeparator c = false := by
  induction p with
  | nil => simp [collapse]
  | cons d p ih =>
    rw [collapse]
    cases hd : isSeparator d with
    | true => exact ih
    | false =>
      rintro c ⟨⟩
      exact hd

theorem spaced_collapse (after : Bool) (p : List Char) : Spaced (collapse after p) := by
  fun_induction collapse after p with
  | case1 => exact .nil
  | case2 c p hc ih => exact ih
  | case3 after c p hc hafter ih =>
    exact List.isChain_cons.mpr ⟨fun d hd _ => head?_collapse_true p d hd, ih⟩
  | case4 after c p hc ih => exact List.isChain_cons.mpr ⟨fun d hd h => absurd h hc, ih⟩

/-- **Spaced slashes are left alone.** -/
theorem collapse_spaced (hp : Spaced p) (hslash : '\\' ∉ p)
    (hafter : after = true → ∀ c ∈ p.head?, isSeparator c = false) : collapse after p = p := by
  fun_induction collapse after p with
  | case1 => rfl
  | case2 c p hc ih => exact absurd hc (by simp [hafter rfl c rfl])
  | case3 after c p hc _ ih =>
    obtain ⟨hnext, hrest⟩ := List.isChain_cons.mp hp
    have hne : c ≠ '\\' := (List.ne_of_not_mem_cons hslash).symm
    obtain rfl : c = '/' := by simpa [isSeparator, hne] using hc
    rw [ih hrest (List.not_mem_of_not_mem_cons hslash) fun _ d hd => hnext d hd hc]
  | case4 after c p hc ih =>
    rw [ih (List.isChain_cons.mp hp).2 (List.not_mem_of_not_mem_cons hslash) nofun]

/-! ## The start and the end of a path -/

theorem head?_collapse (p : List Char) :
    (collapse false p).head?.any isSeparator = p.head?.any isSeparator := by
  cases p with
  | nil => rfl
  | cons c p => cases hc : isSeparator c <;> simp [collapse, hc]; rfl

theorem driveLength_separator (hc : isSeparator c = true) (p : List Char) : driveLength (c :: p) = 0 :=
  driveLength_below (.inl rfl) hc p

theorem driveLength_collapse (p : List Char) : driveLength (collapse false p) = driveLength p := by
  match p with
  | [] => rfl
  | [c] => cases hc : isSeparator c <;> simp [collapse, hc, driveLength]
  | c :: d :: p =>
    cases hc : isSeparator c with
    | true =>
      have hslash : collapse false (c :: d :: p) = '/' :: collapse true (d :: p) := by simp [collapse, hc]
      rw [hslash, driveLength_separator hc, driveLength_separator (by decide)]
    | false =>
      cases hd : isSeparator d with
      | true =>
        have hcolon : d ≠ ':' := by
          rintro rfl
          exact absurd hd (by decide)
        simp [collapse, hc, hd, driveLength_cons_cons, hcolon]
      | false => simp [collapse, hc, hd, driveLength_cons_cons]

theorem isAbsolute_collapse (p : List Char) : isAbsolute (collapse false p) = isAbsolute p := by
  have hanchor := anchor_take p
  have hout : collapse false p =
      p.take (driveLength p) ++ collapse false (p.drop (driveLength p)) := by
    rw [← collapse_plain hanchor.plain, ← collapse_trimmed_append hanchor.trimmed,
      List.take_append_drop]
  have hdrop : (collapse false p).drop (driveLength p) = collapse false (p.drop (driveLength p)) := by
    rw [hout]
    exact List.drop_left' (List.length_take_of_le (driveLength_le p))
  rw [isAbsolute, driveLength_collapse, hdrop, head?_collapse, isAbsolute]

theorem trimmed_collapse (hp : Trimmed p) : Trimmed (collapse false p) := by
  cases p using List.reverseRecOn with
  | nil => exact trimmed_nil
  | append_singleton p c =>
    have hc : ∀ x ∈ [c], isSeparator x = false := by simpa using hp c (by simp)
    rw [collapse_append, collapse_plain hc]
    exact (IsName.mk (by simp) hc).trimmed_append _

/-- Where there is a separator, one is left. -/
theorem plain_of_plain_collapse (h : ∀ c ∈ collapse false p, isSeparator c = false) :
    ∀ c ∈ p, isSeparator c = false := by
  induction p with
  | nil => simp
  | cons c p ih =>
    rw [collapse] at h
    cases hc : isSeparator c with
    | true =>
      rw [hc, if_pos rfl, if_neg Bool.false_ne_true] at h
      exact absurd (h '/' List.mem_cons_self) (by decide)
    | false =>
      rw [hc, if_neg Bool.false_ne_true] at h
      exact List.forall_mem_cons.mpr ⟨hc, ih (List.forall_mem_cons.mp h).2⟩

theorem anchor_collapse_iff : Anchor (collapse false p) ↔ Anchor p := by
  constructor
  · intro h
    rwa [collapse_plain (plain_of_plain_collapse h.plain)] at h
  · intro h
    rwa [collapse_plain h.plain]

/-- **A normal form keeps one separator at the end**, behind an anchor, and no other there. -/
theorem normalize_append (hp : Trimmed p) (hs : Separators s) :
    normalize (p ++ s) = collapse false p ++ if s ≠ [] ∧ Anchor p then ['/'] else [] := by
  by_cases hne : s = []
  · subst hne
    have hlast : (collapse false p).getLast? ≠ some '/' := fun h =>
      absurd (trimmed_collapse hp '/' h) (by decide)
    simp [normalize, hlast]
  · have hout : collapse false (p ++ s) = collapse false p ++ ['/'] := by
      rw [collapse_trimmed_append hp, collapse_separators hs hne]
    have hdrive : driveLength (collapse false p ++ ['/']) = driveLength p := by
      rw [driveLength_append (by simp [isSeparator]), driveLength_collapse]
    have hle := driveLength_le (collapse false p)
    rw [driveLength_collapse] at hle
    simp only [normalize, hout, hdrive, List.getLast?_concat, List.length_append, List.length_singleton,
      List.dropLast_concat, hne, ne_eq, not_false_eq_true, true_and, beq_self_eq_true, Bool.and_true,
      decide_eq_true_eq]
    by_cases hanchor : Anchor p
    · have hlength := anchor_iff.mp hanchor
      rw [if_pos hanchor, collapse_plain hanchor.plain, if_neg (by omega)]
    · have hlength : (collapse false p).length ≠ driveLength p := by
        rw [← driveLength_collapse]
        exact fun h => hanchor (anchor_collapse_iff.mp (anchor_iff.mpr h))
      rw [if_neg hanchor, if_pos (by omega), List.append_nil]

end Bytework.Path.Portable
