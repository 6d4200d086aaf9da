import Bytework.Text.Blank
import Mathlib.Data.List.DropRight

/-!
# Parts of a text

White space around a text, and the texts between separators.

* `Blank`, `Plain`: white space, and a text with none at its ends.
* **`trim_append`**, **`exists_trim`**: trimming takes away white space around a plain text, and every
  text is one with white space around it.
* `trim_append_cons`: trimming what starts with no white space.
* `notMem_of_mem_splitOn`: no separator stands in a text between separators.
-/

namespace Bytework.Text

/-! ## White space -/

section Blanks

variable {s before after : List Char} {c : Char}

/-- White space, or nothing. -/
def Blank (s : List Char) : Prop := ∀ c ∈ s, isBlank c = true

/-- A text with no white space at its ends. -/
structure Plain (s : List Char) : Prop where
  starts : ∀ c ∈ s.head?, isBlank c = false
  ends : ∀ c ∈ s.getLast?, isBlank c = false

theorem blank_append (hbefore : Blank before) (hafter : Blank after) : Blank (before ++ after) :=
  List.forall_mem_append.mpr ⟨hbefore, hafter⟩

theorem blank_takeWhile (s : List Char) : Blank (s.takeWhile isBlank) := fun _ =>
  List.mem_takeWhile_imp

theorem blank_rtakeWhile (s : List Char) : Blank (s.rtakeWhile isBlank) := fun _ =>
  List.mem_rtakeWhile_imp

theorem notMem_of_blank (hc : isBlank c = false) (h : Blank s) : c ∉ s := fun hmem =>
  Bool.false_ne_true (hc.symm.trans (h c hmem))

theorem dropWhile_of_starts (h : ∀ c ∈ s.head?, isBlank c = false) : s.dropWhile isBlank = s := by
  cases s with
  | nil => rfl
  | cons c s => exact List.dropWhile_cons_of_neg (by rw [h c rfl]; exact Bool.false_ne_true)

theorem rdropWhile_eq_self_iff :
    s.rdropWhile isBlank = s ↔ ∀ c ∈ s.getLast?, isBlank c = false := by
  rw [List.rdropWhile_eq_self_iff]
  cases s using List.reverseRecOn <;> simp

theorem rdropWhile_append_right (h : Blank after) (s : List Char) :
    (s ++ after).rdropWhile isBlank = s.rdropWhile isBlank := by
  have hreverse : ∀ c ∈ after.reverse, isBlank c = true := fun c hc =>
    h c (List.mem_reverse.mp hc)
  rw [List.rdropWhile, List.rdropWhile, List.reverse_append, List.dropWhile_append_of_pos hreverse]

theorem rdropWhile_append_cons (hc : isBlank c = false) (before after : List Char) :
    (before ++ c :: after).rdropWhile isBlank = before ++ c :: after.rdropWhile isBlank := by
  induction after using List.reverseRecOn with
  | nil => rw [List.rdropWhile_nil, List.rdropWhile_concat, hc, if_neg Bool.false_ne_true]
  | append_singleton after a ih =>
    rw [← List.cons_append, ← List.append_assoc, List.rdropWhile_concat, List.rdropWhile_concat, ih]
    split
    · rfl
    · rw [List.append_assoc, List.cons_append]

/-! ## Trimming -/

theorem trim_eq (s : List Char) : trim s = (s.dropWhile isBlank).rdropWhile isBlank := rfl

theorem trim_of_plain (h : Plain s) : trim s = s := by
  rw [trim_eq, dropWhile_of_starts h.starts, rdropWhile_eq_self_iff.mpr h.ends]

theorem trim_append_left (h : Blank before) (s : List Char) : trim (before ++ s) = trim s := by
  rw [trim_eq, List.dropWhile_append_of_pos h, trim_eq]

theorem trim_of_blank (h : Blank s) : trim s = [] := by
  rw [← List.append_nil s, trim_append_left h]
  rfl

theorem trim_append_right (h : Blank after) (s : List Char) : trim (s ++ after) = trim s := by
  by_cases hs : s.dropWhile isBlank = []
  · have hblank : Blank s := List.dropWhile_eq_nil_iff.mp hs
    rw [trim_append_left hblank, trim_of_blank h, trim_of_blank hblank]
  · rw [trim_eq, List.dropWhile_append, if_neg (by simpa using hs), rdropWhile_append_right h, trim_eq]

/-- **Trimming takes away the white space around a text** that has none at its ends. -/
theorem trim_append (hbefore : Blank before) (hs : Plain s) (hafter : Blank after) :
    trim (before ++ s ++ after) = s := by
  rw [trim_append_right hafter, trim_append_left hbefore, trim_of_plain hs]

theorem trim_append_cons (hs : ∀ a ∈ s.head?, isBlank a = false) (hc : isBlank c = false) :
    trim (s ++ c :: after) = s ++ c :: after.rdropWhile isBlank := by
  have hstart : ∀ a ∈ (s ++ c :: after).head?, isBlank a = false := by
    cases s with
    | nil =>
      rintro a ⟨⟩
      exact hc
    | cons a s => exact hs
  rw [trim_eq, dropWhile_of_starts hstart, rdropWhile_append_cons hc]

theorem plain_trim (s : List Char) : Plain (trim s) := by
  refine ⟨fun c hc => ?_, ?_⟩
  · have hprefix : trim s <+: s.dropWhile isBlank := List.rdropWhile_prefix _ _
    have hhead : (s.dropWhile isBlank).head? = some c := by
      obtain ⟨lost, hlost⟩ := hprefix
      rw [← hlost, List.head?_append, hc, Option.some_or]
    have hnot := List.head?_dropWhile_not isBlank s
    rwa [hhead] at hnot
  · rw [← rdropWhile_eq_self_iff]
    exact List.rdropWhile_idempotent isBlank _

/-- **Every text stands between the white space that trimming takes away.** -/
theorem exists_trim (s : List Char) :
    ∃ before after, Blank before ∧ Blank after ∧ s = before ++ trim s ++ after := by
  refine ⟨s.takeWhile isBlank, (s.dropWhile isBlank).rtakeWhile isBlank,
    blank_takeWhile s, blank_rtakeWhile _, ?_⟩
  rw [List.append_assoc, trim_eq, List.rdropWhile_append_rtakeWhile, List.takeWhile_append_dropWhile]

end Blanks

/-! ## Separators -/

/-- No separator stands in a text between separators. -/
theorem notMem_of_mem_splitOn {α : Type} [BEq α] [LawfulBEq α] {c : α} {s : List α} :
    ∀ t ∈ s.splitOn c, c ∉ t := by
  induction s with
  | nil => simp
  | cons a s ih =>
    rw [List.splitOn_cons_eq_if_modifyHead]
    by_cases ha : (a == c) = true
    · rw [if_pos ha]
      exact List.forall_mem_cons.mpr ⟨List.not_mem_nil, ih⟩
    · rw [if_neg ha]
      cases hs : s.splitOn c with
      | nil => simp
      | cons first others =>
        rw [hs] at ih
        obtain ⟨hfirst, hothers⟩ := List.forall_mem_cons.mp ih
        refine List.forall_mem_cons.mpr ⟨fun hmem => ?_, hothers⟩
        rcases List.mem_cons.mp hmem with h | h
        · exact ha (beq_iff_eq.mpr h.symm)
        · exact hfirst h

end Bytework.Text
