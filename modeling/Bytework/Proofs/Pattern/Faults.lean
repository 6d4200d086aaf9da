import Bytework.Proofs.Pattern.Quantifiers

/-!
# Where patterns are refused

Every reader of a part of a pattern fails, if it does, at a place in the text that it was given.

* `Within`: the faults of a reader leave no more bytes than there were.
* `within_classItems`, `within_bounds`, `within_quantify`, `within_atom`: the readers one by one.
-/

namespace Bytework.Pattern

variable {α β : Type} {n : Nat}

/-- A fault of the reader leaves at most `n` bytes. -/
def Within (n : Nat) (r : Except Fault α) : Prop := ∀ fault, r = .error fault → fault.left ≤ n

theorem within_ok (a : α) : Within n (.ok a) := fun _ h => by cases h

theorem within_failAt {error : SyntaxError} {rest : Bytes} (h : rest.length ≤ n) :
    Within n (failAt error rest : Except Fault α) := fun _ hfault => by
  cases hfault
  exact h

theorem Within.mono {m : Nat} {r : Except Fault α} (h : Within m r) (hle : m ≤ n) : Within n r :=
  fun fault hfault => Nat.le_trans (h fault hfault) hle

theorem Within.error {r : Except Fault α} {fault : Fault} (h : Within n r) (hr : r = .error fault) :
    Within n (.error fault : Except Fault β) := fun _ hfault => by
  cases hfault
  exact h fault hr

theorem Within.bind {r : Except Fault α} {f : α → Except Fault β} (h : Within n r)
    (hf : ∀ a, r = .ok a → Within n (f a)) : Within n (r.bind f) := by
  cases r with
  | error fault => exact h.error rfl
  | ok a => exact hf a rfl

theorem Within.map {r : Except Fault α} {f : α → β} (h : Within n r) : Within n (r.map f) := by
  cases r with
  | error fault => exact h.error rfl
  | ok a => exact within_ok _

variable {b lo : UInt8} {rest : Bytes} {t : Tree} {least : Nat} {most : Option Nat}

/-! ## Classes -/

theorem within_closeRange (lo hi : UInt8) (rest : Bytes) :
    Within rest.length (closeRange lo hi rest) := by
  unfold closeRange
  split
  · exact within_failAt (Nat.le_refl _)
  · exact within_ok _

theorem within_rangeFrom (lo : UInt8) (rest : Bytes) : Within rest.length (rangeFrom lo rest) := by
  unfold rangeFrom
  split
  · split
    · split
      · split
        · exact within_failAt (Nat.zero_le _)
        · exact (within_closeRange _ _ _).mono (by simp only [List.length_cons]; omega)
      · exact (within_closeRange _ _ _).mono (by simp only [List.length_cons]; omega)
    · exact within_ok _
  · exact within_ok _

theorem within_classItem (b : UInt8) (rest : Bytes) : Within rest.length (classItem b rest) := by
  unfold classItem
  split
  · split
    · exact within_failAt (Nat.zero_le _)
    · split
      · exact within_ok _
      · exact (within_rangeFrom _ _).mono (Nat.le_succ _)
  · exact within_rangeFrom _ _

theorem within_classItems (first : Bool) (rest : Bytes) :
    Within rest.length (classItems first rest) := by
  fun_induction classItems first rest with
  | case1 => exact within_failAt (Nat.le_refl _)
  | case2 => exact within_ok _
  | case3 first b rest _ fault hitem =>
    exact ((within_classItem b rest).error hitem).mono (Nat.le_succ _)
  | case4 first b rest _ ranges after hitem ih =>
    have hle := length_of_classItem hitem
    exact (ih.mono (by rw [List.length_cons]; omega)).bind fun _ _ => within_ok _

theorem within_classTree (rest : Bytes) : Within rest.length (classTree rest) := by
  unfold classTree
  cases rest with
  | nil => exact (within_classItems true []).map
  | cons b rest =>
    by_cases hb : b = byte '^'
    · simp only [if_pos hb]
      exact ((within_classItems true rest).mono (Nat.le_succ _)).map
    · simp only [if_neg hb]
      exact (within_classItems true (b :: rest)).map

/-! ## Quantifiers -/

theorem within_count (rest : Bytes) : Within rest.length (count rest) := by
  simp only [count]
  split
  · exact within_ok _
  · split
    · exact within_failAt (List.dropWhile_sublist _).length_le
    · exact within_ok _

theorem within_mostCount (least : Nat) (rest : Bytes) :
    Within rest.length (mostCount least rest) := by
  unfold mostCount
  split
  · exact within_ok _
  · split
    · exact (within_count _).mono (Nat.le_succ _)
    · exact within_ok _

theorem within_closeBounds (least : Nat) (most : Option Nat) (rest : Bytes) :
    Within rest.length (closeBounds least most rest) := by
  unfold closeBounds
  split
  · exact within_ok _
  · split
    · split
      · exact within_failAt (Nat.le_succ _)
      · exact within_ok _
    · exact within_ok _

theorem within_bounds (rest : Bytes) : Within rest.length (bounds rest) := by
  unfold bounds
  split
  · rename_i hcount
    exact (within_count rest).error hcount
  · exact within_ok _
  · rename_i hcount
    have hafter := length_of_count hcount
    split
    · rename_i hmost
      exact ((within_mostCount _ _).error hmost).mono hafter
    · rename_i hmost
      exact (within_closeBounds _ _ _).mono (Nat.le_trans (length_of_mostCount hmost) hafter)

theorem within_finishQuantifier (t : Tree) (least : Nat) (most : Option Nat) (rest : Bytes) :
    Within rest.length (finishQuantifier t least most rest) := by
  obtain ⟨greedy, after, rfl, ⟨-, hread⟩ | ⟨-, hread⟩⟩ := finishQuantifier_cases t least most rest
  · rw [hread]
    exact within_ok _
  · rw [hread]
    exact within_failAt (by rw [List.length_append]; exact Nat.le_add_left _ _)

theorem within_quantify (t : Tree) (rest : Bytes) : Within rest.length (quantify t rest) := by
  unfold quantify
  split
  · exact within_ok _
  · split
    · exact (within_finishQuantifier _ _ _ _).mono (Nat.le_succ _)
    · split
      · split
        · rename_i hbounds
          exact ((within_bounds _).error hbounds).mono (Nat.le_succ _)
        · exact within_ok _
        · rename_i hbounds
          exact (within_finishQuantifier _ _ _ _).mono
            (Nat.le_trans (length_of_bounds hbounds) (Nat.le_succ _))
      · exact within_ok _

/-! ## Atoms -/

theorem within_atom (b : UInt8) (rest : Bytes) : Within (rest.length + 1) (atom b rest) := by
  unfold atom
  split
  · exact within_ok _
  split
  · exact within_ok _
  split
  · exact within_ok _
  split
  · exact (within_classTree rest).mono (Nat.le_succ _)
  split
  · split
    · exact within_failAt (Nat.zero_le _)
    · exact within_ok _
  split
  · exact within_failAt (Nat.le_refl _)
  · exact within_ok _

end Bytework.Pattern
