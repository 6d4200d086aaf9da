import Bytework.Proofs.Pattern.Backtrack
import Mathlib.Logic.Relation

/-!
# Walks through a program

When plain backtracking finds a match: exactly when some walk leads to the end of the program. The
walks are not bound to visit a state only once.

* `Moves`: one step of a walk; `Accepts`: a walk of a given length that accepts, with its slots.
* **`accepts_of_explore`**: the slots that a branch finds are those of a walk.
* `Escapes`: a walk off a path that accepts, which can be cut at its last visit of a state
  (`Escapes.cut`).
* **`explore_ne_fail`**: a branch does not fail if some walk accepts.
-/

namespace Bytework.Pattern

section Walks

variable (insts : Array Inst) (flags : Flags) (text : Array UInt8)

/-- A state leads to another in one step. -/
def Moves (s t : State) : Prop := ∃ inst, insts[s.1]? = some inst ∧ t ∈ inst.next flags text s

/-- A walk of some steps from a state with some slots accepts with the slots `out`. -/
def Accepts : Nat → State → Slots → Slots → Prop
  | 0, s, slots, out => insts[s.1]? = some .accept ∧ out = slots
  | n + 1, s, slots, out => ∃ inst, insts[s.1]? = some inst ∧
      ∃ t ∈ inst.next flags text s, Accepts n t (inst.write s.2 slots) out

/-- A walk from a state accepts without touching the path. -/
inductive Escapes (path : List State) : State → Prop
  | accept {s : State} (hs : s ∉ path) (hi : insts[s.1]? = some .accept) : Escapes path s
  | step {s t : State} (hs : s ∉ path) (hm : Moves insts flags text s t) (ht : Escapes path t) :
      Escapes path s

variable {insts flags text} {path : List State} {s t : State} {slots out : Slots}

/-- The first step of a walk that accepts, unless it is over. -/
theorem Accepts.step {n : Nat} {inst : Inst} (h : Accepts insts flags text n s slots out)
    (hi : insts[s.1]? = some inst) (ha : inst ≠ .accept) :
    ∃ m < n, ∃ t ∈ inst.next flags text s,
      Accepts insts flags text m t (inst.write s.2 slots) out := by
  cases n with
  | zero => exact absurd (Option.some.inj (hi.symm.trans h.1)) ha
  | succ m =>
    obtain ⟨inst', hi', t, ht, hm⟩ := h
    obtain rfl : inst' = inst := Option.some.inj (hi'.symm.trans hi)
    exact ⟨m, Nat.lt_succ_self m, t, ht, hm⟩

theorem Accepts.length_eq {n : Nat} (h : Accepts insts flags text n s slots out) :
    out.length = slots.length := by
  induction n generalizing s slots with
  | zero => rw [h.2]
  | succ n ih =>
    obtain ⟨inst, -, t, -, ht⟩ := h
    rw [ih ht, Inst.length_write]

/-! ## What a branch finds -/

/-- **The slots that a branch finds are those of a walk.** -/
theorem accepts_of_explore (path : List State) (slots : Slots) (s : State)
    (h : explore insts flags text path slots s = .ok (some out)) :
    ∃ n, Accepts insts flags text n s slots out := by
  induction path, slots, s using branch_induction insts flags text with
  | step path slots s ih =>
    cases hi : insts[s.1]? with
    | none =>
      rw [explore_of_none hi] at h
      cases h
    | some inst =>
      by_cases hp : s ∈ path
      · rw [explore_of_mem hi hp] at h
        cases h
      by_cases ha : inst = .accept
      · subst ha
        rw [explore_of_accept hi hp] at h
        cases h
        exact ⟨0, hi, rfl⟩
      by_cases hg : inst.GoesOn slots.length
      · rw [explore_eq hi hp hg] at h
        obtain ⟨t, ht, hfound⟩ := List.mem_map.mp (mem_of_firstOf h (by simp))
        obtain ⟨n, hn⟩ := ih inst hi hp t ht hfound
        exact ⟨n + 1, inst, hi, t, ht, hn⟩
      · obtain ⟨slot, rfl, hslot⟩ := Inst.eq_save_of_not_goesOn ha hg
        rw [explore_of_save hi hp hslot] at h
        cases h

/-! ## Where a branch does not fail -/

theorem Escapes.notMem (h : Escapes insts flags text path s) : s ∉ path := by
  cases h <;> assumption

/-- A walk that escapes goes on, after its last visit of `s`, without touching `s` again. -/
theorem Escapes.cut (h : Escapes insts flags text path t) (s : State) :
    Escapes insts flags text (s :: path) t ∨ insts[s.1]? = some .accept ∨
      ∃ u, Moves insts flags text s u ∧ Escapes insts flags text (s :: path) u := by
  induction h with
  | @accept t ht hi =>
    by_cases he : t = s
    · exact Or.inr (Or.inl (he ▸ hi))
    · refine Or.inl (.accept ?_ hi)
      rw [List.mem_cons, not_or]
      exact ⟨he, ht⟩
  | @step t u ht hm _ ih =>
    rcases ih with hu | hs
    · by_cases he : t = s
      · exact Or.inr (Or.inr ⟨u, he ▸ hm, hu⟩)
      · refine Or.inl (.step ?_ hm hu)
        rw [List.mem_cons, not_or]
        exact ⟨he, ht⟩
    · exact Or.inr hs

/-- A branch does not fail if some walk escapes from its path. -/
theorem explore_ne_fail_of_escapes (path : List State) (slots : Slots) (s : State)
    (h : Escapes insts flags text path s) : explore insts flags text path slots s ≠ .ok none := by
  induction path, slots, s using branch_induction insts flags text with
  | step path slots s ih =>
    -- a branch may not come back to `s`, so its walk is taken from the last visit on
    have hp := h.notMem
    rcases h.cut s with hs | hi | ⟨u, ⟨inst, hi, hu⟩, hescape⟩
    · exact absurd List.mem_cons_self hs.notMem
    · rw [explore_of_accept hi hp]
      simp
    · by_cases ha : inst = .accept
      · subst ha
        exact absurd hu List.not_mem_nil
      by_cases hg : inst.GoesOn slots.length
      · rw [explore_eq hi hp hg, ne_eq, firstOf_eq_fail_iff]
        intro hall
        exact ih inst hi hp u hu hescape (hall _ (List.mem_map.mpr ⟨u, hu, rfl⟩))
      · obtain ⟨slot, rfl, hslot⟩ := Inst.eq_save_of_not_goesOn ha hg
        rw [explore_of_save hi hp hslot]
        simp

/-- **A branch does not fail if some walk accepts.** -/
theorem explore_ne_fail (h : Relation.ReflTransGen (Moves insts flags text) s t)
    (ht : insts[t.1]? = some .accept) : explore insts flags text [] slots s ≠ .ok none := by
  refine explore_ne_fail_of_escapes [] slots s ?_
  induction h using Relation.ReflTransGen.head_induction_on with
  | refl => exact .accept List.not_mem_nil ht
  | head hm _ ih => exact .step List.not_mem_nil hm ih

end Walks

end Bytework.Pattern
