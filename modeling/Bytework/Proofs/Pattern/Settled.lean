import Bytework.Proofs.Pattern.Leftmost

/-!
# The branch that survives

Plain backtracking leaves all branches but one behind it. What the slots hold in the end was noted on
that branch, and by its last visit.

* `Settles`: the branch on which plain backtracking settles; **`explore_eq_some_iff`**,
  `Settles.unique`.
* `notes`: what a branch notes in the slots, in order; `Settles.slots_eq`.
* `Trail`: a branch without what has been tried beside it.
* **`getElem?_foldl_note`**: a slot holds the last position noted for it.
-/

namespace Bytework.Pattern

/-! ## The branch -/

section Settles

variable (insts : Array Inst) (flags : Flags) (text : Array UInt8)

/-- The branch on which plain backtracking settles, with the slots in the end: each state is followed
by its first successor that does not fail, until the program accepts. -/
inductive Settles : List State → Slots → State → List State → Slots → Prop
  | accept {path : List State} {slots : Slots} {s : State} (hs : s ∉ path)
      (hi : insts[s.1]? = some .accept) : Settles path slots s [s] slots
  | step {path : List State} {slots : Slots} {s : State} {inst : Inst} {before after : List State}
      {t : State} {branch : List State} {out : Slots} (hs : s ∉ path) (hi : insts[s.1]? = some inst)
      (hg : inst.GoesOn slots.length) (hnext : inst.next flags text s = before ++ t :: after)
      (hfail : ∀ u ∈ before,
        explore insts flags text (s :: path) (inst.write s.2 slots) u = .ok none)
      (ht : Settles (s :: path) (inst.write s.2 slots) t branch out) :
      Settles path slots s (s :: branch) out

variable {insts flags text} {path : List State} {slots out out' : Slots} {s : State}
  {branch branch' : List State}

/-- The slots of the branch are the answer. -/
theorem Settles.explore_eq (h : Settles insts flags text path slots s branch out) :
    explore insts flags text path slots s = .ok (some out) := by
  induction h with
  | accept hs hi => exact explore_of_accept hi hs
  | step hs hi hg hnext hfail _ ih =>
    have hbefore : firstOf (List.map (explore insts flags text _ _) _) = .ok none :=
      firstOf_eq_fail_iff.mpr (List.forall_mem_map.mpr hfail)
    rw [Pattern.explore_eq hi hs hg, hnext, List.map_append, firstOf_append, hbefore, List.map_cons,
      firstOf_cons, ih]
    rfl

/-- **Plain backtracking has an answer if it settles on a branch.** -/
theorem explore_eq_some_iff : explore insts flags text path slots s = .ok (some out) ↔
    ∃ branch, Settles insts flags text path slots s branch out := by
  refine ⟨fun h => ?_, fun ⟨_, h⟩ => h.explore_eq⟩
  induction path, slots, s using branch_induction insts flags text with
  | step path slots s ih =>
    cases hi : insts[s.1]? with
    | none =>
      rw [explore_of_none hi] at h
      cases h
    | some inst =>
      by_cases hp : s ∈ path
      · rw [explore_of_mem hi hp] at h
        cases h
      by_cases ha : inst = .accept
      · subst ha
        rw [explore_of_accept hi hp] at h
        cases h
        exact ⟨[s], .accept hp hi⟩
      by_cases hg : inst.GoesOn slots.length
      · rw [explore_eq hi hp hg] at h
        obtain ⟨before, t, after, hnext, ht, hfail⟩ := split_of_firstOf h
        have hmem : t ∈ inst.next flags text s := by
          rw [hnext]
          exact List.mem_append_right _ List.mem_cons_self
        obtain ⟨branch, hbranch⟩ := ih inst hi hp t hmem ht
        exact ⟨s :: branch, .step hp hi hg hnext hfail hbranch⟩
      · obtain ⟨slot, rfl, hslot⟩ := Inst.eq_save_of_not_goesOn ha hg
        rw [explore_of_save hi hp hslot] at h
        cases h

/-- The first element without a property stands at one place only. -/
theorem eq_of_append_cons {α : Type} {P : α → Prop} {before before' after after' : List α} {a a' : α}
    (h : before ++ a :: after = before' ++ a' :: after') (hbefore : ∀ b ∈ before, P b)
    (hbefore' : ∀ b ∈ before', P b) (ha : ¬ P a) (ha' : ¬ P a') : a = a' := by
  induction before generalizing before' with
  | nil =>
    cases before' with
    | nil => exact (List.cons.inj h).1
    | cons b before' =>
      rw [List.nil_append, List.cons_append] at h
      exact absurd ((List.cons.inj h).1 ▸ hbefore' b List.mem_cons_self) ha
  | cons b before ih =>
    cases before' with
    | nil =>
      rw [List.nil_append, List.cons_append] at h
      exact absurd ((List.cons.inj h).1 ▸ hbefore b List.mem_cons_self) ha'
    | cons b' before' =>
      rw [List.cons_append, List.cons_append] at h
      exact ih (List.cons.inj h).2 (fun c hc => hbefore c (List.mem_cons_of_mem _ hc))
        fun c hc => hbefore' c (List.mem_cons_of_mem _ hc)

/-- It settles on one branch only. -/
theorem Settles.unique (h : Settles insts flags text path slots s branch out)
    (h' : Settles insts flags text path slots s branch' out') : branch = branch' := by
  induction h generalizing branch' with
  | accept hs hi =>
    cases h' with
    | accept => rfl
    | step _ hi' hg =>
      cases hi.symm.trans hi'
      exact absurd rfl hg.1
  | step hs hi hg hnext hfail ht ih =>
    cases h' with
    | accept _ hi' =>
      cases hi.symm.trans hi'
      exact absurd rfl hg.1
    | step _ hi' _ hnext' hfail' ht' =>
      cases hi.symm.trans hi'
      obtain rfl := eq_of_append_cons (hnext.symm.trans hnext') hfail hfail'
        (by rw [ht.explore_eq]; simp) (by rw [ht'.explore_eq]; simp)
      rw [ih ht']

end Settles

/-! ## What a branch notes -/

section Notes

variable (insts : Array Inst)

/-- What an instruction notes in a state: the slot and the position. -/
def noteAt (s : State) : Option (Nat × Nat) := (insts[s.1]?.bind Inst.slot?).map fun slot => (slot, s.2)

/-- What a branch notes in the slots, in order. -/
def notes (branch : List State) : List (Nat × Nat) := branch.filterMap (noteAt insts)

/-- The slots with one more note. -/
def Slots.note (slots : Slots) (e : Nat × Nat) : Slots := slots.set e.1 (some e.2)

variable {insts} {s : State} {inst : Inst} {branch branch' : List State}

theorem notes_append (branch branch' : List State) :
    notes insts (branch ++ branch') = notes insts branch ++ notes insts branch' :=
  List.filterMap_append ..

theorem notes_cons_save {slot : Nat} (hi : insts[s.1]? = some (.save slot)) :
    notes insts (s :: branch) = (slot, s.2) :: notes insts branch := by
  refine List.filterMap_cons_some ?_
  rw [noteAt, hi]
  rfl

theorem notes_cons_plain (hi : insts[s.1]? = some inst) (hslot : inst.slot? = none) :
    notes insts (s :: branch) = notes insts branch := by
  refine List.filterMap_cons_none ?_
  rw [noteAt, hi, Option.bind_some, hslot, Option.map_none]

variable {flags : Flags} {text : Array UInt8} {path : List State} {slots out : Slots}

/-- The slots in the end are what the branch has noted. -/
theorem Settles.slots_eq (h : Settles insts flags text path slots s branch out) :
    out = (notes insts branch).foldl Slots.note slots := by
  induction h with
  | accept hs hi =>
    rw [notes_cons_plain hi rfl]
    rfl
  | @step path slots s inst before after t branch out hs hi hg hnext hfail ht ih =>
    rw [ih]
    cases inst with
    | save slot =>
      rw [notes_cons_save hi]
      rfl
    | _ =>
      rw [notes_cons_plain hi rfl]
      rfl

theorem Settles.length_eq (h : Settles insts flags text path slots s branch out) :
    out.length = slots.length := by
  induction h with
  | accept => rfl
  | step _ _ _ _ _ _ ih => rw [ih, Inst.length_write]

/-- **A slot holds the last position noted for it**, and otherwise what it held before. -/
theorem getElem?_foldl_note (ns : List (Nat × Nat)) (slots : Slots) (slot : Nat) :
    (ns.foldl Slots.note slots)[slot]? = slots[slot]?.map fun old =>
      (((ns.filter (·.1 = slot)).getLast?).map Prod.snd).or old := by
  induction ns generalizing slots with
  | nil => simp
  | cons e ns ih =>
    rw [List.foldl_cons, ih, Slots.note, List.getElem?_set]
    by_cases he : e.1 = slot
    · subst he
      by_cases hlt : e.1 < slots.length
      · simp [hlt, List.getLast?_cons]
      · simp [hlt]
    · rw [if_neg he, List.filter_cons_of_neg (by simpa using he)]

end Notes

/-! ## Trails -/

section Trail

variable (insts : Array Inst) (flags : Flags) (text : Array UInt8)

/-- A branch from a state, whatever has been tried beside it. -/
inductive Trail : State → List State → Prop
  | accept {s : State} (hi : insts[s.1]? = some .accept) : Trail s [s]
  | step {s t : State} {branch : List State} (hm : Moves insts flags text s t)
      (ht : Trail t branch) : Trail s (s :: branch)

variable {insts flags text} {path : List State} {slots out : Slots} {s : State} {inst : Inst}
  {branch : List State}

theorem Settles.trail (h : Settles insts flags text path slots s branch out) :
    Trail insts flags text s branch := by
  induction h with
  | accept _ hi => exact .accept hi
  | step _ hi _ hnext _ _ ih =>
    refine .step ⟨_, hi, ?_⟩ ih
    rw [hnext]
    exact List.mem_append_right _ List.mem_cons_self

/-- The first step of a trail, unless it is over. -/
theorem Trail.next (h : Trail insts flags text s branch) (hi : insts[s.1]? = some inst)
    (ha : inst ≠ .accept) : ∃ t ∈ inst.next flags text s, ∃ rest, branch = s :: rest ∧
      Trail insts flags text t rest := by
  cases h with
  | accept hi' => exact absurd (Option.some.inj (hi.symm.trans hi')) ha
  | step hm ht =>
    obtain ⟨inst', hi', hnext⟩ := hm
    obtain rfl : inst' = inst := Option.some.inj (hi'.symm.trans hi)
    exact ⟨_, hnext, _, rfl, ht⟩

theorem Trail.eq_of_accept (h : Trail insts flags text s branch) (hi : insts[s.1]? = some .accept) :
    branch = [s] := by
  cases h with
  | accept => rfl
  | step hm =>
    obtain ⟨inst, hi', hnext⟩ := hm
    obtain rfl : inst = .accept := Option.some.inj (hi'.symm.trans hi)
    exact absurd hnext List.not_mem_nil

end Trail

end Bytework.Pattern
