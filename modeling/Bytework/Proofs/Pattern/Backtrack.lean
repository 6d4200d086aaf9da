import Bytework.Proofs.Pattern.Moves
import Mathlib.Data.Finset.Prod

/-!
# Plain backtracking

A search without marks: each branch carries its own slots and its own path, and is abandoned only
where a state repeats on that path.

* `explore`: the answer of a branch; `backtrack`: from each start in turn.
* `Sealed`: the states that have been entered and left lead only to such states.
* **`explore_of_sealed`**: a branch that arrives at one of them fails.
* **`run_agrees`**: a run gives the first answer of the branches that its stack stands for.
-/

namespace Bytework.Pattern

/-- The slots of a match, if there is one. -/
abbrev Answer := Except SearchError (Option Slots)

/-- The answer of the first branch, and if that fails of the second. -/
def orElse (first second : Answer) : Answer :=
  match first with
  | .ok none => second
  | found => found

/-- The answer of the first branch that does not fail. -/
def firstOf (answers : List Answer) : Answer := answers.foldr orElse (.ok none)

@[simp] theorem firstOf_nil : firstOf [] = .ok none := rfl

@[simp] theorem firstOf_cons (a : Answer) (answers : List Answer) :
    firstOf (a :: answers) = orElse a (firstOf answers) := rfl

@[simp] theorem orElse_fail_left (a : Answer) : orElse (.ok none) a = a := rfl

@[simp] theorem orElse_fail_right (a : Answer) : orElse a (.ok none) = a := by
  rcases a with e | _ | slots <;> rfl

theorem orElse_assoc (a b c : Answer) : orElse (orElse a b) c = orElse a (orElse b c) := by
  rcases a with e | _ | slots <;> rfl

theorem firstOf_append (as bs : List Answer) :
    firstOf (as ++ bs) = orElse (firstOf as) (firstOf bs) := by
  induction as with
  | nil => rfl
  | cons a as ih => rw [List.cons_append, firstOf_cons, firstOf_cons, ih, orElse_assoc]

theorem firstOf_eq_fail_iff {answers : List Answer} :
    firstOf answers = .ok none ↔ ∀ a ∈ answers, a = .ok none := by
  induction answers with
  | nil => simp
  | cons a answers ih =>
    rw [firstOf_cons, List.forall_mem_cons, ← ih]
    rcases a with e | _ | slots <;> simp [orElse]

/-- An answer other than failure is the answer of one of the branches. -/
theorem mem_of_firstOf {answers : List Answer} {a : Answer} (h : firstOf answers = a)
    (ha : a ≠ .ok none) : a ∈ answers := by
  induction answers with
  | nil => exact absurd h.symm ha
  | cons b answers ih =>
    rw [firstOf_cons] at h
    rcases b with e | _ | slots
    · exact List.mem_cons.mpr (Or.inl h.symm)
    · exact List.mem_cons_of_mem _ (ih h)
    · exact List.mem_cons.mpr (Or.inl h.symm)

theorem firstOf_ok {answers : List Answer} (h : ∀ a ∈ answers, ∃ found, a = .ok found) :
    ∃ found, firstOf answers = .ok found := by
  rcases ha : firstOf answers with e | found
  · obtain ⟨found, hf⟩ := h _ (mem_of_firstOf ha (by simp))
    cases hf
  · exact ⟨found, rfl⟩

/-! ## One branch -/

/-- How many states with positions up to `last` are not on a path. -/
def room (addresses last : Nat) (path : List State) : Nat :=
  ((Finset.range addresses ×ˢ Finset.range (last + 1)).filter (· ∉ path)).card

theorem room_cons_lt {addresses last : Nat} {path : List State} {s : State} (hpc : s.1 < addresses)
    (hsp : s.2 ≤ last) (hs : s ∉ path) :
    room addresses last (s :: path) < room addresses last path := by
  refine Finset.card_lt_card (Finset.ssubset_iff_of_subset ?_ |>.mpr ⟨s, ?_, ?_⟩)
  · intro t ht
    rw [Finset.mem_filter, List.mem_cons, not_or] at ht
    exact Finset.mem_filter.mpr ⟨ht.1, ht.2.2⟩
  · rw [Finset.mem_filter, Finset.mem_product, Finset.mem_range, Finset.mem_range]
    exact ⟨⟨hpc, Nat.lt_succ_of_le hsp⟩, hs⟩
  · simp

/-- The answer of the branch that arrives in a state along a path, with slots of its own. -/
def explore (insts : Array Inst) (flags : Flags) (text : Array UInt8) (path : List State)
    (slots : Slots) (s : State) : Answer :=
  if _hi : s.1 < insts.size then
    if _hp : s ∈ path then .ok none
    else
      match insts[s.1] with
      | .split x y =>
        orElse (explore insts flags text (s :: path) slots (x, s.2))
          (explore insts flags text (s :: path) slots (y, s.2))
      | .jump x => explore insts flags text (s :: path) slots (x, s.2)
      | .assertStart =>
        if flags.atStart text s.2 then explore insts flags text (s :: path) slots (s.1 + 1, s.2)
        else .ok none
      | .assertStop =>
        if flags.atStop text s.2 then explore insts flags text (s :: path) slots (s.1 + 1, s.2)
        else .ok none
      | .save slot =>
        if slot < slots.length then
          explore insts flags text (s :: path) (slots.set slot (some s.2)) (s.1 + 1, s.2)
        else .error .malformedProgram
      | .accept => .ok (some slots)
      | reader =>
        if _hr : text[s.2]?.any (flags.reads reader) then
          explore insts flags text (s :: path) slots (s.1 + 1, s.2 + 1)
        else .ok none
  else .error .malformedProgram
termination_by room insts.size (max s.2 text.size) path
decreasing_by
  all_goals have hlt := room_cons_lt _hi (Nat.le_max_left s.2 text.size) _hp
  any_goals exact hlt
  have hsp := lt_size_of_reads _hr
  rwa [show max (s.2 + 1) text.size = max s.2 text.size by omega]

section Branches

variable {insts : Array Inst} {flags : Flags} {text : Array UInt8} {path : List State}
  {slots : Slots} {s : State} {inst : Inst}

theorem explore_of_none (hi : insts[s.1]? = none) :
    explore insts flags text path slots s = .error .malformedProgram := by
  rw [explore, dif_neg (Nat.not_lt.mpr (Array.getElem?_eq_none_iff.mp hi))]

theorem explore_of_mem (hi : insts[s.1]? = some inst) (hp : s ∈ path) :
    explore insts flags text path slots s = .ok none := by
  rw [explore, dif_pos (lt_size_of_getElem? hi), dif_pos hp]

theorem explore_of_accept (hi : insts[s.1]? = some .accept) (hp : s ∉ path) :
    explore insts flags text path slots s = .ok (some slots) := by
  obtain ⟨hlt, he⟩ := Array.getElem?_eq_some_iff.mp hi
  rw [explore, dif_pos hlt, dif_neg hp, he]

theorem explore_of_save {slot : Nat} (hi : insts[s.1]? = some (.save slot)) (hp : s ∉ path)
    (hs : slots.length ≤ slot) :
    explore insts flags text path slots s = .error .malformedProgram := by
  obtain ⟨hlt, he⟩ := Array.getElem?_eq_some_iff.mp hi
  rw [explore, dif_pos hlt, dif_neg hp, he]
  exact if_neg (Nat.not_lt.mpr hs)

/-- A branch goes on as its first successor that does not fail. -/
theorem explore_eq (hi : insts[s.1]? = some inst) (hp : s ∉ path) (hg : inst.GoesOn slots.length) :
    explore insts flags text path slots s = firstOf ((inst.next flags text s).map
      (explore insts flags text (s :: path) (inst.write s.2 slots))) := by
  obtain ⟨hlt, he⟩ := Array.getElem?_eq_some_iff.mp hi
  rw [explore, dif_pos hlt, dif_neg hp, he]
  cases inst with
  | accept => exact absurd rfl hg.1
  | save slot => simp [Inst.next, Inst.write, hg.2 slot rfl]
  | split x y | jump x => simp [Inst.next, Inst.write]
  | assertStart | assertStop =>
    simp only [Inst.next, Inst.write]
    split <;> simp
  | byte b | any | set ranges negated =>
    simp only [Inst.next, Inst.write]
    split <;> simp

theorem room_next_lt {t : State} (hi : insts[s.1]? = some inst) (hp : s ∉ path)
    (ht : t ∈ inst.next flags text s) :
    room insts.size (max t.2 text.size) (s :: path) < room insts.size (max s.2 text.size) path := by
  have hlt := room_cons_lt (lt_size_of_getElem? hi) (Nat.le_max_left s.2 text.size) hp
  have hle := Inst.snd_of_mem_next ht
  rwa [show max t.2 text.size = max s.2 text.size by omega]

variable (insts flags text) in
/-- What holds of the successors of every branch holds of every branch. -/
theorem branch_induction {motive : List State → Slots → State → Prop}
    (step : ∀ path slots s, (∀ inst, insts[s.1]? = some inst → s ∉ path →
      ∀ t ∈ inst.next flags text s, motive (s :: path) (inst.write s.2 slots) t) →
      motive path slots s) (path : List State) (slots : Slots) (s : State) :
    motive path slots s := by
  induction hn : room insts.size (max s.2 text.size) path using Nat.strong_induction_on
    generalizing path slots s with
  | _ n ih =>
    subst hn
    exact step path slots s fun inst hi hp t ht => ih _ (room_next_lt hi hp ht) _ _ _ rfl

end Branches

/-! ## States that lead nowhere -/

section Sealed

variable (insts : Array Inst) (flags : Flags) (text : Array UInt8) (count : Nat)

/-- A state from which the search goes on, and only to states with the property. -/
def LeadsInto (S : State → Prop) (s : State) : Prop :=
  ∃ inst, insts[s.1]? = some inst ∧ inst.GoesOn count ∧ ∀ t ∈ inst.next flags text s, S t

/-- Whatever has been entered and is not on the path leads only to states that have been entered or
are still to be tried `above`. -/
def Sealed (marked : Set State) (above path : List State) : Prop :=
  ∀ s ∈ marked, s ∉ path →
    LeadsInto insts flags text count (fun t => t ∈ marked ∨ t ∈ above) s

/-- What is left of a branch. -/
structure Branch where
  path : List State
  slots : Slots
  state : State

/-- The answer of a branch. -/
def Branch.answer (b : Branch) : Answer := explore insts flags text b.path b.slots b.state

/-- The marks fit the branches in wait: each path has been entered, and is sealed once the states
above it have failed. -/
def Consistent (marked : Set State) : List State → List Branch → Prop
  | above, [] => Sealed insts flags text count marked above []
  | above, b :: branches =>
    ((∀ s ∈ b.path, s ∈ marked) ∧ b.slots.length = count ∧ b.state.2 ≤ text.size ∧
      Sealed insts flags text count marked above b.path) ∧
    Consistent marked (b.state :: above) branches

variable {insts flags text count} {marked marked' : Set State} {above above' path : List State}

theorem LeadsInto.mono {S T : State → Prop} {s : State} (h : LeadsInto insts flags text count S s)
    (hST : ∀ t, S t → T t) : LeadsInto insts flags text count T s := by
  obtain ⟨inst, hi, hg, hn⟩ := h
  exact ⟨inst, hi, hg, fun t ht => hST t (hn t ht)⟩

theorem Sealed.grow (h : Sealed insts flags text count marked above path)
    (hsub : marked ⊆ marked') (habove : ∀ t ∈ above, t ∈ marked' ∨ t ∈ above')
    (hnew : ∀ s ∈ marked', s ∉ marked → s ∉ path →
      LeadsInto insts flags text count (fun t => t ∈ marked' ∨ t ∈ above') s) :
    Sealed insts flags text count marked' above' path := by
  intro s hs hp
  by_cases hm : s ∈ marked
  · exact (h s hm hp).mono fun t ht => ht.elim (fun ht => Or.inl (hsub ht)) (habove t)
  · exact hnew s hs hm hp

theorem Consistent.grow {branches : List Branch}
    (h : Consistent insts flags text count marked above branches) (hsub : marked ⊆ marked')
    (habove : ∀ t ∈ above, t ∈ marked' ∨ t ∈ above')
    (hnew : ∀ s ∈ marked', s ∉ marked →
      LeadsInto insts flags text count (fun t => t ∈ marked' ∨ t ∈ above') s) :
    Consistent insts flags text count marked' above' branches := by
  induction branches generalizing above above' with
  | nil => exact Sealed.grow h hsub habove fun s hs hm _ => hnew s hs hm
  | cons b branches ih =>
    obtain ⟨⟨hpath, hlen, hpos, hsealed⟩, hrest⟩ := h
    refine ⟨⟨fun s hs => hsub (hpath s hs), hlen, hpos,
      hsealed.grow hsub habove fun s hs hm _ => hnew s hs hm⟩, ih hrest ?_ ?_⟩
    · intro t ht
      rcases List.mem_cons.mp ht with rfl | ht
      · exact Or.inr List.mem_cons_self
      · exact (habove t ht).imp_right (List.mem_cons_of_mem _)
    · intro s hs hm
      exact (hnew s hs hm).mono fun t ht => ht.imp_right (List.mem_cons_of_mem _)

theorem Consistent.tail {b : Branch} {branches : List Branch}
    (h : Consistent insts flags text count marked [] (b :: branches)) (hb : b.state ∈ marked) :
    Consistent insts flags text count marked [] branches := by
  refine h.2.grow subset_rfl (fun t ht => Or.inl ?_) fun s hs hm => absurd hs hm
  rwa [List.mem_singleton.mp ht]

/-- **Entering a state.** The marks fit the branches to the successors and the other branches. -/
theorem Consistent.enter {b : Branch} {branches : List Branch} {inst : Inst}
    (h : Consistent insts flags text count marked [] (b :: branches))
    (hi : insts[b.state.1]? = some inst) (hg : inst.GoesOn count) :
    Consistent insts flags text count (Set.insert b.state marked) []
      ((inst.next flags text b.state).map
        (Branch.mk (b.state :: b.path) (inst.write b.state.2 b.slots)) ++ branches) := by
  obtain ⟨⟨hpath, hlen, hpos, hsealed⟩, hrest⟩ := h
  have hsub : marked ⊆ Set.insert b.state marked := Set.subset_insert _ _
  -- `us` are the successors still to be listed, `above` those that have been
  suffices hind : ∀ us above : List State, (∀ t ∈ us, t.2 ≤ text.size) →
      (∀ t ∈ inst.next flags text b.state, t ∈ above ∨ t ∈ us) →
      Consistent insts flags text count (Set.insert b.state marked) above
        (us.map (Branch.mk (b.state :: b.path) (inst.write b.state.2 b.slots)) ++ branches) from
    hind _ [] (fun t ht => Inst.snd_le_of_mem_next ht hpos) fun t ht => Or.inr ht
  intro us
  induction us with
  | nil =>
    intro above _ hnext
    refine hrest.grow hsub ?_ ?_
    · intro t ht
      exact Or.inl (Or.inl (List.mem_singleton.mp ht))
    · intro s hs hm
      obtain rfl : s = b.state := hs.resolve_right hm
      exact ⟨inst, hi, hg, fun t ht => Or.inr ((hnext t ht).resolve_right List.not_mem_nil)⟩
  | cons u us ih =>
    intro above hle hnext
    refine ⟨⟨?_, by rw [Inst.length_write, hlen], hle u List.mem_cons_self, ?_⟩, ih _ ?_ ?_⟩
    · intro s hs
      exact (List.mem_cons.mp hs).imp_right (hpath s)
    · intro s hs hp
      rw [List.mem_cons, not_or] at hp
      exact (hsealed s (hs.resolve_left hp.1) hp.2).mono fun t ht =>
        Or.inl (Or.inr (ht.resolve_right List.not_mem_nil))
    · exact fun t ht => hle t (List.mem_cons_of_mem _ ht)
    · intro t ht
      rcases hnext t ht with ht | ht
      · exact Or.inl (List.mem_cons_of_mem _ ht)
      · rcases List.mem_cons.mp ht with rfl | ht
        · exact Or.inl List.mem_cons_self
        · exact Or.inr ht

/-- **A branch that arrives at a state that has been entered fails**, if what has been entered off
its path is sealed. -/
theorem explore_of_sealed (hm : ∀ s ∈ marked, s.1 < insts.size) (path : List State) (slots : Slots)
    (s : State) (h : Sealed insts flags text count marked [] path) (hs : s ∈ marked)
    (hl : slots.length = count) : explore insts flags text path slots s = .ok none := by
  induction path, slots, s using branch_induction insts flags text with
  | step path slots s ih =>
    -- off the path, the state leads only to states that have been entered, with `s` on their path
    by_cases hp : s ∈ path
    · exact explore_of_mem (Array.getElem?_eq_getElem (hm s hs)) hp
    obtain ⟨inst, hi, hg, hn⟩ := h s hs hp
    rw [explore_eq hi hp (hl ▸ hg), firstOf_eq_fail_iff]
    intro a ha
    obtain ⟨t, ht, rfl⟩ := List.mem_map.mp ha
    refine ih inst hi hp t ht (fun u hu hpu => ?_) ?_ (by rw [Inst.length_write, hl])
    · exact h u hu fun hu' => hpu (List.mem_cons_of_mem _ hu')
    · exact (hn t ht).resolve_right List.not_mem_nil

end Sealed

/-! ## Runs -/

/-- The branches that a stack stands for: an attempt has the slots that are left when the frames
above it have been dealt with. -/
inductive Pending : Slots → List Frame → List Branch → Prop
  | nil {slots : Slots} : Pending slots [] []
  | attempt {slots : Slots} {stack : List Frame} {branches : List Branch} (path : List State)
      (s : State) (h : Pending slots stack branches) :
      Pending slots (s.attempt :: stack) (⟨path, slots, s⟩ :: branches)
  | restore {slots : Slots} {stack : List Frame} {branches : List Branch} {slot : Nat}
      {old : Option Nat} (h : Pending (slots.set slot old) stack branches) :
      Pending slots (.restore slot old :: stack) branches

theorem Pending.attempts {slots : Slots} {stack : List Frame} {branches : List Branch}
    (h : Pending slots stack branches) (path : List State) (states : List State) :
    Pending slots (states.map State.attempt ++ stack)
      (states.map (Branch.mk path slots) ++ branches) := by
  induction states with
  | nil => exact h
  | cons s states ih => exact .attempt path s ih

/-- The frame that an instruction leaves on the stack gives the other branches their slots back. -/
theorem Pending.undo {slots : Slots} {stack : List Frame} {branches : List Branch}
    (h : Pending slots stack branches) {inst : Inst} (hg : inst.GoesOn slots.length) (sp : Nat) :
    Pending (inst.write sp slots) (inst.undo slots ++ stack) branches := by
  cases inst with
  | save slot =>
    have hslot := hg.2 slot rfl
    rw [Inst.undo, List.getElem?_eq_getElem hslot]
    refine .restore ?_
    rwa [Inst.write, List.set_set, List.set_getElem_self]
  | _ => exact h

section Run

variable {insts : Array Inst} {flags : Flags} {text : Array UInt8}

/-- The outcome of a run is an answer, and if that is failure its marks are sealed. -/
def Agrees (insts : Array Inst) (flags : Flags) (text : Array UInt8) (count : Nat)
    (outcome : Outcome) (answer : Answer) : Prop :=
  outcome.map (·.1) = answer ∧ ∀ marks, outcome = .ok (none, marks) →
    marks.Covers insts.size text.size ∧ Sealed insts flags text count marks.states [] []

theorem Marks.Covers.fst_lt {m : Marks} {addresses last : Nat} (h : m.Covers addresses last)
    {s : State} (hs : s ∈ m.states) : s.1 < addresses := by
  have hlt := lt_size_of_getElem? hs.2
  rw [h.size, Marks.index, h.stride] at hlt
  exact Nat.lt_of_mul_lt_mul_right (lt_of_le_of_lt (Nat.le_add_right _ _) hlt)

theorem Inst.length_next_add_undo_le (flags : Flags) (text : Array UInt8) (inst : Inst)
    (slots : Slots) (s : State) :
    (inst.next flags text s).length + (inst.undo slots).length ≤ 2 := by
  cases inst with
  | save slot =>
    simp only [Inst.next, Inst.undo, List.length_map, List.length_singleton]
    cases slots[slot]? <;> simp
  | split x y | jump x | accept => simp [Inst.next, Inst.undo]
  | assertStart | assertStop | byte b | any | set ranges negated =>
    simp only [Inst.next, Inst.undo]
    split <;> simp

/-- **A run gives the first answer of the branches that its stack stands for.** -/
theorem run_agrees {count : Nat} {marks : Marks} {slots : Slots} {stack : List Frame}
    {branches : List Branch} (hm : marks.Covers insts.size text.size)
    (hb : Pending slots stack branches)
    (hc : Consistent insts flags text count marks.states [] branches) :
    Agrees insts flags text count (run insts flags text marks slots stack)
      (firstOf (branches.map (Branch.answer insts flags text))) := by
  -- the measure by which a run terminates: entering a state takes up one mark for two frames
  induction hn : 2 * marks.free + stack.length using Nat.strong_induction_on
    generalizing marks slots stack branches with
  | _ n ih =>
    subst hn
    cases hb with
    | nil =>
      rw [run_nil]
      refine ⟨rfl, fun marks' he => ?_⟩
      cases he
      exact ⟨hm, hc⟩
    | @restore _ stack _ slot old hb =>
      rw [run_restore]
      exact ih _ (by simp) hm hb hc rfl
    | @attempt _ stack branches path s hb =>
      obtain ⟨hpath, hlen, hpos, hsealed⟩ := hc.1
      rw [List.map_cons, firstOf_cons, Branch.answer, State.attempt]
      cases hi : insts[s.1]? with
      | none =>
        rw [run_of_none hi, explore_of_none hi]
        exact ⟨rfl, fun marks' he => by cases he⟩
      | some inst =>
        have hpc := lt_size_of_getElem? hi
        have hmem := hm.mem_iff hpc hpos
        by_cases hs : s ∈ marks.states
        · have hfails : explore insts flags text path slots s = .ok none :=
            explore_of_sealed (fun t ht => hm.fst_lt ht) path slots s hsealed hs hlen
          rw [run_of_marked hi (hmem.mpr hs), hfails, orElse_fail_left]
          exact ih _ (by simp) hm hb (hc.tail hs) rfl
        have hfree : marks.mem s.1 s.2 = false := by rwa [← Bool.not_eq_true, hmem]
        have hp : s ∉ path := fun h => hs (hpath s h)
        by_cases ha : inst = .accept
        · subst ha
          rw [run_of_accept hi hfree, explore_of_accept hi hp]
          exact ⟨rfl, fun marks' he => by cases he⟩
        by_cases hg : inst.GoesOn slots.length
        · have hless := Marks.free_insert hfree
          have htwo := Inst.length_next_add_undo_le flags text inst slots s
          have hwait := (hb.undo hg s.2).attempts (s :: path) (inst.next flags text s)
          rw [run_attempt hi hfree hg, explore_eq hi hp hg]
          have := ih _ (by simp; omega) (hm.insert s.1 s.2) hwait
            (by rw [hm.states_insert hpc hpos]; exact hc.enter hi (hlen ▸ hg)) rfl
          rwa [List.map_append, firstOf_append, List.map_map] at this
        · obtain ⟨slot, rfl, hslot⟩ := Inst.eq_save_of_not_goesOn ha hg
          rw [run_of_save hi hfree hslot, explore_of_save hi hp hslot]
          exact ⟨rfl, fun marks' he => by cases he⟩

end Run

/-! ## Searches -/

/-- The positions at which a match may start, in the order in which they are tried. -/
def Flags.starts (flags : Flags) (last : Nat) : List Nat :=
  if flags.anchored then [0] else List.range (last + 1)

theorem Flags.le_of_mem_starts {flags : Flags} {last start : Nat} (h : start ∈ flags.starts last) :
    start ≤ last := by
  unfold starts at h
  split at h
  · rw [List.mem_singleton.mp h]
    exact Nat.zero_le _
  · exact Nat.le_of_lt_succ (List.mem_range.mp h)

/-- The answer of plain backtracking from one start, with nothing noted. -/
def backtrackFrom (p : Program) (flags : Flags) (text : Bytes) (start : Nat) : Answer :=
  explore p.insts flags text.toArray [] (List.replicate p.slotCount none) (0, start)

/-- The answer of plain backtracking, the leftmost start first. -/
def backtrack (p : Program) (flags : Flags) (text : Bytes) : Answer :=
  firstOf ((flags.starts text.length).map (backtrackFrom p flags text))

/-- The marks that earlier starts have left behind change no answer. -/
theorem searchFrom_eq (p : Program) (flags : Flags) (text : Bytes) {marks : Marks}
    (hm : marks.Covers p.insts.size text.length)
    (hs : Sealed p.insts flags text.toArray p.slotCount marks.states [] []) (starts : List Nat)
    (hle : ∀ start ∈ starts, start ≤ text.length) :
    searchFrom p flags text.toArray marks starts =
      firstOf (starts.map (backtrackFrom p flags text)) := by
  induction starts generalizing marks with
  | nil => rfl
  | cons start starts ih =>
    have hpos : start ≤ text.toArray.size := by simpa using hle start List.mem_cons_self
    have hc : Consistent p.insts flags text.toArray p.slotCount marks.states []
        [⟨[], List.replicate p.slotCount none, (0, start)⟩] := by
      refine ⟨⟨fun s h => absurd h List.not_mem_nil, List.length_replicate, hpos, hs⟩, ?_⟩
      exact hs.grow subset_rfl (fun t ht => absurd ht List.not_mem_nil) fun s h hn => absurd h hn
    have hrun := run_agrees (by simpa using hm) (.attempt [] (0, start) .nil) hc
    obtain ⟨hanswer, hleft⟩ := hrun
    rw [List.map_singleton, firstOf_cons, firstOf_nil, orElse_fail_right] at hanswer
    rw [searchFrom, List.map_cons, firstOf_cons, backtrackFrom]
    change Except.map _ (run _ _ _ _ _ [.attempt 0 start]) = explore _ _ _ _ _ _ at hanswer
    change ∀ marks', run _ _ _ _ _ [.attempt 0 start] = _ → _ at hleft
    rw [← hanswer]
    rcases hr : run p.insts flags text.toArray marks (List.replicate p.slotCount none)
      [.attempt 0 start] with e | ⟨_ | slots, marks'⟩
    · rfl
    · obtain ⟨hm', hs'⟩ := hleft marks' hr
      exact ih (by simpa using hm') hs' fun t ht => hle t (List.mem_cons_of_mem _ ht)
    · rfl

theorem search_eq (p : Program) (flags : Flags) (text : Bytes) :
    search p flags text = backtrack p flags text := by
  refine searchFrom_eq p flags text (Marks.covers_new _ _) ?_ _ fun _ h => flags.le_of_mem_starts h
  rw [Marks.states_new]
  exact fun s hs => absurd hs (Set.notMem_empty s)

/-! ## Well-formed programs -/

/-- A program whose every step leads to one of its addresses and whose every slot exists. -/
structure Program.WellFormed (p : Program) : Prop where
  nonempty : 0 < p.insts.size
  targets : ∀ pc (h : pc < p.insts.size), ∀ t ∈ p.insts[pc].targets pc, t < p.insts.size
  slots : ∀ inst ∈ p.insts.toList, ∀ slot ∈ inst.slot?, slot < p.slotCount

namespace Program.WellFormed

variable {p : Program} {flags : Flags} {text : Array UInt8}

theorem target_lt (hp : p.WellFormed) {inst : Inst} {pc t : Nat} (hi : p.insts[pc]? = some inst)
    (ht : t ∈ inst.targets pc) : t < p.insts.size := by
  obtain ⟨hlt, rfl⟩ := Array.getElem?_eq_some_iff.mp hi
  exact hp.targets pc hlt t ht

theorem fst_lt (hp : p.WellFormed) {inst : Inst} {s t : State} (hi : p.insts[s.1]? = some inst)
    (ht : t ∈ inst.next flags text s) : t.1 < p.insts.size :=
  hp.target_lt hi (Inst.fst_mem_targets ht)

theorem slot_lt (hp : p.WellFormed) {inst : Inst} {pc slot : Nat} (hi : p.insts[pc]? = some inst)
    (hs : slot ∈ inst.slot?) : slot < p.slotCount := by
  obtain ⟨hlt, rfl⟩ := Array.getElem?_eq_some_iff.mp hi
  exact hp.slots _ (Array.getElem_mem_toList hlt) slot hs

/-- No branch of a well-formed program runs into an error. -/
theorem explore_ok (hp : p.WellFormed) (path : List State) (slots : Slots) (s : State)
    (hs : s.1 < p.insts.size) (hl : slots.length = p.slotCount) :
    ∃ found, explore p.insts flags text path slots s = .ok found := by
  induction path, slots, s using branch_induction p.insts flags text with
  | step path slots s ih =>
    have hi : p.insts[s.1]? = some p.insts[s.1] := Array.getElem?_eq_getElem hs
    by_cases hpath : s ∈ path
    · exact ⟨none, explore_of_mem hi hpath⟩
    by_cases ha : p.insts[s.1] = .accept
    · exact ⟨some slots, explore_of_accept (ha ▸ hi) hpath⟩
    have hg : p.insts[s.1].GoesOn slots.length := ⟨ha, fun slot h => hl ▸ hp.slot_lt hi h⟩
    rw [explore_eq hi hpath hg]
    refine firstOf_ok fun a h => ?_
    obtain ⟨t, ht, rfl⟩ := List.mem_map.mp h
    exact ih _ hi hpath t ht (hp.fst_lt hi ht) (by rw [Inst.length_write, hl])

theorem backtrackFrom_ok (hp : p.WellFormed) (flags : Flags) (text : Bytes) (start : Nat) :
    ∃ found, backtrackFrom p flags text start = .ok found :=
  hp.explore_ok _ _ _ hp.nonempty List.length_replicate

theorem backtrack_ok (hp : p.WellFormed) (flags : Flags) (text : Bytes) :
    ∃ found, backtrack p flags text = .ok found := by
  refine firstOf_ok fun a h => ?_
  obtain ⟨start, -, rfl⟩ := List.mem_map.mp h
  exact hp.backtrackFrom_ok flags text start

end Program.WellFormed

/-- **A search with marks is plain backtracking**, whatever the program, the flags and the text; and
on a well-formed program it has an answer. -/
theorem search_eq_backtrack (p : Program) (flags : Flags) (text : Bytes) :
    search p flags text = backtrack p flags text ∧
      (p.WellFormed → ∃ found, backtrack p flags text = .ok found) :=
  ⟨search_eq p flags text, fun hp => hp.backtrack_ok flags text⟩

/-- The program of `(a*)*`, a loop whose body may be empty. -/
def nestedStar : Program :=
  ⟨#[.save 0, .split 2 8, .save 2, .split 4 6, .byte 97, .jump 3, .save 3, .jump 1, .save 1,
    .accept], 1⟩

theorem backtrack_nestedStar :
    nestedStar.WellFormed ∧ backtrack nestedStar ⟨false, false, false, false⟩ [97, 97] =
      .ok (some [some 0, some 2, some 0, some 2]) := by
  have hp : nestedStar.WellFormed := ⟨by decide, by decide, by decide⟩
  obtain ⟨heq, hok⟩ := search_eq_backtrack nestedStar ⟨false, false, false, false⟩ [97, 97]
  obtain ⟨found, hfound⟩ := hok hp
  have hsearch : search nestedStar ⟨false, false, false, false⟩ [97, 97] =
      .ok (some [some 0, some 2, some 0, some 2]) := by cbv
  rw [heq, hfound] at hsearch
  exact ⟨hp, hfound.trans hsearch⟩

end Bytework.Pattern
