import Bytework.Proofs.Pattern.Layout

/-!
# The turns of a search

A search taken turn by turn, with every look at the text, the slots and the marks made in the open:
a place that does not exist ends it with a crash.

* `Machine`, `Turn`, `Machine.turn`: a search in progress and one turn of it.
* `Machine.turns`, `Machine.visits`: several turns, and the states that they evaluate.
* **`turn_safe`**: a turn of a well-formed program does not crash, comes closer to the end, and
  leaves the answer as it is.
* `nodup_visits`: no state is evaluated twice.
* **`search_of_compile`**: a compiled program is well-formed, and every search with it is safe.
-/

namespace Bytework.Pattern

/-- The positions of the text that an instruction looks at without asking whether they exist. -/
def Inst.looksAt (flags : Flags) (text : Array UInt8) (sp : Nat) : Inst → List Nat
  | .assertStart => if sp ≠ 0 ∧ flags.multiline = true then [sp - 1] else []
  | .assertStop => if sp ≠ text.size ∧ flags.multiline = true then [sp] else []
  | _ => []

/-- A search in progress. -/
structure Machine where
  marks : Marks
  slots : Slots
  stack : List Frame
  /-- The starts still to be tried. -/
  starts : List Nat

/-- What a turn comes to. -/
inductive Turn
  | goOn (m : Machine)
  | done (answer : Answer)
  /-- A place has been looked at that does not exist. -/
  | crash

namespace Machine

/-- A search before its first turn. -/
def start (p : Program) (flags : Flags) (text : Bytes) : Machine :=
  ⟨.new p.insts.size (text.length + 1), List.replicate p.slotCount none, [],
    flags.starts text.length⟩

/-- One turn. An empty stack makes way for the next start; a frame is taken off the stack, and an
attempt at a state that has not been entered evaluates its instruction. -/
def turn (p : Program) (flags : Flags) (text : Array UInt8) (m : Machine) : Turn :=
  match m.stack with
  | [] =>
    match m.starts with
    | [] => .done (.ok none)
    | start :: starts =>
      .goOn ⟨m.marks, List.replicate p.slotCount none, [.attempt 0 start], starts⟩
  | .restore slot old :: stack =>
    if slot < m.slots.length then .goOn { m with slots := m.slots.set slot old, stack := stack }
    else .crash
  | .attempt pc sp :: stack =>
    match p.insts[pc]? with
    | none => .done (.error .malformedProgram)
    | some inst =>
      match m.marks.entered[m.marks.index pc sp]? with
      | none => .crash
      | some true => .goOn { m with stack := stack }
      | some false =>
        if inst = .accept then .done (.ok (some m.slots))
        else if inst.slot?.any (m.slots.length ≤ ·) then .done (.error .malformedProgram)
        else if (inst.looksAt flags text sp).any (text.size ≤ ·) then .crash
        else
          .goOn ⟨m.marks.insert pc sp, inst.write sp m.slots,
            (inst.next flags text (pc, sp)).map State.attempt ++ (inst.undo m.slots ++ stack),
            m.starts⟩

/-- The state that the next turn evaluates: that of an attempt, unless it has been entered. -/
def entering? (m : Machine) : Option State :=
  match m.stack with
  | .attempt pc sp :: _ =>
    if m.marks.entered[m.marks.index pc sp]? = some false then some (pc, sp) else none
  | _ => none

variable (p : Program) (flags : Flags) (text : Array UInt8)

/-- What some turns come to. -/
def turns : Nat → Machine → Turn
  | 0, m => .goOn m
  | n + 1, m =>
    match m.turn p flags text with
    | .goOn m' => turns n m'
    | ended => ended

/-- The states that some turns evaluate, in order. -/
def visits : Nat → Machine → List State
  | 0, _ => []
  | n + 1, m =>
    m.entering?.toList ++
      match m.turn p flags text with
      | .goOn m' => visits n m'
      | _ => []

/-- The answer that a search in progress will have. -/
def answer (m : Machine) : Answer :=
  match run p.insts flags text m.marks m.slots m.stack with
  | .error e => .error e
  | .ok (some slots, _) => .ok (some slots)
  | .ok (none, marks) => searchFrom p flags text marks m.starts

/-- How many turns are left at most. -/
def left (m : Machine) : Nat := 2 * m.marks.free + m.stack.length + 2 * m.starts.length

/-- A frame that speaks of an address, a position and a slot that exist. -/
def FrameFits : Frame → Prop
  | .attempt pc sp => pc < p.insts.size ∧ sp ≤ text.size
  | .restore slot _ => slot < p.slotCount

/-- Everything in a search in progress exists. -/
structure Fits (m : Machine) : Prop where
  marks : m.marks.Covers p.insts.size text.size
  slots : m.slots.length = p.slotCount
  stack : ∀ frame ∈ m.stack, FrameFits p text frame
  starts : ∀ start ∈ m.starts, start ≤ text.size

variable {p flags text} {m m' : Machine}

/-! ## Safety -/

theorem looksAt_lt {inst : Inst} {sp : Nat} (hsp : sp ≤ text.size) :
    (inst.looksAt flags text sp).any (text.size ≤ ·) = false := by
  rw [List.any_eq_false]
  intro i hi
  cases inst with
  | assertStart | assertStop =>
    simp only [Inst.looksAt] at hi
    split at hi
    · rename_i h
      rw [List.mem_singleton.mp hi, decide_eq_true_eq]
      omega
    · exact absurd hi List.not_mem_nil
  | _ => exact absurd hi List.not_mem_nil

/-- The frames that an instruction puts on the stack fit. -/
theorem frameFits_of_next (hp : p.WellFormed) {inst : Inst} {s : State}
    (hi : p.insts[s.1]? = some inst) (hs : s.2 ≤ text.size) {slots : Slots} {frame : Frame}
    (h : frame ∈ (inst.next flags text s).map State.attempt ++ inst.undo slots) :
    FrameFits p text frame := by
  rcases List.mem_append.mp h with h | h
  · obtain ⟨t, ht, rfl⟩ := List.mem_map.mp h
    exact ⟨hp.fst_lt hi ht, Inst.snd_le_of_mem_next ht hs⟩
  · cases inst with
    | save slot =>
      obtain ⟨old, -, rfl⟩ := List.mem_map.mp h
      exact hp.slot_lt hi rfl
    | _ => exact absurd h List.not_mem_nil

variable (p flags text m) in
/-- The next turn ends with the answer, or goes on towards it. -/
def SafeTurn : Prop :=
  (∃ found, m.turn p flags text = .done (.ok found) ∧ m.answer p flags text = .ok found) ∨
    ∃ m', m.turn p flags text = .goOn m' ∧ m'.Fits p text ∧ m'.left < m.left ∧
      m'.answer p flags text = m.answer p flags text

/-- The turn to the next start. -/
theorem safeTurn_of_empty (hp : p.WellFormed) {marks : Marks} {slots : Slots} {starts : List Nat}
    (hm : Fits p text ⟨marks, slots, [], starts⟩) :
    SafeTurn p flags text ⟨marks, slots, [], starts⟩ := by
  cases starts with
  | nil => exact Or.inl ⟨none, rfl, by simp [answer, run_nil, searchFrom]⟩
  | cons start starts =>
    obtain ⟨hstart, hrest⟩ := List.forall_mem_cons.mp hm.starts
    refine Or.inr ⟨_, rfl, ⟨hm.marks, List.length_replicate, ?_, hrest⟩, ?_, ?_⟩
    · rintro frame hframe
      rw [List.mem_singleton.mp hframe]
      exact ⟨hp.nonempty, hstart⟩
    · simp only [left, List.length_cons, List.length_nil]
      omega
    · rcases hrun : run p.insts flags text marks (List.replicate p.slotCount none)
        [.attempt 0 start] with e | ⟨_ | found, marks'⟩ <;>
      simp only [answer, run_nil, searchFrom, hrun]

/-- The turn of an attempt at a state that has been entered. -/
theorem safeTurn_of_marked {marks : Marks} {slots : Slots} {stack : List Frame} {starts : List Nat}
    {pc sp : Nat} (hm : Fits p text ⟨marks, slots, .attempt pc sp :: stack, starts⟩)
    (hget : marks.entered[marks.index pc sp]? = some true) :
    SafeTurn p flags text ⟨marks, slots, .attempt pc sp :: stack, starts⟩ := by
  obtain ⟨hpc, hsp⟩ := hm.stack _ List.mem_cons_self
  have hi : p.insts[pc]? = some p.insts[pc] := Array.getElem?_eq_getElem hpc
  have hmem : marks.mem pc sp = true := by
    rw [Marks.mem, Array.getD_eq_getD_getElem?, hget, Option.getD_some]
  refine Or.inr ⟨⟨marks, slots, stack, starts⟩, by simp [turn, hi, hget],
    ⟨hm.marks, hm.slots, fun frame h => hm.stack frame (List.mem_cons_of_mem _ h), hm.starts⟩,
    by simp [left], ?_⟩
  rw [answer, answer, run_of_marked hi hmem]

/-- The turn of an attempt at a state that has not been entered. -/
theorem safeTurn_of_free (hp : p.WellFormed) {marks : Marks} {slots : Slots} {stack : List Frame}
    {starts : List Nat} {pc sp : Nat}
    (hm : Fits p text ⟨marks, slots, .attempt pc sp :: stack, starts⟩)
    (hget : marks.entered[marks.index pc sp]? = some false) :
    SafeTurn p flags text ⟨marks, slots, .attempt pc sp :: stack, starts⟩ := by
  obtain ⟨hpc, hsp⟩ := hm.stack _ List.mem_cons_self
  have hslots : slots.length = p.slotCount := hm.slots
  have hi : p.insts[pc]? = some p.insts[pc] := Array.getElem?_eq_getElem hpc
  have hmem : marks.mem pc sp = false := by
    rw [Marks.mem, Array.getD_eq_getD_getElem?, hget, Option.getD_some]
  by_cases ha : p.insts[pc] = .accept
  · refine Or.inl ⟨some slots, by simp [turn, hi, hget, ha], ?_⟩
    rw [answer, run_of_accept (ha ▸ hi) hmem]
  have hg : p.insts[pc].GoesOn slots.length :=
    ⟨ha, fun slot hslot => hslots ▸ hp.slot_lt hi hslot⟩
  have hany : p.insts[pc].slot?.any (slots.length ≤ ·) = false := by
    rw [Option.any_eq_false]
    intro slot hslot
    simpa using hg.2 slot hslot
  refine Or.inr ⟨⟨marks.insert pc sp, p.insts[pc].write sp slots,
    (p.insts[pc].next flags text (pc, sp)).map State.attempt ++
      (p.insts[pc].undo slots ++ stack), starts⟩, ?_,
    ⟨hm.marks.insert pc sp, by rw [Inst.length_write, hslots], ?_, hm.starts⟩, ?_, ?_⟩
  · simp only [turn, hi, hget, if_neg ha, hany, looksAt_lt hsp, Bool.false_eq_true, if_false]
  · intro frame hframe
    rw [← List.append_assoc] at hframe
    rcases List.mem_append.mp hframe with hframe | hframe
    · exact frameFits_of_next (s := (pc, sp)) hp hi hsp hframe
    · exact hm.stack frame (List.mem_cons_of_mem _ hframe)
  · have hless := Marks.free_insert hmem
    have htwo := Inst.length_next_add_undo_le flags text p.insts[pc] slots (pc, sp)
    simp only [left, List.length_append, List.length_map, List.length_cons]
    omega
  · rw [answer, answer, run_attempt hi hmem hg]

variable (flags) in
/-- **A turn of a well-formed program** ends with the answer, or goes on towards it; it does not
crash. -/
theorem turn_safe (hp : p.WellFormed) (hm : m.Fits p text) : SafeTurn p flags text m := by
  obtain ⟨marks, slots, stack, starts⟩ := m
  rcases stack with _ | ⟨⟨pc, sp⟩ | ⟨slot, old⟩, stack⟩
  · exact safeTurn_of_empty hp hm
  · obtain ⟨hpc, hsp⟩ := hm.stack _ List.mem_cons_self
    have hlt : marks.index pc sp < marks.entered.size := hm.marks.index_lt hpc hsp
    rcases hget : marks.entered[marks.index pc sp]? with _ | _ | _
    · exact absurd hlt (Nat.not_lt.mpr (Array.getElem?_eq_none_iff.mp hget))
    · exact safeTurn_of_free hp hm hget
    · exact safeTurn_of_marked hm hget
  · have hslots : slots.length = p.slotCount := hm.slots
    have hslot : slot < slots.length := hslots ▸ hm.stack _ List.mem_cons_self
    refine Or.inr ⟨⟨marks, slots.set slot old, stack, starts⟩, by simp [turn, hslot],
      ⟨hm.marks, by rw [List.length_set, hslots],
        fun frame h => hm.stack frame (List.mem_cons_of_mem _ h), hm.starts⟩, by simp [left], ?_⟩
    rw [answer, answer, run_restore]

variable (flags) in
/-- **A search of a well-formed program** ends with its answer after as many turns as are left. -/
theorem turns_eq_done (hp : p.WellFormed) (hm : m.Fits p text) :
    ∃ n ≤ m.left + 1, ∃ found, m.turns p flags text n = .done (.ok found) ∧
      m.answer p flags text = .ok found := by
  induction hk : m.left using Nat.strong_induction_on generalizing m with
  | _ k ih =>
    subst hk
    rcases turn_safe flags hp hm with ⟨found, hturn, hanswer⟩ | ⟨m', hturn, hm', hlt, heq⟩
    · exact ⟨1, by omega, found, by simp [turns, hturn], hanswer⟩
    · obtain ⟨n, hn, found, hturns, hanswer⟩ := ih m'.left hlt hm' rfl
      exact ⟨n + 1, by omega, found, by rw [turns, hturn]; exact hturns, heq ▸ hanswer⟩

/-! ## From the start -/

theorem fits_start (p : Program) (flags : Flags) (text : Bytes) :
    (start p flags text).Fits p text.toArray := by
  refine ⟨?_, List.length_replicate, fun frame h => absurd h List.not_mem_nil, fun sp h => ?_⟩
  · rw [List.size_toArray]
    exact Marks.covers_new _ _
  · rw [List.size_toArray]
    exact flags.le_of_mem_starts h

theorem length_starts_le (flags : Flags) (last : Nat) : (flags.starts last).length ≤ last + 1 := by
  unfold Flags.starts
  split
  · exact Nat.succ_le_succ (Nat.zero_le last)
  · rw [List.length_range]

theorem left_start_le (p : Program) (flags : Flags) (text : Bytes) :
    (start p flags text).left ≤ 2 * (p.insts.size + 1) * (text.length + 1) := by
  -- every state is entered once, and every start takes two turns besides
  have hstarts := length_starts_le flags text.length
  have hfree : (Marks.new p.insts.size (text.length + 1)).free =
      p.insts.size * (text.length + 1) := by simp [Marks.new, Marks.free]
  rw [left, start, hfree]
  calc 2 * (p.insts.size * (text.length + 1)) + 0 + 2 * (flags.starts text.length).length
      ≤ 2 * (p.insts.size * (text.length + 1) + (text.length + 1)) := by omega
    _ = 2 * ((p.insts.size + 1) * (text.length + 1)) := by rw [Nat.succ_mul p.insts.size]
    _ = 2 * (p.insts.size + 1) * (text.length + 1) := (Nat.mul_assoc ..).symm

theorem answer_start (p : Program) (flags : Flags) (text : Bytes) :
    (start p flags text).answer p flags text.toArray = search p flags text := by
  rw [answer, start, run_nil]
  rfl

/-! ## No state twice -/

/-- The search has entered a state. -/
def HasEntered (m : Machine) (s : State) : Prop :=
  m.marks.entered[m.marks.index s.1 s.2]? = some true

theorem getElem?_of_entering? {s : State} (h : m.entering? = some s) :
    m.marks.entered[m.marks.index s.1 s.2]? = some false := by
  unfold entering? at h
  split at h
  · split at h
    · cases h
      assumption
    · cases h
  · cases h

/-- The marks change only by the state that a turn evaluates. -/
theorem marks_of_turn (h : m.turn p flags text = .goOn m') :
    (m.entering? = none ∧ m'.marks = m.marks) ∨
      ∃ s, m.entering? = some s ∧ m'.marks = m.marks.insert s.1 s.2 := by
  unfold turn at h
  unfold entering?
  split at h <;> rename_i hstack <;> simp only [hstack]
  · split at h
    · cases h
    · cases h
      exact Or.inl ⟨trivial, rfl⟩
  · split at h
    · cases h
      exact Or.inl ⟨trivial, rfl⟩
    · cases h
  · split at h
    · cases h
    split at h <;> rename_i hget
    · cases h
    · cases h
      exact Or.inl ⟨by rw [hget]; rfl, rfl⟩
    · split at h
      · cases h
      split at h
      · cases h
      split at h
      · cases h
      · cases h
        exact Or.inr ⟨_, by rw [hget]; rfl, rfl⟩

theorem HasEntered.of_turn {s : State} (hs : m.HasEntered s) (h : m.turn p flags text = .goOn m') :
    m'.HasEntered s := by
  rcases marks_of_turn h with ⟨-, hmarks⟩ | ⟨t, -, hmarks⟩ <;> rw [HasEntered, hmarks]
  · exact hs
  · rw [Marks.index_insert, Marks.getElem?_insert]
    split
    · rfl
    · exact hs

theorem hasEntered_of_entering? {s : State} (hs : m.entering? = some s)
    (h : m.turn p flags text = .goOn m') : m'.HasEntered s := by
  rcases marks_of_turn h with ⟨hnone, -⟩ | ⟨t, ht, hmarks⟩
  · rw [hnone] at hs
    cases hs
  · obtain rfl : t = s := Option.some.inj (ht.symm.trans hs)
    have hlt := lt_size_of_getElem? (getElem?_of_entering? hs)
    rw [HasEntered, hmarks, Marks.index_insert, Marks.getElem?_insert, if_pos ⟨rfl, hlt⟩]

/-- What has been entered is not evaluated again. -/
theorem not_mem_visits {s : State} {n : Nat} (hs : m.HasEntered s) :
    s ∉ m.visits p flags text n := by
  induction n generalizing m with
  | zero => exact List.not_mem_nil
  | succ n ih =>
    rw [visits, List.mem_append, not_or]
    refine ⟨fun hmem => ?_, ?_⟩
    · rw [Option.mem_toList] at hmem
      cases hs.symm.trans (getElem?_of_entering? hmem)
    · split
      · rename_i m' hturn
        exact ih (hs.of_turn hturn)
      · exact List.not_mem_nil

/-- **No state is evaluated twice.** -/
theorem nodup_visits (n : Nat) (m : Machine) : (m.visits p flags text n).Nodup := by
  induction n generalizing m with
  | zero => exact List.nodup_nil
  | succ n ih =>
    rw [visits]
    cases hturn : m.turn p flags text with
    | goOn m' =>
      cases hs : m.entering? with
      | none => exact ih m'
      | some s =>
        exact List.nodup_cons.mpr ⟨not_mem_visits (hasEntered_of_entering? hs hturn), ih m'⟩
    | done | crash =>
      cases m.entering? <;> simp

end Machine

/-! ## Compiled programs -/

/-- **A compiled program is well-formed, and no search with it goes wrong**: the search ends with an
answer after a bounded number of turns, none of which crashes or evaluates a state again. -/
theorem search_of_compile {ungreedy : Bool} {pattern : Bytes} {p : Program}
    (h : compile ungreedy pattern = .ok p) :
    p.insts.size ≤ 65536 ∧ p.insts.back? = some .accept ∧
      (∀ pc, p.Holds pc .accept → pc + 1 = p.insts.size) ∧
      (∀ pc x y, p.Holds pc (.split x y) → x < p.insts.size ∧ y < p.insts.size) ∧
      (∀ pc x, p.Holds pc (.jump x) → x < p.insts.size) ∧
      (∀ pc slot, p.Holds pc (.save slot) → slot < p.slotCount) ∧
      ∀ flags text, ∃ n ≤ 2 * (p.insts.size + 1) * (text.length + 1) + 1, ∃ found,
        (Machine.start p flags text).turns p flags text.toArray n = .done (.ok found) ∧
        search p flags text = .ok found ∧
        ((Machine.start p flags text).visits p flags text.toArray n).Nodup := by
  obtain ⟨t, groups, -, ht, hframes⟩ := frames_of_compile h
  have hp : p.WellFormed := hframes.wellFormed ht
  refine ⟨hframes.size_le, ?_, fun pc => (hframes.accept_iff ht).mp, fun pc x y hi => ?_,
    fun pc x hi => ?_, fun pc slot hi => ?_, fun flags text => ?_⟩
  · rw [Array.back?_eq_getElem?]
    exact (hframes.accept_iff ht).mpr (Nat.sub_add_cancel hp.nonempty)
  · have hx : x ∈ (Inst.split x y).targets pc := List.mem_cons_self
    have hy : y ∈ (Inst.split x y).targets pc := List.mem_cons_of_mem x List.mem_cons_self
    exact ⟨hp.target_lt hi hx, hp.target_lt hi hy⟩
  · have hx : x ∈ (Inst.jump x).targets pc := List.mem_cons_self
    exact hp.target_lt hi hx
  · have hslot : slot ∈ (Inst.save slot).slot? := rfl
    exact hp.slot_lt hi hslot
  · obtain ⟨n, hn, found, hturns, hanswer⟩ :=
      Machine.turns_eq_done flags hp (Machine.fits_start p flags text)
    have hle := Machine.left_start_le p flags text
    rw [Machine.answer_start] at hanswer
    exact ⟨n, by omega, found, hturns, hanswer, Machine.nodup_visits n _⟩

theorem compile_nestedStar :
    compile false [40, 97, 42, 41, 42] = .ok nestedStar ∧
      ∃ found, search nestedStar ⟨false, false, false, false⟩ [97, 97] = .ok found := by
  have h : compile false [40, 97, 42, 41, 42] = .ok nestedStar := by cbv
  obtain ⟨-, -, -, -, -, -, hsearch⟩ := search_of_compile h
  obtain ⟨n, -, found, -, hfound, -⟩ := hsearch ⟨false, false, false, false⟩ [97, 97]
  exact ⟨h, found, hfound⟩

end Bytework.Pattern
