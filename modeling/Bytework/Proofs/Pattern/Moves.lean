import Bytework.Pattern.Search
import Mathlib.Data.Set.Insert

/-!
# Moves of a program

What an instruction does in a state, said once for all instructions, and one turn of a run in these
terms.

* `Inst.next`, `Inst.write`, `Inst.undo`: the states that follow, what is noted in the slots, and
  the frame that takes it back.
* **`run_attempt`**: an attempt at a state that has not been entered replaces its frame by attempts
  at the states that follow.
* `Marks.states`: the states that have been entered; `Marks.states_insert` for one more.
-/

namespace Bytework.Pattern

/-- An address of a program with a position of the text. -/
abbrev State := Nat × Nat

theorem lt_size_of_getElem? {α : Type} {a : Array α} {i : Nat} {x : α} (h : a[i]? = some x) :
    i < a.size := by
  obtain ⟨hi, -⟩ := Array.getElem?_eq_some_iff.mp h
  exact hi

theorem lt_size_of_reads {text : Array UInt8} {p : UInt8 → Bool} {sp : Nat}
    (h : text[sp]?.any p = true) : sp < text.size := by
  obtain ⟨b, hb, -⟩ := (Option.any_eq_true _ _).mp h
  exact lt_size_of_getElem? hb

namespace Inst

/-- The addresses at which a program can go on after an instruction at `pc`. -/
def targets (pc : Nat) : Inst → List Nat
  | .split x y => [x, y]
  | .jump x => [x]
  | .accept => []
  | _ => [pc + 1]

/-- The states that follow a state with the given instruction, the preferred one first. -/
def next (flags : Flags) (text : Array UInt8) (inst : Inst) (s : State) : List State :=
  match inst with
  | .split x y => [(x, s.2), (y, s.2)]
  | .jump x => [(x, s.2)]
  | .assertStart => if flags.atStart text s.2 then [(s.1 + 1, s.2)] else []
  | .assertStop => if flags.atStop text s.2 then [(s.1 + 1, s.2)] else []
  | .save _ => [(s.1 + 1, s.2)]
  | .accept => []
  | reader => if text[s.2]?.any (flags.reads reader) then [(s.1 + 1, s.2 + 1)] else []

/-- The slots after an instruction at position `sp`. -/
def write (sp : Nat) (inst : Inst) (slots : Slots) : Slots :=
  match inst with
  | .save slot => slots.set slot (some sp)
  | _ => slots

/-- The frame that takes back what an instruction notes in the slots. -/
def undo (inst : Inst) (slots : Slots) : List Frame :=
  match inst with
  | .save slot => (slots[slot]?).toList.map (.restore slot)
  | _ => []

/-- The slot in which an instruction notes the position. -/
def slot? : Inst → Option Nat
  | .save slot => some slot
  | _ => none

/-- An instruction that neither ends a search with a match nor misses its slot among `count`. -/
def GoesOn (count : Nat) (inst : Inst) : Prop :=
  inst ≠ .accept ∧ ∀ slot ∈ inst.slot?, slot < count

theorem eq_save_of_mem_slot? {inst : Inst} {slot : Nat} (h : slot ∈ inst.slot?) :
    inst = .save slot := by
  cases inst with
  | save slot' => rw [Option.some.inj h]
  | _ => exact absurd h (Option.not_mem_none _)

theorem eq_save_of_not_goesOn {count : Nat} {inst : Inst} (ha : inst ≠ .accept)
    (h : ¬ inst.GoesOn count) : ∃ slot, inst = .save slot ∧ count ≤ slot := by
  rw [GoesOn, not_and] at h
  obtain ⟨slot, hslot⟩ := not_forall.mp (h ha)
  obtain ⟨hmem, hle⟩ := Classical.not_imp.mp hslot
  exact ⟨slot, eq_save_of_mem_slot? hmem, Nat.not_lt.mp hle⟩

@[simp] theorem length_write (sp : Nat) (inst : Inst) (slots : Slots) :
    (inst.write sp slots).length = slots.length := by
  cases inst <;> simp [write]

variable {flags : Flags} {text : Array UInt8} {inst : Inst} {s t : State}

theorem fst_mem_targets (h : t ∈ inst.next flags text s) : t.1 ∈ inst.targets s.1 := by
  cases inst <;> simp only [next, targets, List.mem_cons, List.not_mem_nil, or_false] at h ⊢
  case split =>
    rcases h with rfl | rfl
    · exact Or.inl rfl
    · exact Or.inr rfl
  case jump => rw [h]
  case save => rw [h]
  all_goals
    split at h
    · rw [List.mem_singleton.mp h]
    · exact absurd h List.not_mem_nil

/-- A step stays at its position or reads the byte there. -/
theorem snd_of_mem_next (h : t ∈ inst.next flags text s) :
    t.2 = s.2 ∨ t.2 = s.2 + 1 ∧ s.2 < text.size := by
  cases inst <;> simp only [next, List.mem_cons, List.not_mem_nil, or_false] at h
  case split =>
    rcases h with rfl | rfl
    · exact Or.inl rfl
    · exact Or.inl rfl
  case jump => exact Or.inl (by rw [h])
  case save => exact Or.inl (by rw [h])
  case assertStart | assertStop =>
    split at h
    · exact Or.inl (by rw [List.mem_singleton.mp h])
    · exact absurd h List.not_mem_nil
  all_goals
    split at h
    · exact Or.inr ⟨by rw [List.mem_singleton.mp h], lt_size_of_reads (by assumption)⟩
    · exact absurd h List.not_mem_nil

theorem snd_le_of_mem_next (h : t ∈ inst.next flags text s) (hs : s.2 ≤ text.size) :
    t.2 ≤ text.size := by
  rcases snd_of_mem_next h with h | ⟨h, hlt⟩ <;> omega

end Inst

/-! ## One turn of a run -/

section Run

variable {insts : Array Inst} {flags : Flags} {text : Array UInt8} {marks : Marks} {slots : Slots}
  {stack : List Frame} {pc sp : Nat} {inst : Inst}

/-- The frame of an attempt at a state. -/
def State.attempt (s : State) : Frame := .attempt s.1 s.2

theorem run_nil : run insts flags text marks slots [] = .ok (none, marks) := by
  rw [run]

theorem run_restore (slot : Nat) (old : Option Nat) :
    run insts flags text marks slots (.restore slot old :: stack) =
      run insts flags text marks (slots.set slot old) stack := by
  rw [run]

theorem run_of_none (hpc : insts[pc]? = none) :
    run insts flags text marks slots (.attempt pc sp :: stack) = .error .malformedProgram := by
  rw [run, hpc]

theorem run_of_marked (hpc : insts[pc]? = some inst) (hm : marks.mem pc sp = true) :
    run insts flags text marks slots (.attempt pc sp :: stack) =
      run insts flags text marks slots stack := by
  rw [run, hpc]
  simp only [hm, dite_true]

theorem run_of_accept (hpc : insts[pc]? = some .accept) (hm : marks.mem pc sp = false) :
    run insts flags text marks slots (.attempt pc sp :: stack) =
      .ok (some slots, marks.insert pc sp) := by
  rw [run, hpc]
  simp [hm]

theorem run_of_save {slot : Nat} (hpc : insts[pc]? = some (.save slot))
    (hm : marks.mem pc sp = false) (hs : slots.length ≤ slot) :
    run insts flags text marks slots (.attempt pc sp :: stack) = .error .malformedProgram := by
  rw [run, hpc]
  simp [hm, List.getElem?_eq_none hs]

/-- **An attempt at a state that has not been entered** replaces its frame by attempts at the states
that follow. -/
theorem run_attempt (hpc : insts[pc]? = some inst) (hm : marks.mem pc sp = false)
    (hi : inst.GoesOn slots.length) :
    run insts flags text marks slots (.attempt pc sp :: stack) =
      run insts flags text (marks.insert pc sp) (inst.write sp slots)
        ((inst.next flags text (pc, sp)).map State.attempt ++ (inst.undo slots ++ stack)) := by
  rw [run, hpc]
  simp only [hm, Bool.false_eq_true, dite_false]
  cases inst with
  | accept => exact absurd rfl hi.1
  | save slot =>
    have hslot : slot < slots.length := hi.2 slot rfl
    simp [Inst.next, Inst.write, Inst.undo, State.attempt, hslot]
  | split x y => rfl
  | jump x => rfl
  | assertStart | assertStop =>
    simp only [Inst.next, Inst.write, Inst.undo]
    split <;> rfl
  | byte b | any | set ranges negated =>
    simp only [Inst.next, Inst.write, Inst.undo]
    split <;> rfl

end Run

/-! ## The states that have been entered -/

namespace Marks

/-- Marks for all states with one of `addresses` addresses and a position up to `last`. -/
structure Covers (m : Marks) (addresses last : Nat) : Prop where
  stride : m.stride = last + 1
  size : m.entered.size = addresses * (last + 1)

/-- The states that have been entered. -/
def states (m : Marks) : Set State :=
  {s | s.2 < m.stride ∧ m.entered[m.index s.1 s.2]? = some true}

variable {m : Marks} {addresses last : Nat}

theorem covers_new (addresses last : Nat) :
    (Marks.new addresses (last + 1)).Covers addresses last :=
  ⟨rfl, by simp [Marks.new]⟩

theorem Covers.insert (h : m.Covers addresses last) (pc sp : Nat) :
    (m.insert pc sp).Covers addresses last :=
  ⟨h.stride, by simp [Marks.insert, h.size]⟩

theorem index_insert (m : Marks) (pc sp pc' sp' : Nat) :
    (m.insert pc sp).index pc' sp' = m.index pc' sp' := rfl

theorem getElem?_insert (m : Marks) (pc sp i : Nat) :
    (m.insert pc sp).entered[i]? =
      if m.index pc sp = i ∧ i < m.entered.size then some true else m.entered[i]? := by
  rw [Marks.insert, Array.getElem?_setIfInBounds]
  by_cases h : m.index pc sp = i
  · subst h
    by_cases hlt : m.index pc sp < m.entered.size
    · simp [hlt]
    · simp [Nat.not_lt.mp hlt]
  · simp [h]

theorem states_new (addresses stride : Nat) : (Marks.new addresses stride).states = ∅ := by
  ext s
  simp [states, Marks.new, Array.getElem?_replicate]

theorem Covers.index_lt (h : m.Covers addresses last) {pc sp : Nat} (hpc : pc < addresses)
    (hsp : sp ≤ last) : m.index pc sp < m.entered.size := by
  rw [h.size, index, h.stride]
  calc pc * (last + 1) + sp < pc * (last + 1) + (last + 1) := by omega
    _ = (pc + 1) * (last + 1) := (Nat.succ_mul _ _).symm
    _ ≤ addresses * (last + 1) := Nat.mul_le_mul_right _ hpc

/-- Different states have different places. -/
theorem Covers.index_inj (h : m.Covers addresses last) {s t : State} (hs : s.2 ≤ last)
    (ht : t.2 ≤ last) (he : m.index s.1 s.2 = m.index t.1 t.2) : s = t := by
  rw [index, index, h.stride] at he
  have hs' : s.2 < last + 1 := by omega
  have ht' : t.2 < last + 1 := by omega
  have h₁ : s.1 = t.1 := by
    have := congrArg (· / (last + 1)) he
    simpa [Nat.add_comm _ s.2, Nat.add_comm _ t.2, Nat.add_mul_div_right, Nat.div_eq_of_lt hs',
      Nat.div_eq_of_lt ht'] using this
  refine Prod.ext h₁ ?_
  rw [h₁] at he
  omega

theorem Covers.mem_iff (h : m.Covers addresses last) {s : State} (hpc : s.1 < addresses)
    (hsp : s.2 ≤ last) : m.mem s.1 s.2 = true ↔ s ∈ m.states := by
  have hlt := h.index_lt hpc hsp
  have hstride : s.2 < m.stride := by rw [h.stride]; omega
  simp [mem, states, Array.getD_eq_getD_getElem?, Array.getElem?_eq_getElem hlt, hstride]

theorem Covers.states_insert (h : m.Covers addresses last) {s : State} (hpc : s.1 < addresses)
    (hsp : s.2 ≤ last) : (m.insert s.1 s.2).states = Set.insert s m.states := by
  have hlt := h.index_lt hpc hsp
  have hstride : s.2 < m.stride := by rw [h.stride]; omega
  ext t
  change t.2 < m.stride ∧ (m.insert s.1 s.2).entered[m.index t.1 t.2]? = some true ↔
    t = s ∨ t ∈ m.states
  rw [getElem?_insert]
  constructor
  · rintro ⟨htl, hmem⟩
    split at hmem
    · rename_i he
      rw [h.stride] at htl
      exact Or.inl (h.index_inj (Nat.le_of_lt_succ htl) hsp he.1.symm)
    · exact Or.inr ⟨htl, hmem⟩
  · rintro (rfl | ⟨htl, hmem⟩)
    · exact ⟨hstride, if_pos ⟨rfl, hlt⟩⟩
    · refine ⟨htl, ?_⟩
      split
      · rfl
      · exact hmem

end Marks

end Bytework.Pattern
