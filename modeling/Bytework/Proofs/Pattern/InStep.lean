import Bytework.Proofs.Pattern.Layout

/-!
# Searches in step

Two searches that find the same: the second program holds the code of the first some addresses
further on, and the second text is read like the first.

* `Inst.shift`: an instruction some addresses further on; `Inst.next_shift` for its steps.
* `Tree.emit_add`: the code of a tree laid out further on.
* `InStep`: what ties the two programs and the two texts; `inStep_of_alike` for one program on two
  texts, `inStep_of_codeBehind` for one tree behind more instructions.
* **`explore_inStep`**: branches from corresponding states have the same answer.
-/

namespace Bytework.Pattern

/-! ## Code further on -/

namespace Inst

/-- An instruction `k` addresses further on. -/
def shift (k : Nat) : Inst → Inst
  | .split x y => .split (x + k) (y + k)
  | .jump x => .jump (x + k)
  | inst => inst

theorem shift_split (k x y : Nat) : (Inst.split x y).shift k = .split (x + k) (y + k) := rfl

theorem shift_jump (k x : Nat) : (Inst.jump x).shift k = .jump (x + k) := rfl

theorem shift_zero (inst : Inst) : inst.shift 0 = inst := by cases inst <;> rfl

theorem shift_shift (j k : Nat) (inst : Inst) : (inst.shift j).shift k = inst.shift (j + k) := by
  cases inst <;> simp [shift, Nat.add_assoc]

theorem slot?_shift (k : Nat) (inst : Inst) : (inst.shift k).slot? = inst.slot? := by
  cases inst <;> rfl

theorem write_shift (k sp : Nat) (inst : Inst) (slots : Slots) :
    (inst.shift k).write sp slots = inst.write sp slots := by
  cases inst <;> rfl

theorem shift_eq_accept_iff {k : Nat} {inst : Inst} : inst.shift k = .accept ↔ inst = .accept := by
  cases inst <;> simp [shift]

theorem goesOn_shift_iff {k count : Nat} {inst : Inst} :
    (inst.shift k).GoesOn count ↔ inst.GoesOn count := by
  rw [GoesOn, GoesOn, slot?_shift, ne_eq, shift_eq_accept_iff]

theorem targets_shift (k pc : Nat) (inst : Inst) :
    (inst.shift k).targets (pc + k) = (inst.targets pc).map (· + k) := by
  cases inst <;> simp [shift, targets] <;> omega

end Inst

/-- A state `k` addresses further on. -/
def State.shift (k : Nat) (s : State) : State := (s.1 + k, s.2)

theorem State.shift_inj {k : Nat} {s t : State} : s.shift k = t.shift k ↔ s = t := by
  rw [State.shift, State.shift, Prod.mk.injEq, Nat.add_right_cancel_iff, ← Prod.ext_iff]

/-- The steps of an instruction further on are its steps further on. -/
theorem Inst.next_shift (k : Nat) (flags : Flags) (text : Array UInt8) (inst : Inst) (s : State) :
    (inst.shift k).next flags text (s.shift k) = (inst.next flags text s).map (State.shift k) := by
  have hstep : s.1 + k + 1 = s.1 + 1 + k := Nat.add_right_comm ..
  cases inst with
  | split x y | jump x | save slot | accept => simp [shift, next, State.shift, hstep]
  | assertStart | assertStop =>
    simp only [shift, next, State.shift, hstep]
    split <;> rfl
  | byte b | any | set ranges negated =>
    simp only [shift, next, State.shift, hstep]
    split <;> rfl

theorem Tree.shift_branch (k : Nat) (greedy : Bool) (x y : Nat) :
    (Tree.branch greedy x y).shift k = Tree.branch greedy (x + k) (y + k) := by
  cases greedy <;> rfl

/-- **The code of a tree laid out further on.** -/
theorem Tree.emit_add (ungreedy : Bool) (t : Tree) (pc k : Nat) :
    t.emit ungreedy (pc + k) = (t.emit ungreedy pc).map (Inst.shift k) := by
  induction t generalizing pc with
  | empty | byte | any | set | start | stop => rfl
  | group body index ih =>
    cases index with
    | none => exact ih pc
    | some i =>
      simp only [emit, List.map_cons, List.map_append, List.map_nil, ← ih]
      rw [Nat.add_right_comm pc 1]
      rfl
  | seq first second ih₁ ih₂ =>
    simp only [emit, List.map_append, ← ih₁, ← ih₂]
    rw [Nat.add_right_comm pc first.size]
  | alt left right ih₁ ih₂ =>
    simp only [emit, List.map_cons, List.map_append, ← ih₁, ← ih₂, Inst.shift_split,
      Inst.shift_jump]
    rw [show pc + k + left.size + 2 = pc + left.size + 2 + k by omega, Nat.add_right_comm pc 1,
      Nat.add_right_comm _ right.size]
  | rep body least most greedy ih =>
    have hcopies : ((List.range least).flatMap fun i => body.emit ungreedy (pc + k + i * body.size)) =
        ((List.range least).flatMap fun i => body.emit ungreedy (pc + i * body.size)).map
          (Inst.shift k) := by
      simp only [List.map_flatMap, ← ih, Nat.add_right_comm pc k]
    cases most with
    | none =>
      simp only [emit, List.map_cons, List.map_append, List.map_nil, ← ih, hcopies, shift_branch,
        Inst.shift_jump]
      rw [Nat.add_right_comm pc k, Nat.add_right_comm _ k 1, Nat.add_right_comm _ k body.size,
        Nat.add_right_comm _ k 2]
    | some most =>
      simp only [emit, List.map_append, hcopies, List.map_flatMap, List.map_cons, ← ih, shift_branch]
      simp only [Nat.add_right_comm _ k]

/-! ## Two searches -/

section InStep

variable (first k : Nat) (insts insts' : Array Inst) (flags flags' : Flags) (text text' : Array UInt8)

/-- From the address `first` on, the second program is the first one `k` addresses further on, and no
instruction there leads back before `first`; all instructions read the two texts alike. -/
structure InStep : Prop where
  code : ∀ pc, first ≤ pc → insts'[pc + k]? = insts[pc]?.map (Inst.shift k)
  inside : ∀ pc inst, first ≤ pc → insts[pc]? = some inst → ∀ t ∈ inst.targets pc, first ≤ t
  alike : ∀ (inst : Inst) s, inst.next flags' text' s = inst.next flags text s

variable {first k insts insts' flags flags' text text'}

/-- **Branches from corresponding states have the same answer**, with corresponding paths behind
them. -/
theorem explore_inStep (h : InStep first k insts insts' flags flags' text text')
    (path : List State) (slots : Slots) (s : State) {path' : List State} (hs : first ≤ s.1)
    (hpath : ∀ u : State, first ≤ u.1 → (u.shift k ∈ path' ↔ u ∈ path)) :
    explore insts' flags' text' path' slots (s.shift k) = explore insts flags text path slots s := by
  induction path, slots, s using branch_induction insts flags text generalizing path' with
  | step path slots s ih =>
    have hcode : insts'[(s.shift k).1]? = insts[s.1]?.map (Inst.shift k) := h.code s.1 hs
    cases hi : insts[s.1]? with
    | none =>
      rw [hi] at hcode
      rw [explore_of_none hi, explore_of_none hcode]
    | some inst =>
      rw [hi] at hcode
      change insts'[(s.shift k).1]? = some (inst.shift k) at hcode
      by_cases hp : s ∈ path
      · rw [explore_of_mem hi hp, explore_of_mem hcode ((hpath s hs).mpr hp)]
      have hp' : s.shift k ∉ path' := fun hmem => hp ((hpath s hs).mp hmem)
      by_cases ha : inst = .accept
      · subst ha
        rw [explore_of_accept hi hp, explore_of_accept hcode hp']
      by_cases hg : inst.GoesOn slots.length
      · rw [explore_eq hi hp hg, explore_eq hcode hp' (Inst.goesOn_shift_iff.mpr hg), h.alike,
          Inst.next_shift, Inst.write_shift, List.map_map]
        congr 1
        refine List.map_congr_left fun t ht => ?_
        refine ih inst hi hp t ht (h.inside s.1 inst hs hi t.1 (Inst.fst_mem_targets ht)) ?_
        intro u hu
        rw [List.mem_cons, List.mem_cons, State.shift_inj, hpath u hu]
      · obtain ⟨slot, rfl, hslot⟩ := Inst.eq_save_of_not_goesOn ha hg
        rw [explore_of_save hi hp hslot]
        exact explore_of_save hcode hp' hslot

theorem inStep_of_alike (insts : Array Inst)
    (h : ∀ (inst : Inst) s, inst.next flags' text' s = inst.next flags text s) :
    InStep 0 0 insts insts flags flags' text text' := by
  refine ⟨fun pc _ => ?_, fun _ _ _ _ _ _ => Nat.zero_le _, h⟩
  rw [Nat.add_zero, show Inst.shift 0 = id from funext Inst.shift_zero, Option.map_id, id]

/-- The end of every program. -/
def ending : List Inst := [.save 1, .accept]

/-- The code of a tree behind some instructions, up to the end of a program. -/
def codeBehind (ungreedy : Bool) (t : Tree) (before : List Inst) : Array Inst :=
  (before ++ (t.emit ungreedy before.length ++ ending)).toArray

theorem getElem?_codeBehind (ungreedy : Bool) (t : Tree) (before : List Inst) (i : Nat) :
    (codeBehind ungreedy t before)[before.length + i]? =
      (t.emit ungreedy 0 ++ ending)[i]?.map (Inst.shift before.length) := by
  have hending : ending = ending.map (Inst.shift before.length) := rfl
  have hcode : t.emit ungreedy before.length =
      (t.emit ungreedy 0).map (Inst.shift before.length) := by
    rw [← Tree.emit_add, Nat.zero_add]
  rw [codeBehind, List.getElem?_toArray, List.getElem?_append_right (Nat.le_add_right _ _),
    Nat.add_sub_cancel_left, hcode, hending, ← List.map_append, List.getElem?_map, ← hending]

/-- **One tree behind more instructions.** -/
theorem inStep_of_codeBehind (ungreedy : Bool) (t : Tree) (before before' : List Inst)
    (hk : before'.length = before.length + k)
    (h : ∀ (inst : Inst) s, inst.next flags' text' s = inst.next flags text s) :
    InStep before.length k (codeBehind ungreedy t before) (codeBehind ungreedy t before')
      flags flags' text text' := by
  refine ⟨fun pc hpc => ?_, fun pc inst hpc hi a ha => ?_, h⟩
  · obtain ⟨i, rfl⟩ := Nat.exists_eq_add_of_le hpc
    rw [show before.length + i + k = before'.length + i by omega, getElem?_codeBehind,
      getElem?_codeBehind, Option.map_map, hk]
    congr 1
    funext inst
    exact (Inst.shift_shift _ _ inst).symm
  · obtain ⟨i, rfl⟩ := Nat.exists_eq_add_of_le hpc
    rw [getElem?_codeBehind, Option.map_eq_some_iff] at hi
    obtain ⟨inst, -, rfl⟩ := hi
    rw [Nat.add_comm, Inst.targets_shift] at ha
    obtain ⟨a, -, rfl⟩ := List.mem_map.mp ha
    exact Nat.le_add_left _ _

end InStep

end Bytework.Pattern
