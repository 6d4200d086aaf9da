import Bytework.Pattern.Regex
import Bytework.Proofs.Pattern.Backtrack
import Bytework.Proofs.Pattern.Generated
import Bytework.Proofs.Pattern.Parsed

/-!
# The layout of a program

Where the instructions of a tree lie, node by node, and what follows for whole programs.

* `AllAt`: a property of every instruction of a piece of code at its address; `Laid` for the code of
  a tree, with one lemma `laid_…` for each node that has parts.
* `laid_inside`: the instructions of a tree lead to its own addresses or the one after them, and
  note positions in the slots of its groups.
* **`wellFormed_of_compile`**: a compiled program is well-formed.
-/

namespace Bytework.Pattern

/-- Every instruction of a piece of code laid out from an address on has a property there. -/
def AllAt (P : Nat → Inst → Prop) : Nat → List Inst → Prop
  | _, [] => True
  | pc, inst :: code => P pc inst ∧ AllAt P (pc + 1) code

section AllAt

variable {P : Nat → Inst → Prop} {pc : Nat}

theorem allAt_append {code code' : List Inst} :
    AllAt P pc (code ++ code') ↔ AllAt P pc code ∧ AllAt P (pc + code.length) code' := by
  induction code generalizing pc with
  | nil => simp [AllAt]
  | cons inst code ih =>
    rw [List.cons_append, AllAt, ih, AllAt, and_assoc, List.length_cons, Nat.add_right_comm pc 1,
      Nat.add_assoc pc]

theorem allAt_iff_getElem? {code : List Inst} :
    AllAt P pc code ↔ ∀ k inst, code[k]? = some inst → P (pc + k) inst := by
  induction code generalizing pc with
  | nil => simp [AllAt]
  | cons inst code ih =>
    rw [AllAt, ih]
    constructor
    · rintro ⟨hfirst, hrest⟩ k inst' hk
      cases k with
      | zero =>
        cases hk
        exact hfirst
      | succ k =>
        rw [show pc + (k + 1) = pc + 1 + k by omega]
        exact hrest k inst' hk
    · intro h
      refine ⟨h 0 inst rfl, fun k inst' hk => ?_⟩
      rw [show pc + 1 + k = pc + (k + 1) by omega]
      exact h (k + 1) inst' hk

/-- Blocks of equal width, one after the other. -/
theorem allAt_blocks {block : Nat → List Inst} (width : Nat)
    (hw : ∀ i, (block i).length = width) (n : Nat) :
    AllAt P pc ((List.range n).flatMap block) ↔ ∀ i < n, AllAt P (pc + i * width) (block i) := by
  induction n with
  | zero => simp [AllAt]
  | succ n ih =>
    have hlen : ((List.range n).flatMap block).length = n * width := by
      simp only [List.length_flatMap, hw, List.map_const', List.length_range, List.sum_replicate_nat]
    rw [List.range_succ, List.flatMap_append, allAt_append, ih, List.flatMap_singleton, hlen]
    constructor
    · rintro ⟨hbelow, hlast⟩ i hi
      rcases Nat.lt_succ_iff_lt_or_eq.mp hi with hi | rfl
      · exact hbelow i hi
      · exact hlast
    · exact fun h => ⟨fun i hi => h i (Nat.lt_succ_of_lt hi), h n (Nat.lt_succ_self n)⟩

theorem allAt_toArray (code : List Inst) :
    AllAt (fun pc inst => code.toArray[pc]? = some inst) 0 code := by
  rw [allAt_iff_getElem?]
  intro k inst hk
  rwa [Nat.zero_add, List.getElem?_toArray]

end AllAt

/-! ## The code of a tree -/

section Laid

variable (P : Nat → Inst → Prop) (ungreedy : Bool)

/-- Every instruction of a tree laid out from an address on has a property there. -/
def Laid (t : Tree) (pc : Nat) : Prop := AllAt P pc (t.emit ungreedy pc)

variable {P ungreedy} {pc : Nat}

theorem laid_group {body : Tree} {i : Nat} :
    Laid P ungreedy (.group body (some i)) pc ↔ P pc (.save (2 * i + 2)) ∧
      Laid P ungreedy body (pc + 1) ∧ P (pc + 1 + body.size) (.save (2 * i + 3)) := by
  simp [Laid, Tree.emit, AllAt, allAt_append]

theorem laid_seq {first second : Tree} :
    Laid P ungreedy (.seq first second) pc ↔
      Laid P ungreedy first pc ∧ Laid P ungreedy second (pc + first.size) := by
  simp [Laid, Tree.emit, allAt_append]

theorem laid_alt {left right : Tree} :
    Laid P ungreedy (.alt left right) pc ↔ P pc (.split (pc + 1) (pc + left.size + 2)) ∧
      Laid P ungreedy left (pc + 1) ∧
      P (pc + 1 + left.size) (.jump (pc + left.size + 2 + right.size)) ∧
      Laid P ungreedy right (pc + left.size + 2) := by
  simp only [Laid, Tree.emit, AllAt, allAt_append, Tree.length_emit]
  rw [show pc + 1 + left.size + 1 = pc + left.size + 2 by omega]

theorem laid_copies {body : Tree} {n : Nat} :
    AllAt P pc ((List.range n).flatMap fun i => body.emit ungreedy (pc + i * body.size)) ↔
      ∀ i < n, Laid P ungreedy body (pc + i * body.size) :=
  allAt_blocks body.size (fun _ => Tree.length_emit ..) n

theorem length_copies {body : Tree} {n : Nat} :
    ((List.range n).flatMap fun i => body.emit ungreedy (pc + i * body.size)).length =
      n * body.size := by
  simp only [List.length_flatMap, Tree.length_emit, List.map_const', List.length_range,
    List.sum_replicate_nat]

theorem laid_loop {body : Tree} {least loop : Nat} {greedy : Bool}
    (hloop : loop = pc + least * body.size) :
    Laid P ungreedy (.rep body least none greedy) pc ↔
      (∀ i < least, Laid P ungreedy body (pc + i * body.size)) ∧
      P loop (Tree.branch (greedy != ungreedy) (loop + 1) (loop + body.size + 2)) ∧
      Laid P ungreedy body (loop + 1) ∧ P (loop + 1 + body.size) (.jump loop) := by
  subst hloop
  simp only [Laid, Tree.emit, allAt_append, laid_copies, length_copies, AllAt, Tree.length_emit,
    and_true]

theorem laid_options {body : Tree} {least most first out : Nat} {greedy : Bool}
    (hfirst : first = pc + least * body.size)
    (hout : out = first + (most - least) * (body.size + 1)) :
    Laid P ungreedy (.rep body least (some most) greedy) pc ↔
      (∀ i < least, Laid P ungreedy body (pc + i * body.size)) ∧
      ∀ i < most - least,
        P (first + i * (body.size + 1)) (Tree.branch (greedy != ungreedy)
          (first + i * (body.size + 1) + 1) out) ∧
        Laid P ungreedy body (first + i * (body.size + 1) + 1) := by
  subst hfirst hout
  rw [Laid, Tree.emit, allAt_append, laid_copies, length_copies,
    allAt_blocks (body.size + 1) fun i => by simp]
  rfl

end Laid

/-! ## Where the code of a tree leads -/

/-- An instruction that does not accept, leads to no address after `last`, and notes positions in
the slots of the groups only. -/
structure Inst.Inside (groups last pc : Nat) (inst : Inst) : Prop where
  ne_accept : inst ≠ .accept
  targets : ∀ t ∈ inst.targets pc, t ≤ last
  slot : ∀ slot ∈ inst.slot?, 2 ≤ slot ∧ slot < 2 * (groups + 1)

section Inside

variable {groups last pc : Nat}

theorem Inst.inside_plain {inst : Inst} (ha : inst ≠ .accept) (ht : inst.targets pc = [pc + 1])
    (hs : inst.slot? = none) (h : pc + 1 ≤ last) : inst.Inside groups last pc := by
  refine ⟨ha, fun t hmem => ?_, fun slot hmem => ?_⟩
  · rw [ht, List.mem_singleton] at hmem
    rwa [hmem]
  · rw [hs] at hmem
    exact absurd hmem (Option.not_mem_none slot)

theorem Inst.inside_save {slot : Nat} (hs : 2 ≤ slot ∧ slot < 2 * (groups + 1))
    (h : pc + 1 ≤ last) : (Inst.save slot).Inside groups last pc := by
  refine ⟨Inst.noConfusion, fun t hmem => ?_, fun slot' hmem => ?_⟩
  · rwa [List.mem_singleton.mp hmem]
  · rwa [← Option.some.inj hmem]

theorem Inst.inside_jump {x : Nat} (h : x ≤ last) : (Inst.jump x).Inside groups last pc := by
  refine ⟨Inst.noConfusion, fun t hmem => ?_,
    fun slot hmem => absurd hmem (Option.not_mem_none slot)⟩
  rwa [List.mem_singleton.mp hmem]

theorem Inst.inside_split {x y : Nat} (hx : x ≤ last) (hy : y ≤ last) :
    (Inst.split x y).Inside groups last pc := by
  refine ⟨Inst.noConfusion, fun t hmem => ?_,
    fun slot hmem => absurd hmem (Option.not_mem_none slot)⟩
  rcases List.mem_pair.mp hmem with rfl | rfl
  · exact hx
  · exact hy

theorem Inst.inside_branch {greedy : Bool} {x y : Nat} (hx : x ≤ last) (hy : y ≤ last) :
    (Tree.branch greedy x y).Inside groups last pc := by
  cases greedy with
  | true => exact Inst.inside_split hx hy
  | false => exact Inst.inside_split hy hx

theorem block_end_le {i n : Nat} (width : Nat) (hi : i < n) : i * width + width ≤ n * width :=
  calc i * width + width = (i + 1) * width := (Nat.succ_mul i width).symm
    _ ≤ n * width := Nat.mul_le_mul_right width hi

theorem block_succ (pc width i : Nat) :
    pc + (i + 1) * (width + 1) = pc + 1 + width + i * (width + 1) := by
  rw [Nat.succ_mul]
  omega

/-- **The code of a tree stays inside.** -/
theorem laid_inside {ungreedy : Bool} {t : Tree} (ht : t.WellFormed groups)
    (h : pc + t.size ≤ last) :
    Laid (fun pc inst => inst.Inside groups last pc) ungreedy t pc := by
  induction t generalizing pc with
  | empty => trivial
  | byte | any | set | start | stop =>
    exact ⟨Inst.inside_plain Inst.noConfusion rfl rfl h, trivial⟩
  | group body index ih =>
    cases index with
    | none => exact ih ht.2 h
    | some i =>
      have hi : i < groups := ht.1 i rfl
      simp only [Tree.size] at h
      exact laid_group.mpr ⟨Inst.inside_save (by omega) (by omega), ih ht.2 (by omega),
        Inst.inside_save (by omega) (by omega)⟩
  | seq first second ih₁ ih₂ =>
    simp only [Tree.size] at h
    exact laid_seq.mpr ⟨ih₁ ht.1 (by omega), ih₂ ht.2 (by omega)⟩
  | alt left right ih₁ ih₂ =>
    simp only [Tree.size] at h
    exact laid_alt.mpr ⟨Inst.inside_split (by omega) (by omega), ih₁ ht.1 (by omega),
      Inst.inside_jump (by omega), ih₂ ht.2 (by omega)⟩
  | rep body least most greedy ih =>
    have hcopy : ∀ i < least, pc + least * body.size ≤ last →
        Laid (fun pc inst => inst.Inside groups last pc) ungreedy body (pc + i * body.size) := by
      intro i hi hle
      have := block_end_le body.size hi
      exact ih ht.2 (by omega)
    cases most with
    | none =>
      simp only [Tree.size] at h
      refine (laid_loop rfl).mpr ⟨fun i hi => hcopy i hi (by omega), ?_, ih ht.2 (by omega), ?_⟩
      · exact Inst.inside_branch (by omega) (by omega)
      · exact Inst.inside_jump (by omega)
    | some most =>
      simp only [Tree.size] at h
      refine (laid_options rfl rfl).mpr ⟨fun i hi => hcopy i hi (by omega), fun i hi => ?_⟩
      have := block_end_le (body.size + 1) hi
      exact ⟨Inst.inside_branch (by omega) (by omega), ih ht.2 (by omega)⟩

end Inside

/-! ## Whole programs -/

/-- A program holds an instruction at an address. -/
def Program.Holds (p : Program) (pc : Nat) (inst : Inst) : Prop := p.insts[pc]? = some inst

/-- A program is the code of a tree between the marks of the whole match. -/
structure Program.Frames (p : Program) (ungreedy : Bool) (t : Tree) (groups : Nat) : Prop where
  groups_eq : p.groups = groups
  size_eq : p.insts.size = t.size + 3
  size_le : p.insts.size ≤ maxProgram
  first : p.Holds 0 (.save 0)
  body : Laid p.Holds ungreedy t 1
  last : p.Holds (t.size + 1) (.save 1)
  accept : p.Holds (t.size + 2) .accept

theorem frames_of_ofTree? {ungreedy : Bool} {t : Tree} {groups : Nat} {p : Program}
    (h : Program.ofTree? ungreedy t groups = some p) : p.Frames ungreedy t groups := by
  rw [Program.ofTree?_eq] at h
  split at h
  · rename_i hsize
    cases h
    have hall := allAt_toArray (.save 0 :: (t.emit ungreedy 1 ++ [.save 1, .accept]))
    simp only [AllAt, allAt_append, Tree.length_emit, and_true, Nat.zero_add] at hall
    obtain ⟨hfirst, hbody, hlast, haccept⟩ := hall
    rw [Nat.add_comm 1] at hlast haccept
    have hlen : (.save 0 :: (t.emit ungreedy 1 ++ [.save 1, .accept])).toArray.size =
        t.size + 3 := by simp
    exact ⟨rfl, hlen, hlen ▸ hsize, hfirst, hbody, hlast, haccept⟩
  · cases h

theorem compile_eq_ok_iff {ungreedy : Bool} {pattern : Bytes} {p : Program} :
    compile ungreedy pattern = .ok p ↔
      ∃ t groups, Tree.parse pattern = .ok (t, groups) ∧
        Program.ofTree? ungreedy t groups = some p := by
  unfold compile
  rcases Tree.parse pattern with e | ⟨t, groups⟩
  · simp
  · cases h : Program.ofTree? ungreedy t groups <;> simp [h]

theorem frames_of_compile {ungreedy : Bool} {pattern : Bytes} {p : Program}
    (h : compile ungreedy pattern = .ok p) :
    ∃ t groups, Tree.parse pattern = .ok (t, groups) ∧ t.WellFormed groups ∧
      p.Frames ungreedy t groups := by
  obtain ⟨t, groups, hparse, hprogram⟩ := compile_eq_ok_iff.mp h
  exact ⟨t, groups, hparse, parse_wellFormed hparse, frames_of_ofTree? hprogram⟩

namespace Program.Frames

variable {p : Program} {ungreedy : Bool} {t : Tree} {groups pc : Nat} {inst : Inst}

/-- Every instruction of a program is a mark of the whole match, the end, or inside the tree. -/
theorem cases (hp : p.Frames ungreedy t groups) (ht : t.WellFormed groups) (hi : p.Holds pc inst) :
    (pc = 0 ∧ inst = .save 0) ∨ (pc = t.size + 1 ∧ inst = .save 1) ∨
      (pc = t.size + 2 ∧ inst = .accept) ∨ inst.Inside groups (t.size + 1) pc := by
  have hlt : pc < t.size + 3 := hp.size_eq ▸ lt_size_of_getElem? hi
  by_cases hzero : pc = 0
  · subst hzero
    exact Or.inl ⟨rfl, Option.some.inj (hi.symm.trans hp.first)⟩
  by_cases hlast : pc = t.size + 1
  · subst hlast
    exact Or.inr (Or.inl ⟨rfl, Option.some.inj (hi.symm.trans hp.last)⟩)
  by_cases haccept : pc = t.size + 2
  · subst haccept
    exact Or.inr (Or.inr (Or.inl ⟨rfl, Option.some.inj (hi.symm.trans hp.accept)⟩))
  have hk : pc - 1 < (t.emit ungreedy 1).length := by
    rw [Tree.length_emit]
    omega
  have hget := List.getElem?_eq_getElem hk
  have hpc : 1 + (pc - 1) = pc := by omega
  have hheld := allAt_iff_getElem?.mp hp.body _ _ hget
  have hinside := allAt_iff_getElem?.mp (laid_inside ht (Nat.add_comm 1 t.size).le) _ _ hget
  rw [hpc] at hheld hinside
  rw [Option.some.inj (hi.symm.trans hheld)]
  exact Or.inr (Or.inr (Or.inr hinside))

theorem accept_iff (hp : p.Frames ungreedy t groups) (ht : t.WellFormed groups) :
    p.Holds pc .accept ↔ pc + 1 = p.insts.size := by
  rw [hp.size_eq]
  constructor
  · intro hi
    rcases hp.cases ht hi with ⟨_, h⟩ | ⟨_, h⟩ | ⟨rfl, _⟩ | h
    · cases h
    · cases h
    · rfl
    · exact absurd rfl h.ne_accept
  · intro h
    obtain rfl : pc = t.size + 2 := by omega
    exact hp.accept

theorem wellFormed (hp : p.Frames ungreedy t groups) (ht : t.WellFormed groups) : p.WellFormed := by
  have hcount : p.slotCount = 2 * (groups + 1) := by rw [Program.slotCount, hp.groups_eq]
  refine ⟨lt_size_of_getElem? hp.first, fun pc hpc a ha => ?_, fun inst hmem slot hslot => ?_⟩
  · rw [hp.size_eq]
    rcases hp.cases ht (Array.getElem?_eq_getElem hpc) with ⟨rfl, h⟩ | ⟨rfl, h⟩ | ⟨rfl, h⟩ | h
    · rw [h] at ha
      have := List.mem_singleton.mp ha
      omega
    · rw [h] at ha
      have := List.mem_singleton.mp ha
      omega
    · rw [h] at ha
      exact absurd ha List.not_mem_nil
    · have := h.targets a ha
      omega
  · obtain ⟨pc, hpc, rfl⟩ := Array.getElem_of_mem (Array.mem_toList_iff.mp hmem)
    rw [hcount]
    rcases hp.cases ht (Array.getElem?_eq_getElem hpc) with ⟨rfl, h⟩ | ⟨rfl, h⟩ | ⟨rfl, h⟩ | h
    · rw [h] at hslot
      have := Option.some.inj hslot
      omega
    · rw [h] at hslot
      have := Option.some.inj hslot
      omega
    · rw [h] at hslot
      exact absurd hslot (Option.not_mem_none slot)
    · exact (h.slot slot hslot).2

end Program.Frames

/-- **A compiled program is well-formed.** -/
theorem wellFormed_of_compile {ungreedy : Bool} {pattern : Bytes} {p : Program}
    (h : compile ungreedy pattern = .ok p) : p.WellFormed := by
  obtain ⟨t, groups, -, ht, hp⟩ := frames_of_compile h
  exact hp.wellFormed ht

end Bytework.Pattern
