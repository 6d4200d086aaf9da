import Bytework.Proofs.Pattern.Language
import Bytework.Proofs.Pattern.Layout
import Bytework.Proofs.Pattern.Walks

/-!
# Code and what it matches

A piece of code realizes a relation between positions if the walks through it are the pairs of the
relation. Pieces are put together as trees are.

* `Exits`: a walk that accepts comes through an address, at a related position.
* `Realizes`: a piece of code realizes a relation.
* `Realizes.of_inst`, `.comp`, `.branch`, `.copies`, `.options`: one lemma for each way of putting
  pieces together; **`Realizes.loop`** for loops, whose bodies may match the empty text.
* **`realizes_of_laid`**: the code of a tree realizes what the tree matches.
-/

namespace Bytework.Pattern

section Realizes

variable (p : Program) (flags : Flags) (text : Bytes)

/-- A walk that accepts in `n` steps comes through the address `pc`, at a position related to the
one at which it starts. What it has noted until then leaves the slots of the whole match alone. -/
def Exits (R : Nat → Nat → Prop) (pc n i : Nat) (slots out : Slots) : Prop :=
  ∃ j m slots', m ≤ n ∧ R i j ∧ slots'.take 2 = slots.take 2 ∧
    Accepts p.insts flags text.toArray m (pc, j) slots' out

/-- The walks from one address to another are the pairs of a relation. -/
structure Realizes (R : Nat → Nat → Prop) (pc pc' : Nat) : Prop where
  reaches : ∀ {i j}, R i j →
    Relation.ReflTransGen (Moves p.insts flags text.toArray) (pc, i) (pc', j)
  exits : ∀ {n i slots out}, Accepts p.insts flags text.toArray n (pc, i) slots out →
    Exits p flags text R pc' n i slots out

variable {p flags text} {R S : Nat → Nat → Prop} {pc pc' n n' i : Nat} {slots slots' out : Slots}

theorem Exits.mono (h : Exits p flags text R pc n i slots out) (hn : n ≤ n')
    (hslots : slots.take 2 = slots'.take 2) (hRS : ∀ j, R i j → S i' j) :
    Exits p flags text S pc n' i' slots' out := by
  obtain ⟨j, m, mid, hm, hR, hmid, hj⟩ := h
  exact ⟨j, m, mid, hm.trans hn, hRS j hR, hmid.trans hslots, hj⟩

theorem mem_next_branch {greedy : Bool} {x y : Nat} {s : State} :
    s ∈ (Tree.branch greedy x y).next flags text.toArray (pc, i) ↔ s = (x, i) ∨ s = (y, i) := by
  cases greedy with
  | true => simp [Tree.branch, Inst.next]
  | false => simp [Tree.branch, Inst.next, or_comm]

theorem accepts_of_branch {greedy : Bool} {x y : Nat} (hi : p.Holds pc (Tree.branch greedy x y))
    (h : Accepts p.insts flags text.toArray n (pc, i) slots out) :
    ∃ m < n, Accepts p.insts flags text.toArray m (x, i) slots out ∨
      Accepts p.insts flags text.toArray m (y, i) slots out := by
  have ha : Tree.branch greedy x y ≠ .accept := by cases greedy <;> exact Inst.noConfusion
  have hwrite : (Tree.branch greedy x y).write i slots = slots := by cases greedy <;> rfl
  obtain ⟨m, hm, t, ht, hrest⟩ := h.step hi ha
  rw [hwrite] at hrest
  rcases mem_next_branch.mp ht with rfl | rfl
  · exact ⟨m, hm, Or.inl hrest⟩
  · exact ⟨m, hm, Or.inr hrest⟩

namespace Realizes

theorem congr (h : Realizes p flags text R pc pc') (hRS : ∀ i j, R i j ↔ S i j) :
    Realizes p flags text S pc pc' := by
  obtain rfl : R = S := by
    funext i j
    exact propext (hRS i j)
  exact h

theorem refl (pc : Nat) : Realizes p flags text (· = ·) pc pc := by
  refine ⟨?_, fun h => ⟨_, _, _, Nat.le_refl _, rfl, rfl, h⟩⟩
  rintro i j rfl
  exact .refl

/-- An instruction that goes on at one address. -/
theorem of_inst {inst : Inst} (hi : p.Holds pc inst) (ha : inst ≠ .accept)
    (hslot : ∀ slot ∈ inst.slot?, 2 ≤ slot)
    (hnext : ∀ i s, s ∈ inst.next flags text.toArray (pc, i) ↔ s.1 = pc' ∧ R i s.2) :
    Realizes p flags text R pc pc' := by
  refine ⟨fun {i j} hR => ?_, fun {n i slots out} h => ?_⟩
  · exact .single ⟨inst, hi, (hnext i (pc', j)).mpr ⟨rfl, hR⟩⟩
  obtain ⟨m, hm, ⟨pc₁, j⟩, ht, hrest⟩ := h.step hi ha
  obtain ⟨rfl, hR⟩ := (hnext i (pc₁, j)).mp ht
  refine ⟨j, m, _, hm.le, hR, ?_, hrest⟩
  cases inst with
  | save slot => exact List.take_set_of_le (hslot slot rfl)
  | _ => rfl

theorem comp {mid : Nat} (hR : Realizes p flags text R pc mid)
    (hS : Realizes p flags text S mid pc') :
    Realizes p flags text (fun i j => ∃ k, R i k ∧ S k j) pc pc' := by
  refine ⟨?_, fun h => ?_⟩
  · rintro i j ⟨k, hik, hkj⟩
    exact (hR.reaches hik).trans (hS.reaches hkj)
  · obtain ⟨k, m, slots', hm, hik, hslots, hmid⟩ := hR.exits h
    exact (hS.exits hmid).mono hm hslots fun j hkj => ⟨k, hik, hkj⟩

/-- Two pieces to choose from. -/
theorem branch {greedy : Bool} {x y : Nat} (hi : p.Holds pc (Tree.branch greedy x y))
    (hR : Realizes p flags text R x pc') (hS : Realizes p flags text S y pc') :
    Realizes p flags text (fun i j => R i j ∨ S i j) pc pc' := by
  refine ⟨?_, fun {n i slots out} h => ?_⟩
  · rintro i j (hij | hij)
    · exact .head ⟨_, hi, mem_next_branch.mpr (Or.inl rfl)⟩ (hR.reaches hij)
    · exact .head ⟨_, hi, mem_next_branch.mpr (Or.inr rfl)⟩ (hS.reaches hij)
  · obtain ⟨m, hm, hrest | hrest⟩ := accepts_of_branch hi h
    · exact (hR.exits hrest).mono hm.le rfl fun j hij => Or.inl hij
    · exact (hS.exits hrest).mono hm.le rfl fun j hij => Or.inr hij

theorem jump {target : Nat} (hi : p.Holds pc (.jump target)) :
    Realizes p flags text (· = ·) pc target := by
  refine of_inst hi Inst.noConfusion (fun slot h => absurd h (Option.not_mem_none slot)) ?_
  intro i s
  simp [Inst.next, Prod.ext_iff, eq_comm]

theorem save {slot : Nat} (hi : p.Holds pc (.save slot)) (hslot : 2 ≤ slot) :
    Realizes p flags text (· = ·) pc (pc + 1) := by
  refine of_inst hi Inst.noConfusion (fun slot' h => ?_) ?_
  · rwa [← Option.some.inj h]
  · intro i s
    simp [Inst.next, Prod.ext_iff, eq_comm]

/-- Copies of one piece, one after the other. -/
theorem copies {width : Nat} (k : Nat) (pc : Nat)
    (h : ∀ c < k, Realizes p flags text R (pc + c * width) (pc + c * width + width)) :
    Realizes p flags text (Repeats R k) pc (pc + k * width) := by
  induction k generalizing pc with
  | zero =>
    rw [Nat.zero_mul]
    exact refl pc
  | succ k ih =>
    have hfirst := h 0 (Nat.succ_pos k)
    rw [Nat.zero_mul, Nat.add_zero] at hfirst
    have hshift : ∀ c, pc + (c + 1) * width = pc + width + c * width := fun c => by
      rw [Nat.succ_mul]
      omega
    rw [hshift]
    refine hfirst.comp (ih (pc + width) fun c hc => ?_)
    rw [← hshift]
    exact h (c + 1) (Nat.succ_lt_succ hc)

/-- Copies that may be left out, each behind a branch to the end. -/
theorem options {width out : Nat} {greedy : Bool} (k : Nat) (pc : Nat)
    (hout : out = pc + k * (width + 1))
    (h : ∀ c < k, p.Holds (pc + c * (width + 1))
        (Tree.branch greedy (pc + c * (width + 1) + 1) out) ∧
      Realizes p flags text R (pc + c * (width + 1) + 1) (pc + c * (width + 1) + 1 + width)) :
    Realizes p flags text (fun i j => ∃ q ≤ k, Repeats R q i j) pc out := by
  induction k generalizing pc with
  | zero =>
    rw [Nat.zero_mul, Nat.add_zero] at hout
    subst hout
    refine (refl out).congr fun i j => ⟨fun hij => ⟨0, Nat.le_refl 0, hij⟩, ?_⟩
    rintro ⟨q, hq, hij⟩
    obtain rfl := Nat.le_zero.mp hq
    exact hij
  | succ k ih =>
    obtain ⟨hi, hbody⟩ := h 0 (Nat.succ_pos k)
    rw [Nat.zero_mul, Nat.add_zero] at hi hbody
    have hrest := ih (pc + 1 + width) (hout.trans (block_succ pc width k)) fun c hc => by
      rw [← block_succ]
      exact h (c + 1) (Nat.succ_lt_succ hc)
    refine (branch hi (hbody.comp hrest) (refl out)).congr fun i j => ?_
    constructor
    · rintro (⟨m, him, q, hq, hmj⟩ | hij)
      · exact ⟨q + 1, Nat.succ_le_succ hq, m, him, hmj⟩
      · exact ⟨0, Nat.zero_le _, hij⟩
    · rintro ⟨_ | q, hq, hij⟩
      · exact Or.inr hij
      · obtain ⟨m, him, hmj⟩ := hij
        exact Or.inl ⟨m, him, q, Nat.le_of_succ_le_succ hq, hmj⟩

/-- **A loop.** A body that matches the empty text only leads back to the state of the loop. -/
theorem loop {body back out : Nat} {greedy : Bool} (hi : p.Holds pc (Tree.branch greedy body out))
    (hbody : Realizes p flags text R body back) (hback : p.Holds back (.jump pc)) :
    Realizes p flags text (fun i j => ∃ q, Repeats R q i j) pc out := by
  refine ⟨?_, fun {n i slots out'} h => ?_⟩
  · rintro i j ⟨q, hq⟩
    induction q generalizing i with
    | zero =>
      obtain rfl : i = j := hq
      exact .single ⟨_, hi, mem_next_branch.mpr (Or.inr rfl)⟩
    | succ q ih =>
      obtain ⟨m, him, hmj⟩ := hq
      have henter : Moves p.insts flags text.toArray (pc, i) (body, i) :=
        ⟨_, hi, mem_next_branch.mpr (Or.inl rfl)⟩
      exact .head henter (((hbody.comp (jump hback)).reaches ⟨m, him, rfl⟩).trans (ih hmj))
  · -- a walk may go round without reading, so the induction is on its length
    induction n using Nat.strong_induction_on generalizing i slots with
    | _ n ih =>
      obtain ⟨m, hm, hrest | hrest⟩ := accepts_of_branch hi h
      · obtain ⟨_, m', slots', hm', ⟨k, hik, rfl⟩, hslots, hround⟩ :=
          (hbody.comp (jump hback)).exits hrest
        refine (ih m' (by omega) hround).mono (by omega) hslots ?_
        rintro j ⟨q, hkj⟩
        exact ⟨q + 1, k, hik, hkj⟩
      · exact ⟨i, m, slots, hm.le, ⟨0, rfl⟩, rfl, hrest⟩

end Realizes

theorem realizes_of_leaf {t : Tree} {inst : Inst} (h : t.leaf? = some inst)
    (hi : p.Holds pc inst) : Realizes p flags text (t.Matches flags text) pc (pc + 1) := by
  have hplain : inst ≠ .accept ∧ inst.slot? = none := by
    cases t <;> cases h <;> exact ⟨Inst.noConfusion, rfl⟩
  refine .of_inst hi hplain.1 (fun slot hslot => ?_) fun i s => mem_next_of_leaf h
  rw [hplain.2] at hslot
  exact absurd hslot (Option.not_mem_none slot)

/-- **The code of a tree realizes what the tree matches.** -/
theorem realizes_of_laid {ungreedy : Bool} {groups : Nat} {t : Tree} (ht : t.WellFormed groups)
    (h : Laid p.Holds ungreedy t pc) :
    Realizes p flags text (t.Matches flags text) pc (pc + t.size) := by
  induction t generalizing pc with
  | empty => exact .refl pc
  | byte | any | set | start | stop => exact realizes_of_leaf rfl h.1
  | group body index ih =>
    cases index with
    | none => exact ih ht.2 h
    | some i =>
      obtain ⟨hopen, hbody, hclose⟩ := laid_group.mp h
      have hend : pc + (Tree.group body (some i)).size = pc + 1 + body.size + 1 := by
        rw [Tree.size]
        omega
      rw [hend]
      refine (((Realizes.save hopen (by omega)).comp (ih ht.2 hbody)).comp
        (.save hclose (by omega))).congr fun i j => ?_
      simp [Tree.Matches]
  | seq first second ih₁ ih₂ =>
    obtain ⟨hfirst, hsecond⟩ := laid_seq.mp h
    rw [Tree.size, ← Nat.add_assoc]
    exact (ih₁ ht.1 hfirst).comp (ih₂ ht.2 hsecond)
  | alt left right ih₁ ih₂ =>
    obtain ⟨hsplit, hleft, hjump, hright⟩ := laid_alt.mp h
    have hend : pc + (Tree.alt left right).size = pc + left.size + 2 + right.size := by
      rw [Tree.size]
      omega
    rw [hend]
    have hbranch : p.Holds pc (Tree.branch true (pc + 1) (pc + left.size + 2)) := hsplit
    refine (Realizes.branch hbranch ((ih₁ ht.1 hleft).comp (.jump hjump))
      (ih₂ ht.2 hright)).congr fun i j => ?_
    simp [Tree.Matches]
  | rep body least most greedy ih =>
    cases most with
    | none =>
      obtain ⟨hcopies, hbranch, hbody, hback⟩ := (laid_loop rfl).mp h
      have hend : pc + (Tree.rep body least none greedy).size =
          pc + least * body.size + body.size + 2 := by
        rw [Tree.size]
        omega
      rw [hend]
      refine ((Realizes.copies least pc fun c hc => ih ht.2 (hcopies c hc)).comp
        (.loop hbranch (ih ht.2 hbody) hback)).congr fun i j => ?_
      rw [repeats_least_iff]
      simp [Tree.Matches]
    | some most =>
      obtain ⟨hcopies, hoptions⟩ := (laid_options rfl rfl).mp h
      have hle : least ≤ most := ht.1 most rfl
      rw [Tree.size, ← Nat.add_assoc]
      refine ((Realizes.copies least pc fun c hc => ih ht.2 (hcopies c hc)).comp
        (.options (most - least) _ rfl fun c hc =>
          ⟨(hoptions c hc).1, ih ht.2 (hoptions c hc).2⟩)).congr fun i j => ?_
      rw [repeats_most_iff hle]
      simp [Tree.Matches]

end Realizes

end Bytework.Pattern
