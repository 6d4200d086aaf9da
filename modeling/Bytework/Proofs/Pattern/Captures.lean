import Bytework.Proofs.Pattern.Expressed
import Bytework.Proofs.Pattern.Settled

/-!
# What groups capture

The surviving branch goes through every group in whole iterations, and the two slots of a group hold
the last of them.

* `Iterations`, `Ordered`: the iterations of a group on a branch, one after the other.
* `Crossing`: a piece of a branch that consists of whole iterations of some groups.
* `Crosses`: a piece of code that trails go through so; one lemma for each way of putting pieces
  together, and **`crosses_of_laid`** for the code of a tree.
* **`captures_of_find?`**: the slots of a match.
-/

namespace Bytework.Pattern

/-! ## Iterations -/

/-- What iterations of a group note in its pair of slots. -/
def brackets (k : Nat) (rounds : List (Nat × Nat)) : List (Nat × Nat) :=
  rounds.flatMap fun round => [(2 * k, round.1), (2 * k + 1, round.2)]

/-- The notes for one pair of slots. -/
def ofPair (k : Nat) (ns : List (Nat × Nat)) : List (Nat × Nat) := ns.filter (·.1 / 2 = k)

/-- The iterations that a branch makes of the group with a pair of slots, from where each enters the
group to where it leaves it. Pair 0 is for the whole match. -/
def Iterations (insts : Array Inst) (k : Nat) (branch : List State) (rounds : List (Nat × Nat)) :
    Prop :=
  ofPair k (notes insts branch) = brackets k rounds

/-- Iterations one after the other, between two positions. -/
def Ordered : Nat → Nat → List (Nat × Nat) → Prop
  | i, j, [] => i ≤ j
  | i, j, round :: rounds => i ≤ round.1 ∧ round.1 ≤ round.2 ∧ Ordered round.2 j rounds

/-- The iterations of a group on a branch, with what its slots hold in the end. -/
structure Recorded (insts : Array Inst) (branch : List State) (out : Slots) (i j k : Nat)
    (rounds : List (Nat × Nat)) : Prop where
  iterations : Iterations insts k branch rounds
  ordered : Ordered i j rounds
  opened : out[2 * k]? = some (rounds.getLast?.map Prod.fst)
  closed : out[2 * k + 1]? = some (rounds.getLast?.map Prod.snd)

section Rounds

variable {i j m k : Nat} {rounds rounds' : List (Nat × Nat)}

theorem Ordered.le (h : Ordered i j rounds) : i ≤ j := by
  induction rounds generalizing i with
  | nil => exact h
  | cons round rounds ih => exact h.1.trans (h.2.1.trans (ih h.2.2))

theorem Ordered.append (h : Ordered i m rounds) (h' : Ordered m j rounds') :
    Ordered i j (rounds ++ rounds') := by
  induction rounds generalizing i with
  | nil =>
    cases rounds' with
    | nil => exact Nat.le_trans h h'
    | cons round rounds' => exact ⟨Nat.le_trans h h'.1, h'.2⟩
  | cons round rounds ih => exact ⟨h.1, h.2.1, ih h.2.2⟩

theorem Ordered.of_mem (h : Ordered i j rounds) {round : Nat × Nat} (hr : round ∈ rounds) :
    i ≤ round.1 ∧ round.1 ≤ round.2 ∧ round.2 ≤ j := by
  induction rounds generalizing i with
  | nil => exact absurd hr List.not_mem_nil
  | cons first rounds ih =>
    rcases List.mem_cons.mp hr with rfl | hr
    · exact ⟨h.1, h.2.1, h.2.2.le⟩
    · obtain ⟨hstart, hstop⟩ := ih h.2.2 hr
      exact ⟨h.1.trans (h.2.1.trans hstart), hstop⟩

theorem ofPair_append (k : Nat) (ns ns' : List (Nat × Nat)) :
    ofPair k (ns ++ ns') = ofPair k ns ++ ofPair k ns' := List.filter_append ..

theorem ofPair_cons (e : Nat × Nat) (ns : List (Nat × Nat)) :
    ofPair k (e :: ns) = (if e.1 / 2 = k then [e] else []) ++ ofPair k ns := by
  rw [ofPair, List.filter_cons]
  by_cases h : e.1 / 2 = k <;> simp [h, ofPair]

theorem brackets_append (k : Nat) (rounds rounds' : List (Nat × Nat)) :
    brackets k (rounds ++ rounds') = brackets k rounds ++ brackets k rounds' :=
  List.flatMap_append

theorem filter_ofPair {slot : Nat} (h : slot / 2 = k) (ns : List (Nat × Nat)) :
    (ofPair k ns).filter (·.1 = slot) = ns.filter (·.1 = slot) := by
  rw [ofPair, List.filter_filter]
  refine List.filter_congr fun e _ => ?_
  by_cases he : e.1 = slot
  · simp [he, h]
  · simp [he]

theorem filter_brackets_fst (k : Nat) (rounds : List (Nat × Nat)) :
    (brackets k rounds).filter (·.1 = 2 * k) = rounds.map fun round => (2 * k, round.1) := by
  induction rounds with
  | nil => rfl
  | cons round rounds ih =>
    rw [List.map_cons, ← ih]
    simp [brackets]

theorem filter_brackets_snd (k : Nat) (rounds : List (Nat × Nat)) :
    (brackets k rounds).filter (·.1 = 2 * k + 1) =
      rounds.map fun round => (2 * k + 1, round.2) := by
  induction rounds with
  | nil => rfl
  | cons round rounds ih =>
    rw [List.map_cons, ← ih]
    simp [brackets]

/-- **The slots of a pair hold the last iteration**, if they were unset before. -/
theorem recorded_of_iterations {insts : Array Inst} {branch : List State} {slots : Slots}
    (h : Iterations insts k branch rounds) (hordered : Ordered i j rounds)
    (hopen : slots[2 * k]? = some none) (hclose : slots[2 * k + 1]? = some none) :
    Recorded insts branch ((notes insts branch).foldl Slots.note slots) i j k rounds := by
  have hfst : (2 * k) / 2 = k := by omega
  have hsnd : (2 * k + 1) / 2 = k := by omega
  refine ⟨h, hordered, ?_, ?_⟩
  · rw [getElem?_foldl_note, hopen, ← filter_ofPair hfst, h, filter_brackets_fst]
    simp [Function.comp_def]
  · rw [getElem?_foldl_note, hclose, ← filter_ofPair hsnd, h, filter_brackets_snd]
    simp [Function.comp_def]

end Rounds

/-! ## Pieces of a branch -/

/-- A piece of a branch from one position to another, made of whole iterations of the groups with the
pairs of slots from `first` up to `last`. -/
structure Crossing (insts : Array Inst) (first last i j : Nat) (piece : List State) : Prop where
  iterations : ∀ k, ∃ rounds, Iterations insts k piece rounds ∧ Ordered i j rounds
  outside : ∀ k, k < first ∨ last ≤ k → ofPair k (notes insts piece) = []

namespace Crossing

variable {insts : Array Inst} {first last first' last' i j m : Nat} {s : State} {inst : Inst}
  {piece piece' : List State}

theorem le (h : Crossing insts first last i j piece) : i ≤ j := by
  obtain ⟨rounds, -, hordered⟩ := h.iterations 0
  exact hordered.le

theorem of_notes_nil (h : i ≤ j) (hnotes : notes insts piece = []) :
    Crossing insts first last i j piece := by
  have hnone : ∀ k, ofPair k (notes insts piece) = [] := fun k => by
    rw [hnotes]
    rfl
  exact ⟨fun k => ⟨[], hnone k, h⟩, fun k _ => hnone k⟩

theorem append (h : Crossing insts first last i m piece)
    (h' : Crossing insts first last m j piece') :
    Crossing insts first last i j (piece ++ piece') := by
  refine ⟨fun k => ?_, fun k hk => ?_⟩
  · obtain ⟨rounds, hrounds, hordered⟩ := h.iterations k
    obtain ⟨rounds', hrounds', hordered'⟩ := h'.iterations k
    refine ⟨rounds ++ rounds', ?_, hordered.append hordered'⟩
    rw [Iterations, notes_append, ofPair_append, hrounds, hrounds', brackets_append]
  · rw [notes_append, ofPair_append, h.outside k hk, h'.outside k hk, List.append_nil]

theorem mono (h : Crossing insts first last i j piece) (hfirst : first' ≤ first)
    (hlast : last ≤ last') : Crossing insts first' last' i j piece :=
  ⟨h.iterations, fun k hk => h.outside k (by omega)⟩

theorem cons (h : Crossing insts first last m j piece) (hi : insts[s.1]? = some inst)
    (hslot : inst.slot? = none) (hle : i ≤ m) : Crossing insts first last i j (s :: piece) := by
  have hstate : notes insts [s] = [] := notes_cons_plain hi hslot
  exact (of_notes_nil hle hstate).append h

/-- What is noted for a pair from where a group is entered to where it is left. -/
theorem ofPair_enclose {pc pc' : Nat} (h : Crossing insts (first + 1) last i j piece)
    (hopen : insts[pc]? = some (.save (2 * first)))
    (hclose : insts[pc']? = some (.save (2 * first + 1))) (k : Nat) :
    ofPair k (notes insts ((pc, i) :: (piece ++ [(pc', j)]))) =
      if k = first then brackets first [(i, j)] else ofPair k (notes insts piece) := by
  have hfst : (2 * first) / 2 = first := by omega
  have hsnd : (2 * first + 1) / 2 = first := by omega
  have hlast : notes insts [(pc', j)] = [(2 * first + 1, j)] := notes_cons_save hclose
  rw [notes_cons_save hopen, notes_append, hlast, ofPair_cons, ofPair_append, ofPair_cons, hfst,
    hsnd]
  by_cases hk : k = first
  · subst hk
    rw [h.outside k (by omega)]
    simp [ofPair, brackets]
  · simp [hk, Ne.symm hk, ofPair]

/-- **One iteration of a group.** -/
theorem enclose {pc pc' : Nat} (h : Crossing insts (first + 1) last i j piece)
    (hopen : insts[pc]? = some (.save (2 * first)))
    (hclose : insts[pc']? = some (.save (2 * first + 1))) (hlt : first < last) :
    Crossing insts first last i j ((pc, i) :: (piece ++ [(pc', j)])) ∧
      Iterations insts first ((pc, i) :: (piece ++ [(pc', j)])) [(i, j)] := by
  have hnotes := h.ofPair_enclose hopen hclose
  have hgroup : Iterations insts first ((pc, i) :: (piece ++ [(pc', j)])) [(i, j)] := by
    rw [Iterations, hnotes, if_pos rfl]
  refine ⟨⟨fun k => ?_, fun k hk => ?_⟩, hgroup⟩
  · by_cases hk : k = first
    · subst hk
      exact ⟨_, hgroup, Nat.le_refl i, h.le, Nat.le_refl j⟩
    · obtain ⟨rounds, hrounds, hordered⟩ := h.iterations k
      exact ⟨rounds, (hnotes k).trans ((if_neg hk).trans hrounds), hordered⟩
  · rw [hnotes, if_neg (by omega)]
    exact h.outside k (by omega)

end Crossing

/-! ## Pieces of code -/

section Crosses

variable (p : Program) (flags : Flags) (text : Bytes)

/-- A trail through an address that comes through another one behind a piece of whole iterations. -/
def Through (first last pc' i : Nat) (trail : List State) : Prop :=
  ∃ j piece rest, trail = piece ++ rest ∧ Crossing p.insts first last i j piece ∧
    Trail p.insts flags text.toArray (pc', j) rest

/-- All trails from an address come through another one so. -/
def Crosses (first last pc pc' : Nat) : Prop :=
  ∀ i trail, Trail p.insts flags text.toArray (pc, i) trail →
    Through p flags text first last pc' i trail

variable {p flags text} {first last first' last' pc pc' mid i j : Nat} {inst : Inst}
  {trail piece : List State}

theorem Through.append (h : Through p flags text first last pc' j trail)
    (hpiece : Crossing p.insts first last i j piece) :
    Through p flags text first last pc' i (piece ++ trail) := by
  obtain ⟨k, piece', rest, rfl, hcross, hrest⟩ := h
  exact ⟨k, piece ++ piece', rest, (List.append_assoc ..).symm, hpiece.append hcross, hrest⟩

theorem Through.cons {s : State} (h : Through p flags text first last pc' j trail)
    (hi : p.insts[s.1]? = some inst) (hslot : inst.slot? = none) (hle : i ≤ j) :
    Through p flags text first last pc' i (s :: trail) := by
  obtain ⟨k, piece, rest, rfl, hcross, hrest⟩ := h
  exact ⟨k, s :: piece, rest, rfl, hcross.cons hi hslot hle, hrest⟩

namespace Crosses

theorem refl (first last pc : Nat) : Crosses p flags text first last pc pc :=
  fun i trail h => ⟨i, [], trail, rfl, .of_notes_nil (Nat.le_refl i) rfl, h⟩

theorem comp (h : Crosses p flags text first last pc mid)
    (h' : Crosses p flags text first last mid pc') : Crosses p flags text first last pc pc' := by
  intro i trail htrail
  obtain ⟨j, piece, rest, rfl, hpiece, hrest⟩ := h i trail htrail
  exact (h' j rest hrest).append hpiece

theorem mono (h : Crosses p flags text first last pc pc') (hfirst : first' ≤ first) (hlast : last ≤ last') :
    Crosses p flags text first' last' pc pc' := by
  intro i trail htrail
  obtain ⟨j, piece, rest, rfl, hpiece, hrest⟩ := h i trail htrail
  exact ⟨j, piece, rest, rfl, hpiece.mono hfirst hlast, hrest⟩

/-- An instruction that goes on at one address and notes nothing. -/
theorem of_inst (hi : p.Holds pc inst) (ha : inst ≠ .accept) (hslot : inst.slot? = none)
    (htargets : inst.targets pc = [pc']) : Crosses p flags text first last pc pc' := by
  intro i trail h
  obtain ⟨⟨a, j⟩, ht, rest, rfl, hrest⟩ := h.next hi ha
  have hmem : a ∈ inst.targets pc := Inst.fst_mem_targets ht
  rw [htargets, List.mem_singleton] at hmem
  subst hmem
  have hle : i ≤ j := by
    rcases Inst.snd_of_mem_next ht with h | ⟨h, -⟩
    · exact h.ge
    · exact (Nat.le_succ i).trans h.ge
  exact Through.cons (s := (pc, i)) (refl first last a j rest hrest) hi hslot hle

theorem trail_of_branch {greedy : Bool} {x y : Nat} (hi : p.Holds pc (Tree.branch greedy x y))
    (h : Trail p.insts flags text.toArray (pc, i) trail) :
    ∃ rest, trail = (pc, i) :: rest ∧
      (Trail p.insts flags text.toArray (x, i) rest ∨ Trail p.insts flags text.toArray (y, i) rest) := by
  have ha : Tree.branch greedy x y ≠ .accept := by cases greedy <;> exact Inst.noConfusion
  obtain ⟨t, ht, rest, rfl, hrest⟩ := h.next hi ha
  rcases mem_next_branch.mp ht with rfl | rfl
  · exact ⟨rest, rfl, Or.inl hrest⟩
  · exact ⟨rest, rfl, Or.inr hrest⟩

theorem slot?_branch (greedy : Bool) (x y : Nat) : (Tree.branch greedy x y).slot? = none := by
  cases greedy <;> rfl

theorem branch {greedy : Bool} {x y : Nat} (hi : p.Holds pc (Tree.branch greedy x y))
    (hx : Crosses p flags text first last x pc') (hy : Crosses p flags text first last y pc') :
    Crosses p flags text first last pc pc' := by
  intro i trail h
  obtain ⟨rest, rfl, hrest | hrest⟩ := trail_of_branch hi h
  · exact Through.cons (s := (pc, i)) (hx i rest hrest) hi (slot?_branch ..) (Nat.le_refl i)
  · exact Through.cons (s := (pc, i)) (hy i rest hrest) hi (slot?_branch ..) (Nat.le_refl i)

theorem jump {target : Nat} (hi : p.Holds pc (.jump target)) :
    Crosses p flags text first last pc target :=
  of_inst hi Inst.noConfusion rfl rfl

/-- Copies of one piece, one after the other. -/
theorem copies {width : Nat} (k : Nat) (pc : Nat) (h : ∀ c < k,
    Crosses p flags text first last (pc + c * width) (pc + c * width + width)) :
    Crosses p flags text first last pc (pc + k * width) := by
  induction k with
  | zero =>
    rw [Nat.zero_mul]
    exact refl first last pc
  | succ k ih =>
    rw [Nat.succ_mul, ← Nat.add_assoc]
    exact (ih fun c hc => h c (Nat.lt_succ_of_lt hc)).comp (h k (Nat.lt_succ_self k))

/-- Copies that may be left out, each behind a branch to the end. -/
theorem options {width out : Nat} {greedy : Bool} (k : Nat) (pc : Nat)
    (hout : out = pc + k * (width + 1))
    (h : ∀ c < k, p.Holds (pc + c * (width + 1))
        (Tree.branch greedy (pc + c * (width + 1) + 1) out) ∧
      Crosses p flags text first last (pc + c * (width + 1) + 1)
        (pc + c * (width + 1) + 1 + width)) :
    Crosses p flags text first last pc out := by
  induction k generalizing pc with
  | zero =>
    rw [Nat.zero_mul, Nat.add_zero] at hout
    subst hout
    exact refl first last out
  | succ k ih =>
    obtain ⟨hi, hbody⟩ := h 0 (Nat.succ_pos k)
    rw [Nat.zero_mul, Nat.add_zero] at hi hbody
    have hrest := ih (pc + 1 + width) (hout.trans (block_succ pc width k)) fun c hc => by
      rw [← block_succ]
      exact h (c + 1) (Nat.succ_lt_succ hc)
    exact branch hi (hbody.comp hrest) (refl first last out)

/-- **A loop.** -/
theorem loop {body back out : Nat} {greedy : Bool} (hi : p.Holds pc (Tree.branch greedy body out))
    (hbody : Crosses p flags text first last body back) (hback : p.Holds back (.jump pc)) :
    Crosses p flags text first last pc out := by
  intro i trail h
  -- each round takes states off the trail
  induction hn : trail.length using Nat.strong_induction_on generalizing i trail with
  | _ n ih =>
    subst hn
    obtain ⟨rest, rfl, hrest | hrest⟩ := trail_of_branch hi h
    · obtain ⟨j, piece, rest', rfl, hpiece, hrest'⟩ := hbody.comp (jump hback) i rest hrest
      have hlt : rest'.length < ((pc, i) :: (piece ++ rest')).length := by
        simp only [List.length_cons, List.length_append]
        omega
      exact Through.cons (s := (pc, i)) ((ih _ hlt j rest' hrest' rfl).append hpiece) hi
        (slot?_branch ..) (Nat.le_refl i)
    · exact Through.cons (s := (pc, i)) (refl first last out i rest hrest) hi (slot?_branch ..)
        (Nat.le_refl i)

theorem trail_of_save {slot : Nat} (hi : p.Holds pc (.save slot))
    (h : Trail p.insts flags text.toArray (pc, i) trail) :
    ∃ rest, trail = (pc, i) :: rest ∧ Trail p.insts flags text.toArray (pc + 1, i) rest := by
  obtain ⟨t, ht, rest, rfl, hrest⟩ := h.next hi Inst.noConfusion
  obtain rfl : t = (pc + 1, i) := List.mem_singleton.mp ht
  exact ⟨rest, rfl, hrest⟩

/-- **A group.** -/
theorem group (hopen : p.Holds pc (.save (2 * first)))
    (hbody : Crosses p flags text (first + 1) last (pc + 1) pc')
    (hclose : p.Holds pc' (.save (2 * first + 1))) (hlt : first < last) :
    Crosses p flags text first last pc (pc' + 1) := by
  intro i trail h
  obtain ⟨rest, rfl, hrest⟩ := trail_of_save hopen h
  obtain ⟨j, piece, rest', rfl, hpiece, hrest'⟩ := hbody i rest hrest
  obtain ⟨after, rfl, hafter⟩ := trail_of_save hclose hrest'
  refine ⟨j, (pc, i) :: (piece ++ [(pc', j)]), after, ?_, (hpiece.enclose hopen hclose hlt).1, hafter⟩
  rw [List.cons_append, List.append_assoc, List.singleton_append]

end Crosses

/-- **The code of a tree is gone through in whole iterations of its groups.** -/
theorem crosses_of_laid {ungreedy : Bool} {t : Tree} {n : Nat} (ht : t.NumberedFrom n)
    (h : Laid p.Holds ungreedy t pc) :
    Crosses p flags text (n + 1) (n + 1 + t.captures) pc (pc + t.size) := by
  induction t generalizing pc n with
  | empty => exact .refl _ _ pc
  | byte | any | set | start | stop => exact .of_inst h.1 Inst.noConfusion rfl rfl
  | group body index ih =>
    cases index with
    | none =>
      simp only [Tree.captures, Option.isSome_none, Bool.false_eq_true, if_false, Nat.zero_add]
      exact ih ht h
    | some i =>
      obtain ⟨rfl, hbody⟩ := ht
      obtain ⟨hopen, hlaid, hclose⟩ := laid_group.mp h
      have hlast : i + 1 + 1 + body.captures = i + 1 + (Tree.group body (some i)).captures := by
        simp only [Tree.captures, Option.isSome_some, if_true]
        omega
      have hend : pc + (Tree.group body (some i)).size = pc + 1 + body.size + 1 := by
        rw [Tree.size]
        omega
      rw [hend, ← hlast]
      exact .group hopen (ih hbody hlaid) hclose (by omega)
  | seq first second ih₁ ih₂ =>
    obtain ⟨hfirst, hsecond⟩ := laid_seq.mp h
    rw [Tree.size, ← Nat.add_assoc, Tree.captures]
    exact ((ih₁ ht.1 hfirst).mono (Nat.le_refl _) (by omega)).comp
      ((ih₂ ht.2 hsecond).mono (by omega) (by omega))
  | alt left right ih₁ ih₂ =>
    obtain ⟨hsplit, hleft, hjump, hright⟩ := laid_alt.mp h
    have hend : pc + (Tree.alt left right).size = pc + left.size + 2 + right.size := by
      rw [Tree.size]
      omega
    rw [hend, Tree.captures]
    have hbranch : p.Holds pc (Tree.branch true (pc + 1) (pc + left.size + 2)) := hsplit
    exact .branch hbranch (((ih₁ ht.1 hleft).mono (Nat.le_refl _) (by omega)).comp (.jump hjump))
      ((ih₂ ht.2 hright).mono (by omega) (by omega))
  | rep body least most greedy ih =>
    cases most with
    | none =>
      obtain ⟨hcopies, hbranch, hbody, hback⟩ := (laid_loop rfl).mp h
      have hend : pc + (Tree.rep body least none greedy).size =
          pc + least * body.size + body.size + 2 := by
        rw [Tree.size]
        omega
      rw [hend, Tree.captures]
      exact (Crosses.copies least pc fun c hc => ih ht (hcopies c hc)).comp
        (.loop hbranch (ih ht hbody) hback)
    | some most =>
      obtain ⟨hcopies, hoptions⟩ := (laid_options rfl rfl).mp h
      rw [Tree.size, ← Nat.add_assoc, Tree.captures]
      exact (Crosses.copies least pc fun c hc => ih ht (hcopies c hc)).comp
        (.options (most - least) _ rfl fun c hc => ⟨(hoptions c hc).1, ih ht (hoptions c hc).2⟩)

/-- **The surviving branch of a whole program** enters and leaves the whole match once, and goes in
between in whole iterations of the groups. -/
theorem Program.Frames.iterations {ungreedy : Bool} {t : Tree} {groups start : Nat}
    (hp : p.Frames ungreedy t groups) (ht : t.NumberedFrom 0)
    (h : Trail p.insts flags text.toArray (0, start) trail) :
    ∃ stop, Iterations p.insts 0 trail [(start, stop)] ∧
      ∀ k, ∃ rounds, Iterations p.insts k trail rounds ∧ Ordered start stop rounds := by
  obtain ⟨rest, rfl, hrest⟩ := Crosses.trail_of_save hp.first h
  obtain ⟨stop, piece, rest', rfl, hpiece, hrest'⟩ := crosses_of_laid ht hp.body start rest hrest
  rw [Nat.add_comm 1 t.size] at hrest'
  obtain ⟨after, rfl, hafter⟩ := Crosses.trail_of_save hp.last hrest'
  obtain rfl := hafter.eq_of_accept hp.accept
  obtain ⟨hcross, hwhole⟩ := hpiece.enclose hp.first hp.last (Nat.lt_add_right _ Nat.one_pos)
  have hlast : notes p.insts [(t.size + 1 + 1, stop)] = [] := notes_cons_plain hp.accept rfl
  have hsplit : (0, start) :: (piece ++ [(t.size + 1, stop), (t.size + 1 + 1, stop)]) =
      ((0, start) :: (piece ++ [(t.size + 1, stop)])) ++ [(t.size + 1 + 1, stop)] := by
    rw [List.cons_append, List.append_assoc, List.singleton_append]
  rw [hsplit]
  refine ⟨stop, ?_, (hcross.append (.of_notes_nil (Nat.le_refl stop) hlast)).iterations⟩
  rw [Iterations, notes_append, hlast, List.append_nil]
  exact hwhole

/-- The slots of every pair hold the last iteration on the branch on which a search settles. -/
theorem Program.Frames.recorded {ungreedy : Bool} {t : Tree} {groups start : Nat} {out : Slots}
    (hp : p.Frames ungreedy t groups) (ht : t.NumberedFrom 0)
    (h : Settles p.insts flags text.toArray [] (List.replicate p.slotCount none) (0, start) trail
      out) :
    ∃ stop, Recorded p.insts trail out start stop 0 [(start, stop)] ∧
      ∀ k ≤ groups, ∃ rounds, Recorded p.insts trail out start stop k rounds := by
  obtain ⟨stop, hwhole, hrounds⟩ := hp.iterations ht h.trail
  have hunset : ∀ slot < 2 * (groups + 1),
      (List.replicate p.slotCount (none : Option Nat))[slot]? = some none := by
    intro slot hslot
    rw [Program.slotCount, hp.groups_eq, List.getElem?_replicate, if_pos hslot]
  have hrecorded : ∀ k ≤ groups, ∀ rounds, Iterations p.insts k trail rounds →
      Ordered start stop rounds → Recorded p.insts trail out start stop k rounds := by
    intro k hk rounds hiterations hordered
    rw [h.slots_eq]
    exact recorded_of_iterations hiterations hordered (hunset _ (by omega)) (hunset _ (by omega))
  refine ⟨stop, hrecorded 0 (Nat.zero_le _) _ hwhole ?_, fun k hk => ?_⟩
  · obtain ⟨rounds, -, hordered⟩ := hrounds 0
    exact ⟨Nat.le_refl _, hordered.le, Nat.le_refl _⟩
  · obtain ⟨rounds, hiterations, hordered⟩ := hrounds k
    exact ⟨rounds, hrecorded k hk rounds hiterations hordered⟩

end Crosses

/-! ## Matches -/

namespace Match

variable {m : Match} {insts : Array Inst} {branch : List State} {i j k : Nat}
  {rounds : List (Nat × Nat)}

theorem length_slice (h : j ≤ m.text.length) : (m.slice i j).length = j - i := by
  rw [slice, List.length_take, List.length_drop]
  omega

theorem span?_of_recorded (h : Recorded insts branch m.slots i j k rounds) :
    m.span? k = rounds.getLast? := by
  unfold span?
  rw [h.opened, h.closed]
  cases hlast : rounds.getLast? with
  | none => rfl
  | some round =>
    obtain ⟨-, hle, -⟩ := h.ordered.of_mem (List.mem_of_getLast? hlast)
    simp [hle]

theorem group?_eq_none_iff (h : Recorded insts branch m.slots i j (k + 1) rounds) :
    m.group? k = none ↔ rounds = [] := by
  rw [group?, span?_of_recorded h, Option.map_eq_none_iff, List.getLast?_eq_none_iff]

/-- Both slots of a group are unset, or both are set to positions of the match. -/
theorem slots_of_recorded (h : Recorded insts branch m.slots i j (k + 1) rounds)
    (hj : j ≤ m.text.length) :
    (m.slots[2 * (k + 1)]? = some none ∧ m.slots[2 * (k + 1) + 1]? = some none) ∨
      ∃ a b, rounds.getLast? = some (a, b) ∧ m.slots[2 * (k + 1)]? = some (some a) ∧
        m.slots[2 * (k + 1) + 1]? = some (some b) ∧ m.span? (k + 1) = some (a, b) ∧
        i ≤ a ∧ a ≤ b ∧ b ≤ j ∧
        m.group? k = some (m.slice a b) ∧ (m.slice a b).length = b - a := by
  have hopened := h.opened
  have hclosed := h.closed
  have hspan := span?_of_recorded h
  cases hlast : rounds.getLast? with
  | none =>
    rw [hlast] at hopened hclosed
    exact Or.inl ⟨hopened, hclosed⟩
  | some round =>
    rw [hlast] at hopened hclosed hspan
    obtain ⟨hstart, hle, hstop⟩ := h.ordered.of_mem (List.mem_of_getLast? hlast)
    refine Or.inr ⟨round.1, round.2, rfl, hopened, hclosed, hspan, hstart, hle, hstop, ?_,
      length_slice (hstop.trans hj)⟩
    rw [group?, hspan]
    rfl

end Match

/-- **What a match says.** It lies in the text, and the search has settled on a branch such that every
group holds the last of the iterations that this branch makes of it, inside of the match, or nothing if
there is none. -/
theorem captures_of_find? {pattern : String} {options : Options} {regex : Regex}
    (h : Regex.compile pattern options = .ok regex) {text : Bytes} {m : Match}
    (hm : regex.find? text = .ok (some m)) :
    m.text = text ∧ m.span? 0 = some (m.start, m.stop) ∧ m.start ≤ m.stop ∧ m.stop ≤ text.length ∧
      m.start + m.length = m.stop ∧ m.bytes.length = m.length ∧
      m.slots.length = 2 * (regex.groupCount + 1) ∧
      ∃ branch, Settles regex.program.insts options.flags text.toArray []
          (List.replicate regex.program.slotCount none) (0, m.start) branch m.slots ∧
        ∀ g < regex.groupCount, ∃ rounds, Iterations regex.program.insts (g + 1) branch rounds ∧
          (m.group? g = none ↔ rounds = []) ∧
          ((m.slots[2 * (g + 1)]? = some none ∧ m.slots[2 * (g + 1) + 1]? = some none) ∨
            ∃ a b, rounds.getLast? = some (a, b) ∧ m.slots[2 * (g + 1)]? = some (some a) ∧
              m.slots[2 * (g + 1) + 1]? = some (some b) ∧ m.span? (g + 1) = some (a, b) ∧
              m.start ≤ a ∧ a ≤ b ∧ b ≤ m.stop ∧
              m.group? g = some (m.slice a b) ∧ (m.slice a b).length = b - a) := by
  obtain ⟨p, hcompile, rfl⟩ := map_eq_ok h
  obtain ⟨t, groups, hparse, ht, hp⟩ := frames_of_compile hcompile
  obtain ⟨found, hfound, hmatch⟩ := map_eq_ok hm
  obtain ⟨out, rfl, rfl⟩ := Option.map_eq_some_iff.mp hmatch
  -- the start that succeeds, and the branch from there
  rw [search_eq, backtrack] at hfound
  obtain ⟨before, start, after, hstarts, hstart, -⟩ := split_of_firstOf hfound
  obtain ⟨branch, hbranch⟩ := explore_eq_some_iff.mp hstart
  obtain ⟨stop, hwhole, hgroups⟩ := hp.recorded (Tree.expressible_of_parse hparse).1.numbered hbranch
  have hspan : (Match.mk text out).span? 0 = some (start, stop) :=
    Match.span?_of_recorded (m := ⟨text, out⟩) hwhole
  have hfst : (Match.mk text out).start = start := by
    rw [Match.start, hspan]
    rfl
  have hsnd : (Match.mk text out).stop = stop := by
    rw [Match.stop, hspan]
    rfl
  have hle : start ≤ stop := hwhole.ordered.le
  have hstop : stop ≤ text.length := by
    have hmem : start ∈ options.flags.starts text.length := by
      rw [hstarts]
      exact List.mem_append_right _ List.mem_cons_self
    obtain ⟨j, hmatches, htake⟩ := matches_of_backtrackFrom hp ht hstart
    obtain ⟨hij, hj⟩ := Tree.bounds_of_matches hmatches (Flags.mem_starts_iff.mp hmem).1
    have hends := (Match.span?_zero htake hij).symm.trans hspan
    rwa [(Prod.mk.inj (Option.some.inj hends)).2] at hj
  have hlength : out.length = 2 * (p.groups + 1) :=
    hbranch.length_eq.trans List.length_replicate
  rw [hfst, hsnd]
  refine ⟨rfl, hspan, hle, hstop, ?_, ?_, hlength, branch, hbranch, fun g hg => ?_⟩
  · rw [Match.length, hfst, hsnd, Nat.add_sub_cancel' hle]
  · rw [Match.bytes, Match.length, hfst, hsnd]
    exact Match.length_slice hstop
  · obtain ⟨rounds, hrounds⟩ := hgroups (g + 1) (hp.groups_eq ▸ hg)
    exact ⟨rounds, hrounds.iterations, Match.group?_eq_none_iff (m := ⟨text, out⟩) hrounds,
      Match.slots_of_recorded (m := ⟨text, out⟩) hrounds hstop⟩

/-- The program of `(a)b|(a)c`, whose first group is left again after an iteration. -/
def secondThought : Program :=
  ⟨#[.save 0, .split 2 7, .save 2, .byte 97, .save 3, .byte 98, .jump 11, .save 4, .byte 97, .save 5,
    .byte 99, .save 1, .accept], 2⟩

theorem captures_secondThought :
    Regex.compile "(a)b|(a)c" {} = .ok ⟨"(a)b|(a)c", secondThought, {}⟩ ∧
      Regex.find? ⟨"(a)b|(a)c", secondThought, {}⟩ (ascii "ac") =
        .ok (some ⟨ascii "ac", [some 0, some 2, none, none, some 0, some 1]⟩) ∧
      ∃ branch, Iterations secondThought.insts 1 branch [] ∧
        ∃ rounds, Iterations secondThought.insts 2 branch rounds ∧ rounds.getLast? = some (0, 1) := by
  have h : Regex.compile "(a)b|(a)c" {} = .ok ⟨"(a)b|(a)c", secondThought, {}⟩ := by cbv
  have hfind : Regex.find? ⟨"(a)b|(a)c", secondThought, {}⟩ (ascii "ac") =
      .ok (some ⟨ascii "ac", [some 0, some 2, none, none, some 0, some 1]⟩) := by cbv
  obtain ⟨-, -, -, -, -, -, -, branch, -, hgroups⟩ := captures_of_find? h hfind
  obtain ⟨rounds, hrounds, hnone, -⟩ := hgroups 0 (by decide)
  obtain rfl := hnone.mp rfl
  obtain ⟨rounds', hrounds', -, hslots⟩ := hgroups 1 (by decide)
  rcases hslots with ⟨hunset, -⟩ | ⟨a, b, hlast, ha, hb, -⟩
  · cases hunset
  · cases ha
    cases hb
    exact ⟨h, hfind, branch, hrounds, rounds', hrounds', hlast⟩

end Bytework.Pattern
