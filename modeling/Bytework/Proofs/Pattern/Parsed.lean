import Bytework.Pattern.Parser

/-!
# Trees of parsed patterns

What every tree that is read from a pattern satisfies, whatever the pattern.

* `Tree.WellFormed`: indices of groups lie below a number, and no least count exceeds its most.
* `AtomForm`, `atom_iff`: what an atom is, by the byte that it starts with.
* `quantify_wellFormed`, `atom_wellFormed`: the readers of one item give such trees.
* **`parse_wellFormed`**: so does the reader of patterns, with its own number of groups.
-/

namespace Bytework.Pattern

/-- The groups of a tree have indices below `groups`, and its repetitions have bounds in order. -/
def Tree.WellFormed (groups : Nat) : Tree → Prop
  | .group body index => (∀ i ∈ index, i < groups) ∧ body.WellFormed groups
  | .seq first second => first.WellFormed groups ∧ second.WellFormed groups
  | .alt left right => left.WellFormed groups ∧ right.WellFormed groups
  | .rep body least most _ => (∀ m ∈ most, least ≤ m) ∧ body.WellFormed groups
  | _ => True

namespace Tree.WellFormed

theorem mono {groups groups' : Nat} (hle : groups ≤ groups') {t : Tree} (h : t.WellFormed groups) :
    t.WellFormed groups' := by
  induction t with
  | group body index ih => exact ⟨fun i hi => Nat.lt_of_lt_of_le (h.1 i hi) hle, ih h.2⟩
  | seq first second ih₁ ih₂ => exact ⟨ih₁ h.1, ih₂ h.2⟩
  | alt left right ih₁ ih₂ => exact ⟨ih₁ h.1, ih₂ h.2⟩
  | rep body least most greedy ih => exact ⟨h.1, ih h.2⟩
  | _ => trivial

theorem ofItems {groups : Nat} {items : List Tree} (h : ∀ t ∈ items, t.WellFormed groups) :
    (Tree.ofItems items).WellFormed groups := by
  fun_induction Tree.ofItems items with
  | case1 => trivial
  | case2 t => exact h t List.mem_cons_self
  | case3 t u rest ih =>
    obtain ⟨ht, hrest⟩ := List.forall_mem_cons.mp h
    exact ⟨ht, ih hrest⟩

theorem ofBranches {groups : Nat} {branches : List Tree} (h : ∀ t ∈ branches, t.WellFormed groups) :
    (Tree.ofBranches branches).WellFormed groups := by
  fun_induction Tree.ofBranches branches with
  | case1 => trivial
  | case2 t => exact h t List.mem_cons_self
  | case3 t u rest ih =>
    obtain ⟨ht, hrest⟩ := List.forall_mem_cons.mp h
    exact ⟨ht, ih hrest⟩

end Tree.WellFormed

/-! ## Single items -/

variable {groups : Nat}

theorem escapeTree_wellFormed (b : UInt8) : (escapeTree b).WellFormed groups := by
  unfold escapeTree
  split <;> trivial

theorem map_eq_ok {ε α β : Type} {f : α → β} {x : Except ε α} {b : β} (h : x.map f = .ok b) :
    ∃ a, x = .ok a ∧ f a = b := by
  cases x with
  | error e => cases h
  | ok a => exact ⟨a, rfl, Except.ok.inj h⟩

theorem set_of_classTree {rest after : Bytes} {t : Tree} (h : classTree rest = .ok (t, after)) :
    ∃ items ranges negated, classItems true items = .ok (ranges, after) ∧
      t = .set ranges negated := by
  obtain ⟨⟨ranges, after'⟩, hitems, hr⟩ :
    ∃ r, classItems true _ = .ok r ∧ _ = (t, after) := map_eq_ok h
  cases hr
  exact ⟨_, ranges, _, hitems, rfl⟩

theorem classTree_wellFormed {rest after : Bytes} {t : Tree} (h : classTree rest = .ok (t, after)) :
    t.WellFormed groups := by
  obtain ⟨items, ranges, negated, -, rfl⟩ := set_of_classTree h
  trivial

/-- What an atom is, by its first byte and the rest of the pattern. -/
inductive AtomForm : UInt8 → Bytes → Tree → Bytes → Prop
  | any (rest : Bytes) : AtomForm (byte '.') rest .any rest
  | start (rest : Bytes) : AtomForm (byte '^') rest .start rest
  | stop (rest : Bytes) : AtomForm (byte '$') rest .stop rest
  | set {rest after : Bytes} {t : Tree} (h : classTree rest = .ok (t, after)) :
      AtomForm (byte '[') rest t after
  | escape (b : UInt8) (rest : Bytes) : AtomForm backslash (b :: rest) (escapeTree b) rest
  | byte {b : UInt8} (rest : Bytes) (hdot : b ≠ byte '.') (hcaret : b ≠ byte '^')
      (hdollar : b ≠ byte '$') (hbracket : b ≠ byte '[') (hescape : b ≠ backslash)
      (hmark : ¬ (mark? b).isSome) : AtomForm b rest (.byte b) rest

/-- **Reading an atom gives one of these forms**, and every form is read so. -/
theorem atom_iff {b : UInt8} {t : Tree} {rest after : Bytes} :
    atom b rest = .ok (t, after) ↔ AtomForm b rest t after := by
  constructor
  · intro h
    unfold atom at h
    split at h
    · rename_i hb
      cases h
      exact hb ▸ .any _
    split at h
    · rename_i hb
      cases h
      exact hb ▸ .start _
    split at h
    · rename_i hb
      cases h
      exact hb ▸ .stop _
    split at h
    · rename_i hb
      exact hb ▸ .set h
    split at h
    · rename_i hb
      split at h
      · cases h
      · cases h
        exact hb ▸ .escape _ _
    split at h
    · cases h
    · cases h
      exact .byte _ ‹_› ‹_› ‹_› ‹_› ‹_› ‹_›
  · intro h
    cases h with
    | any | start | stop | escape => rfl
    | set h => exact h
    | byte _ hdot hcaret hdollar hbracket hescape hmark =>
      rw [atom.eq_def, if_neg hdot, if_neg hcaret, if_neg hdollar, if_neg hbracket, if_neg hescape,
        if_neg hmark]

theorem atom_wellFormed {b : UInt8} {t : Tree} {rest after : Bytes}
    (h : atom b rest = .ok (t, after)) : t.WellFormed groups := by
  cases atom_iff.mp h with
  | any | start | stop | byte => trivial
  | set hclass => exact classTree_wellFormed hclass
  | escape => exact escapeTree_wellFormed _

/-- The marks and what they stand for. -/
theorem mark?_cases {b : UInt8} {least : Nat} {most : Option Nat} (h : mark? b = some (least, most)) :
    b = byte '*' ∧ least = 0 ∧ most = none ∨ b = byte '+' ∧ least = 1 ∧ most = none ∨
      b = byte '?' ∧ least = 0 ∧ most = some 1 := by
  unfold mark? at h
  split at h
  · cases h
    exact .inl ⟨‹_›, rfl, rfl⟩
  split at h
  · cases h
    exact .inr (.inl ⟨‹_›, rfl, rfl⟩)
  split at h
  · cases h
    exact .inr (.inr ⟨‹_›, rfl, rfl⟩)
  · cases h

theorem le_of_mark? {b : UInt8} {least : Nat} {most : Option Nat}
    (h : mark? b = some (least, most)) : ∀ m ∈ most, least ≤ m := by
  obtain ⟨-, rfl, rfl⟩ | ⟨-, rfl, rfl⟩ | ⟨-, rfl, rfl⟩ := mark?_cases h
  · exact fun m hm => absurd hm (Option.not_mem_none m)
  · exact fun m hm => absurd hm (Option.not_mem_none m)
  · exact fun m _ => Nat.zero_le m

theorem le_of_closeBounds {least least' : Nat} {most most' : Option Nat} {rest after : Bytes}
    (h : closeBounds least most rest = .ok (some (least', most', after))) :
    ∀ m ∈ most', least' ≤ m := by
  unfold closeBounds failAt at h
  split at h
  · simp at h
  split at h
  · split at h
    · simp at h
    · rename_i hle
      cases h
      rintro m rfl
      simpa using hle
  · simp at h

theorem le_of_bounds {rest after : Bytes} {least : Nat} {most : Option Nat}
    (h : bounds rest = .ok (some (least, most, after))) : ∀ m ∈ most, least ≤ m := by
  unfold bounds at h
  split at h
  · simp at h
  · simp at h
  split at h
  · simp at h
  · exact le_of_closeBounds h

theorem finishQuantifier_wellFormed {t u : Tree} {least : Nat} {most : Option Nat}
    {rest after : Bytes} (h : finishQuantifier t least most rest = .ok (u, after))
    (hle : ∀ m ∈ most, least ≤ m) (ht : t.WellFormed groups) : u.WellFormed groups := by
  unfold finishQuantifier failAt at h
  simp only at h
  split at h
  · split at h
    · simp at h
    · cases h
      exact ⟨hle, ht⟩
  · cases h
    exact ⟨hle, ht⟩

theorem quantify_wellFormed {t u : Tree} {rest after : Bytes} (h : quantify t rest = .ok (u, after))
    (ht : t.WellFormed groups) : u.WellFormed groups := by
  unfold quantify at h
  split at h
  · cases h
    exact ht
  split at h
  · rename_i hmark
    exact finishQuantifier_wellFormed h (le_of_mark? hmark) ht
  split at h
  · split at h
    · simp at h
    · cases h
      exact ht
    · rename_i hbounds
      exact finishQuantifier_wellFormed h (le_of_bounds hbounds) ht
  · cases h
    exact ht

/-! ## Whole patterns -/

namespace Level

/-- Everything that has been read of a group is well-formed. -/
structure WellFormed (groups : Nat) (level : Level) : Prop where
  branches : ∀ t ∈ level.branches, t.WellFormed groups
  items : ∀ t ∈ level.items, t.WellFormed groups

variable {level : Level}

theorem wellFormed_new : Level.new.WellFormed groups :=
  ⟨fun _ h => absurd h List.not_mem_nil, fun _ h => absurd h List.not_mem_nil⟩

theorem WellFormed.mono {groups' : Nat} (hle : groups ≤ groups') (h : level.WellFormed groups) :
    level.WellFormed groups' :=
  ⟨fun t ht => (h.branches t ht).mono hle, fun t ht => (h.items t ht).mono hle⟩

theorem WellFormed.push (h : level.WellFormed groups) {item : Tree} (hi : item.WellFormed groups) :
    (level.push item).WellFormed groups :=
  ⟨h.branches, List.forall_mem_cons.mpr ⟨hi, h.items⟩⟩

theorem WellFormed.finishBranch (h : level.WellFormed groups) :
    level.finishBranch.WellFormed groups := by
  refine ⟨List.forall_mem_cons.mpr ⟨.ofItems fun t ht => ?_, h.branches⟩,
    fun _ ht => absurd ht List.not_mem_nil⟩
  exact h.items t (List.mem_reverse.mp ht)

theorem WellFormed.tree (h : level.WellFormed groups) : level.tree.WellFormed groups :=
  .ofBranches fun t ht => h.finishBranch.branches t (List.mem_reverse.mp ht)

end Level

/-- An enclosing level is well-formed, and so is the index of the group opened in it. -/
def OpenGroup (groups : Nat) (entry : Level × Option Nat) : Prop :=
  entry.1.WellFormed groups ∧ ∀ i ∈ entry.2, i < groups

theorem OpenGroup.mono {groups' : Nat} (hle : groups ≤ groups') {entry : Level × Option Nat}
    (h : OpenGroup groups entry) : OpenGroup groups' entry :=
  ⟨h.1.mono hle, fun i hi => Nat.lt_of_lt_of_le (h.2 i hi) hle⟩

/-- Reading goes on from well-formed levels to a well-formed tree, and gives indices away only
upwards. -/
theorem readFrom_wellFormed {stack : List (Level × Option Nat)} {level : Level} {rest : Bytes}
    {t : Tree} {total : Nat} (hs : ∀ entry ∈ stack, OpenGroup groups entry)
    (hl : level.WellFormed groups) (h : readFrom stack level groups rest = .ok (t, total)) :
    t.WellFormed total := by
  fun_induction readFrom stack level groups rest with
  | case1 stack level groups _ =>
    cases h
    exact hl.tree
  | case3 stack level groups after ih => exact ih hs hl.finishBranch h
  | case5 stack level groups after _ _ _ ih =>
    exact ih (List.forall_mem_cons.mpr ⟨⟨hl, fun i hi => absurd hi (Option.not_mem_none i)⟩, hs⟩)
      Level.wellFormed_new h
  | case6 stack level groups after _ _ _ ih =>
    refine ih (List.forall_mem_cons.mpr ⟨⟨hl.mono (Nat.le_succ _), ?_⟩, fun entry he => ?_⟩)
      Level.wellFormed_new h
    · rintro i hi
      rw [Option.mem_some_iff] at hi
      omega
    · exact (hs entry he).mono (Nat.le_succ _)
  | case9 level groups after outer index stack item after' hq _ _ ih =>
    obtain ⟨⟨houter, hindex⟩, hstack⟩ := List.forall_mem_cons.mp hs
    exact ih hstack (houter.push (quantify_wellFormed hq ⟨hindex, hl.tree⟩)) h
  | case12 stack level groups b after _ _ _ item after' ha item' after'' hq ih =>
    exact ih hs (hl.push (quantify_wellFormed hq (atom_wellFormed ha))) h
  | case2 | case4 | case7 => simp [failAt] at h
  | case8 | case10 | case11 => cases h

/-- **Every parsed tree is well-formed** for the number of its groups. -/
theorem parse_wellFormed {pattern : Bytes} {t : Tree} {groups : Nat}
    (h : Tree.parse pattern = .ok (t, groups)) : t.WellFormed groups := by
  unfold Tree.parse at h
  rcases hr : readFrom [] .new 0 pattern with e | r
  · rw [hr] at h
    cases h
  · rw [hr] at h
    obtain rfl : r = (t, groups) := Except.ok.inj h
    exact readFrom_wellFormed (fun _ he => absurd he List.not_mem_nil) Level.wellFormed_new hr

end Bytework.Pattern
