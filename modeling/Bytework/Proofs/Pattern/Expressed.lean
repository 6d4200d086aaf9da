import Bytework.Proofs.Pattern.Reread

/-!
# Patterns say only expressible trees

The converse of reading written trees again: whatever a pattern is, the tree that is read from it is
expressible, so that its own pattern says the same.

* `members_of_classItems`, `single_of_atom`, `quantify_cases`: what the readers of one item give.
* `Tree.AllPlaced`, `Tree.capturesOf`: trees that stand one after the other.
* `Level.Holds`, `Opened`: what has been read of a group, and of the groups around it.
* **`expressible_of_parse`**: every tree of a pattern is expressible, and its groups are counted.
* **`expressible_iff`**: the expressible trees are those of patterns.
* **`parse_render_of_parse`**: the pattern of a tree that was read says this tree.
-/

namespace Bytework.Pattern

variable {b : UInt8} {rest after : Bytes} {ranges : List ByteRange}

/-! ## Classes -/

/-- The ranges of a class: at least one, each from its lower end to its higher one. -/
structure Members (ranges : List ByteRange) : Prop where
  ne_nil : ranges ≠ []
  le : ∀ r ∈ ranges, r.lo ≤ r.hi

theorem members_of_shorthand? (h : shorthand? b = some ranges) :
    Members ranges ∧ Members (complement ranges) := by
  have hnamed : ranges = digits ∨ ranges = wordBytes ∨ ranges = spaces := by
    unfold shorthand? at h
    split at h
    · exact .inl (Option.some.inj h).symm
    split at h
    · exact .inr (.inl (Option.some.inj h).symm)
    split at h
    · exact .inr (.inr (Option.some.inj h).symm)
    · cases h
  obtain rfl | rfl | rfl := hnamed
  all_goals exact ⟨⟨by decide, by decide⟩, by decide, by decide⟩

theorem members_of_escapeRanges? (h : escapeRanges? b = some ranges) : Members ranges := by
  rw [escapeRanges?, Option.map_eq_some_iff] at h
  obtain ⟨named, hnamed, rfl⟩ := h
  obtain ⟨hin, hout⟩ := members_of_shorthand? hnamed
  split
  · exact hout
  · exact hin

theorem members_of_closeRange {lo hi : UInt8} (h : closeRange lo hi rest = .ok (ranges, after)) :
    Members ranges := by
  unfold closeRange failAt at h
  split at h
  · cases h
  · rename_i hle
    cases h
    exact ⟨List.cons_ne_nil _ _, List.forall_mem_singleton.mpr (UInt8.not_lt.mp hle)⟩

theorem members_single (b : UInt8) : Members [.single b] :=
  ⟨List.cons_ne_nil _ _, List.forall_mem_singleton.mpr (UInt8.le_refl b)⟩

theorem members_of_rangeFrom {lo : UInt8} (h : rangeFrom lo rest = .ok (ranges, after)) :
    Members ranges := by
  unfold rangeFrom at h
  split at h
  · split at h
    · split at h
      · split at h
        · cases h
        · exact members_of_closeRange h
      · exact members_of_closeRange h
    · cases h
      exact members_single lo
  · cases h
    exact members_single lo

theorem members_of_classItem (h : classItem b rest = .ok (ranges, after)) : Members ranges := by
  unfold classItem at h
  split at h
  · split at h
    · cases h
    · split at h
      · rename_i hnamed
        cases h
        exact members_of_escapeRanges? hnamed
      · exact members_of_rangeFrom h
  · exact members_of_rangeFrom h

/-- A class that has just been opened has at least one item. -/
theorem members_of_classItems {first : Bool} (h : classItems first rest = .ok (ranges, after)) :
    (∀ r ∈ ranges, r.lo ≤ r.hi) ∧ (first = true → ranges ≠ []) := by
  fun_induction classItems first rest generalizing ranges with
  | case1 => cases h
  | case2 first b rest hclose =>
    cases h
    exact ⟨fun r hr => absurd hr List.not_mem_nil, fun hfirst => absurd hclose.2 (by simp [hfirst])⟩
  | case3 => cases h
  | case4 first b rest hb found after' hitem ih =>
    have hfound := members_of_classItem hitem
    cases hmore : classItems false after' with
    | error e =>
      rw [hmore] at h
      cases h
    | ok r =>
      rw [hmore] at h
      cases h
      refine ⟨fun r hr => ?_, fun _ hnil => hfound.ne_nil (List.append_eq_nil_iff.mp hnil).1⟩
      exact (List.mem_append.mp hr).elim (hfound.le r) ((ih hmore).1 r)

/-! ## Atoms -/

namespace Tree

/-- An atom without groups. -/
structure Single (t : Tree) : Prop where
  fits : t.Fits .atom
  captures_eq : t.captures = 0
  placed : ∀ n k, k ≤ maxNesting → t.Placed n k

theorem single_set (negated : Bool) (h : Members ranges) : (set ranges negated).Single :=
  ⟨.set negated h.ne_nil h.le, rfl, fun _ _ hk => ⟨trivial, hk⟩⟩

theorem single_byte (b : UInt8) : (byte b).Single := ⟨.byte b, rfl, fun _ _ hk => ⟨trivial, hk⟩⟩

end Tree

theorem single_of_classTree {t : Tree} (h : classTree rest = .ok (t, after)) : t.Single := by
  obtain ⟨items, ranges, negated, hitems, rfl⟩ := set_of_classTree h
  obtain ⟨hle, hne⟩ := members_of_classItems hitems
  exact Tree.single_set _ ⟨hne rfl, hle⟩

theorem single_of_escapeTree (b : UInt8) : (escapeTree b).Single := by
  unfold escapeTree
  split
  · rename_i hnamed
    exact Tree.single_set _ (members_of_shorthand? hnamed).1
  · exact Tree.single_byte _

theorem single_of_atom {t : Tree} (h : atom b rest = .ok (t, after)) : t.Single := by
  cases atom_iff.mp h with
  | any => exact ⟨.any, rfl, fun _ _ hk => ⟨trivial, hk⟩⟩
  | start => exact ⟨.start, rfl, fun _ _ hk => ⟨trivial, hk⟩⟩
  | stop => exact ⟨.stop, rfl, fun _ _ hk => ⟨trivial, hk⟩⟩
  | set hclass => exact single_of_classTree hclass
  | escape => exact single_of_escapeTree _
  | byte => exact Tree.single_byte b

/-! ## Quantifiers -/

section Quantified

variable {t u : Tree} {n k : Nat}

theorem quantify_cases (h : quantify t rest = .ok (u, after)) :
    u = t ∨ ∃ least most greedy, InBounds least most ∧ u = .rep t least most greedy := by
  obtain ⟨rfl, -, -⟩ | ⟨text, least, most, greedy, htext, rfl, -⟩ := quantify_iff.mp h
  · exact .inl rfl
  · exact .inr ⟨least, most, greedy, htext.inBounds, rfl⟩

theorem fits_of_quantify (h : quantify t rest = .ok (u, after)) (ht : t.Fits .atom) :
    u.Fits .item := by
  obtain rfl | ⟨least, most, greedy, hin, rfl⟩ := quantify_cases h
  · exact .plain ht
  · exact .rep greedy ht hin.least_le hin.most_le

theorem captures_of_quantify (h : quantify t rest = .ok (u, after)) : u.captures = t.captures := by
  obtain rfl | ⟨least, most, greedy, -, rfl⟩ := quantify_cases h <;> rfl

theorem placed_of_quantify (h : quantify t rest = .ok (u, after)) (ht : t.Placed n k) :
    u.Placed n k := by
  obtain rfl | ⟨least, most, greedy, -, rfl⟩ := quantify_cases h
  · exact ht
  · exact ⟨ht.numbered, ht.depth_le⟩

end Quantified

/-! ## Trees one after the other -/

namespace Tree

variable {n k : Nat} {t u : Tree} {ts us : List Tree}

/-- The number of capturing groups in some trees. -/
def capturesOf : List Tree → Nat
  | [] => 0
  | t :: ts => t.captures + capturesOf ts

/-- The trees may stand one after the other where `n` groups have been numbered and `k` are open. -/
def AllPlaced (k : Nat) : Nat → List Tree → Prop
  | _, [] => True
  | n, t :: ts => t.Placed n k ∧ AllPlaced k (n + t.captures) ts

theorem capturesOf_append (ts us : List Tree) :
    capturesOf (ts ++ us) = capturesOf ts + capturesOf us := by
  induction ts with
  | nil => simp [capturesOf]
  | cons t ts ih => rw [List.cons_append, capturesOf, ih, capturesOf, Nat.add_assoc]

theorem allPlaced_append :
    AllPlaced k n (ts ++ us) ↔ AllPlaced k n ts ∧ AllPlaced k (n + capturesOf ts) us := by
  induction ts generalizing n with
  | nil => simp [AllPlaced, capturesOf]
  | cons t ts ih =>
    rw [List.cons_append, AllPlaced, ih, AllPlaced, capturesOf, Nat.add_assoc, and_assoc]

theorem captures_ofItems (ts : List Tree) : (ofItems ts).captures = capturesOf ts := by
  fun_induction ofItems ts with
  | case1 => rfl
  | case2 t => simp [capturesOf]
  | case3 t u rest ih => simp [captures, ih, capturesOf]

theorem captures_ofBranches (ts : List Tree) : (ofBranches ts).captures = capturesOf ts := by
  fun_induction ofBranches ts with
  | case1 => rfl
  | case2 t => simp [capturesOf]
  | case3 t u rest ih => simp [captures, ih, capturesOf]

theorem placed_seq (hfirst : t.Placed n k) (hsecond : u.Placed (n + t.captures) k) :
    (seq t u).Placed n k :=
  ⟨⟨hfirst.numbered, hsecond.numbered⟩, by
    rw [depth, ← Nat.add_max_add_left]
    exact Nat.max_le.mpr ⟨hfirst.depth_le, hsecond.depth_le⟩⟩

theorem placed_alt (hleft : t.Placed n k) (hright : u.Placed (n + t.captures) k) :
    (alt t u).Placed n k :=
  ⟨⟨hleft.numbered, hright.numbered⟩, by
    rw [depth, ← Nat.add_max_add_left]
    exact Nat.max_le.mpr ⟨hleft.depth_le, hright.depth_le⟩⟩

theorem placed_group {body : Tree} {index : Option Nat} (hindex : ∀ i ∈ index, i = n)
    (h : body.Placed (n + if index.isSome then 1 else 0) (k + 1)) :
    (group body index).Placed n k := by
  have hdepth := h.depth_le
  refine ⟨?_, by rw [depth]; omega⟩
  cases index with
  | none => exact h.numbered
  | some i => exact ⟨hindex i rfl, h.numbered⟩

theorem placed_ofItems (hk : k ≤ maxNesting) (h : AllPlaced k n ts) : (ofItems ts).Placed n k := by
  fun_induction ofItems ts generalizing n with
  | case1 => exact ⟨trivial, hk⟩
  | case2 t => exact h.1
  | case3 t u rest ih => exact placed_seq h.1 (ih h.2)

theorem placed_ofBranches (hk : k ≤ maxNesting) (h : AllPlaced k n ts) :
    (ofBranches ts).Placed n k := by
  fun_induction ofBranches ts generalizing n with
  | case1 => exact ⟨trivial, hk⟩
  | case2 t => exact h.1
  | case3 t u rest ih => exact placed_alt h.1 (ih h.2)

theorem fits_ofItems_cons (h : ∀ u ∈ t :: ts, u.Fits .item) : (ofItems (t :: ts)).Fits .items := by
  induction ts generalizing t with
  | nil => exact .one (h t List.mem_cons_self)
  | cons u ts ih =>
    obtain ⟨ht, hts⟩ := List.forall_mem_cons.mp h
    exact .seq ht (ih hts)

theorem fits_ofItems (h : ∀ u ∈ ts, u.Fits .item) : (ofItems ts).Fits .branch := by
  cases ts with
  | nil => exact .empty
  | cons t ts => exact .some (fits_ofItems_cons h)

theorem fits_ofBranches (h : ∀ u ∈ t :: ts, u.Fits .branch) :
    (ofBranches (t :: ts)).Fits .whole := by
  induction ts generalizing t with
  | nil => exact .only (h t List.mem_cons_self)
  | cons u ts ih =>
    obtain ⟨ht, hts⟩ := List.forall_mem_cons.mp h
    exact .alt ht (ih hts)

end Tree

/-! ## Groups that are being read -/

variable {n k total : Nat}

namespace Level

variable {level : Level}

/-- What has been read of a group, in order. -/
def parts (level : Level) : List Tree := level.branches.reverse ++ level.items.reverse

/-- What has been read inside `k` open groups is as it should be: it started where `n` indices had
been given away, and now `total` have. -/
structure Holds (n k total : Nat) (level : Level) : Prop where
  depth_le : k ≤ maxNesting
  branches : ∀ t ∈ level.branches, t.Fits .branch
  items : ∀ t ∈ level.items, t.Fits .item
  placed : Tree.AllPlaced k n level.parts
  total_eq : total = n + Tree.capturesOf level.parts

theorem holds_new (hk : k ≤ maxNesting) : Level.new.Holds n k n :=
  ⟨hk, fun _ h => absurd h List.not_mem_nil, fun _ h => absurd h List.not_mem_nil, trivial, rfl⟩

theorem Holds.push (h : level.Holds n k total) {item : Tree} (hfits : item.Fits .item)
    (hplaced : item.Placed total k) : (level.push item).Holds n k (total + item.captures) := by
  have hparts : (level.push item).parts = level.parts ++ [item] := by
    simp [parts, Level.push]
  refine ⟨h.depth_le, h.branches, List.forall_mem_cons.mpr ⟨hfits, h.items⟩, ?_, ?_⟩
  · rw [hparts, Tree.allPlaced_append, ← h.total_eq]
    exact ⟨h.placed, hplaced, trivial⟩
  · rw [hparts, Tree.capturesOf_append, h.total_eq]
    simp [Tree.capturesOf, Nat.add_assoc]

theorem Holds.finishBranch (h : level.Holds n k total) : level.finishBranch.Holds n k total := by
  have hplaced := Tree.allPlaced_append.mp h.placed
  have hparts : level.finishBranch.parts =
      level.branches.reverse ++ [Tree.ofItems level.items.reverse] := by
    simp [parts, Level.finishBranch]
  refine ⟨h.depth_le, List.forall_mem_cons.mpr ⟨Tree.fits_ofItems fun t ht => ?_, h.branches⟩,
    fun _ ht => absurd ht List.not_mem_nil, ?_, ?_⟩
  · exact h.items t (List.mem_reverse.mp ht)
  · rw [hparts, Tree.allPlaced_append]
    exact ⟨hplaced.1, Tree.placed_ofItems h.depth_le hplaced.2, trivial⟩
  · rw [h.total_eq, hparts, parts, Tree.capturesOf_append, Tree.capturesOf_append]
    simp [Tree.capturesOf, Tree.captures_ofItems]

theorem Holds.fits_tree (h : level.Holds n k total) : level.tree.Fits .whole := by
  have hbranches : ∀ t ∈ level.finishBranch.branches.reverse, t.Fits .branch := fun t ht =>
    h.finishBranch.branches t (List.mem_reverse.mp ht)
  rw [Level.tree]
  cases hreverse : level.finishBranch.branches.reverse with
  | nil =>
    exact absurd (List.reverse_eq_nil_iff.mp hreverse) (List.cons_ne_nil _ _)
  | cons t ts =>
    rw [hreverse] at hbranches
    exact Tree.fits_ofBranches hbranches

theorem parts_finishBranch (level : Level) :
    level.finishBranch.parts = level.finishBranch.branches.reverse := by
  simp [parts, Level.finishBranch]

theorem Holds.placed_tree (h : level.Holds n k total) : level.tree.Placed n k :=
  Tree.placed_ofBranches h.depth_le (level.parts_finishBranch ▸ h.finishBranch.placed)

theorem Holds.total_tree (h : level.Holds n k total) : total = n + level.tree.captures := by
  rw [h.finishBranch.total_eq, parts_finishBranch, Level.tree, Tree.captures_ofBranches]

end Level

/-- The levels around one that started where `n` indices had been given away. -/
def Opened : List (Level × Option Nat) → Nat → Prop
  | [], n => n = 0
  | (outer, index) :: stack, n =>
    ∃ m total, Opened stack m ∧ outer.Holds m stack.length total ∧ (∀ i ∈ index, i = total) ∧
      n = total + if index.isSome then 1 else 0

/-- Reading goes on from groups that hold such trees to an expressible tree. -/
theorem readFrom_expressible {stack : List (Level × Option Nat)} {level : Level} {groups : Nat}
    {t : Tree} (hopened : Opened stack n) (hlevel : level.Holds n stack.length groups)
    (h : readFrom stack level groups rest = .ok (t, total)) :
    t.Expressible ∧ total = t.captures := by
  fun_induction readFrom stack level groups rest generalizing n with
  | case1 stack level groups hempty =>
    obtain rfl := List.isEmpty_iff.mp hempty
    obtain rfl : n = 0 := hopened
    cases h
    have hplaced := hlevel.placed_tree
    refine ⟨⟨hlevel.fits_tree, hplaced.numbered, ?_⟩, ?_⟩
    · have := hplaced.depth_le
      rw [List.length_nil] at this
      omega
    · rw [hlevel.total_tree, Nat.zero_add]
  | case3 stack level groups after ih => exact ih hopened hlevel.finishBranch h
  | case5 stack level groups after hdeep _ _ ih =>
    have hlt : stack.length < maxNesting := Nat.lt_of_le_of_ne hlevel.depth_le hdeep
    exact ih ⟨n, groups, hopened, hlevel, fun i hi => absurd hi (Option.not_mem_none i), rfl⟩
      (Level.holds_new hlt) h
  | case6 stack level groups after hdeep _ _ ih =>
    have hlt : stack.length < maxNesting := Nat.lt_of_le_of_ne hlevel.depth_le hdeep
    refine ih ⟨n, groups, hopened, hlevel, fun i hi => ?_, rfl⟩ (Level.holds_new hlt) h
    exact (Option.mem_some_iff.mp hi).symm
  | case9 level groups after outer index stack item after' hq _ _ ih =>
    obtain ⟨m, before, hstack, houter, hindex, rfl⟩ := hopened
    have hgroup : (Tree.group level.tree index).Placed before stack.length :=
      Tree.placed_group hindex hlevel.placed_tree
    have hcaptures : groups = before + item.captures := by
      rw [hlevel.total_tree, captures_of_quantify hq, Tree.captures, Nat.add_assoc]
    have hpushed := houter.push (fits_of_quantify hq (.group index hlevel.fits_tree))
      (placed_of_quantify hq hgroup)
    rw [← hcaptures] at hpushed
    exact ih hstack hpushed h
  | case12 stack level groups b after _ _ _ item after' ha item' after'' hq ih =>
    have hsingle := single_of_atom ha
    have hpushed := hlevel.push (fits_of_quantify hq hsingle.fits)
      (placed_of_quantify hq (hsingle.placed _ _ hlevel.depth_le))
    rw [captures_of_quantify hq, hsingle.captures_eq, Nat.add_zero] at hpushed
    exact ih hopened hpushed h
  | case2 | case4 | case7 => cases h
  | case8 | case10 | case11 => cases h

namespace Tree

variable {pattern : Bytes} {t : Tree} {groups : Nat}

/-- **Every tree of a pattern is expressible**, and its capturing groups are counted. -/
theorem expressible_of_parse (h : parse pattern = .ok (t, groups)) :
    t.Expressible ∧ groups = t.captures := by
  unfold parse at h
  cases hr : readFrom [] .new 0 pattern with
  | error e =>
    rw [hr] at h
    cases h
  | ok r =>
    rw [hr] at h
    cases h
    have hopened : Opened [] 0 := rfl
    exact readFrom_expressible hopened (Level.holds_new (Nat.zero_le _)) hr

/-- **The expressible trees are those that patterns say.** -/
theorem expressible_iff : t.Expressible ↔ ∃ pattern groups, parse pattern = .ok (t, groups) :=
  ⟨fun h => ⟨t.render, t.captures, parse_eq_ok_iff.mpr (readFrom_render h)⟩,
    fun ⟨_, _, h⟩ => (expressible_of_parse h).1⟩

/-- **What was read from a pattern is read from its own pattern, too.** -/
theorem parse_render_of_parse (h : parse pattern = .ok (t, groups)) :
    parse t.render = .ok (t, groups) := by
  obtain ⟨hexpressible, rfl⟩ := expressible_of_parse h
  exact parse_eq_ok_iff.mpr (readFrom_render hexpressible)

end Tree

end Bytework.Pattern
