import Bytework.Proofs.Pattern.Realize

/-!
# The leftmost match

What a search finds with a compiled pattern, in terms of the tree of the pattern.

* `Tree.MatchesPiece`: a tree matches a piece of a text, at a place where a match may start.
* `matches_of_backtrackFrom`, `not_matches_of_backtrackFrom`: what one start finds.
* `leftmost_of_parse`: what is found with the program of a pattern of bytes.
* **`leftmost_of_compile`**: a compiled pattern finds a piece that its tree matches, as far to the
  left as there is one.
-/

namespace Bytework.Pattern

/-! ## One start -/

section Start

variable {p : Program} {flags : Flags} {text : Bytes} {ungreedy : Bool} {t : Tree}
  {groups start : Nat}

/-- From a start that fails, the tree matches nothing. -/
theorem not_matches_of_backtrackFrom (hp : p.Frames ungreedy t groups) (ht : t.WellFormed groups)
    (h : backtrackFrom p flags text start = .ok none) (j : Nat) :
    ¬ t.Matches flags text start j := by
  intro hm
  have hfirst : Moves p.insts flags text.toArray (0, start) (1, start) :=
    ⟨_, hp.first, List.mem_singleton.mpr rfl⟩
  have hlast : Moves p.insts flags text.toArray (t.size + 1, j) (t.size + 2, j) :=
    ⟨_, hp.last, List.mem_singleton.mpr rfl⟩
  have hbody := (realizes_of_laid ht hp.body).reaches hm
  rw [Nat.add_comm 1] at hbody
  exact explore_ne_fail (.head hfirst (hbody.tail hlast)) hp.accept h

/-- From a start that does not fail, the tree matches, and the first two slots say what. -/
theorem matches_of_backtrackFrom (hp : p.Frames ungreedy t groups) (ht : t.WellFormed groups)
    {out : Slots} (h : backtrackFrom p flags text start = .ok (some out)) :
    ∃ j, t.Matches flags text start j ∧ out.take 2 = [some start, some j] := by
  obtain ⟨n, hn⟩ := accepts_of_explore _ _ _ h
  obtain ⟨m, -, s, hs, hbody⟩ := hn.step hp.first Inst.noConfusion
  obtain rfl : s = (1, start) := List.mem_singleton.mp hs
  obtain ⟨j, m', slots, -, hm, hslots, hend⟩ := (realizes_of_laid ht hp.body).exits hbody
  rw [Nat.add_comm 1] at hend
  obtain ⟨k, -, s, hs, haccept⟩ := hend.step hp.last Inst.noConfusion
  obtain rfl : s = (t.size + 2, j) := List.mem_singleton.mp hs
  refine ⟨j, hm, ?_⟩
  have hout : out = slots.set 1 (some j) := by
    cases k with
    | zero => exact haccept.2
    | succ k =>
      obtain ⟨inst, hi, s, hs, -⟩ := haccept
      obtain rfl : inst = .accept := Option.some.inj (hi.symm.trans hp.accept)
      exact absurd hs List.not_mem_nil
  rw [hout, List.take_set, hslots]
  rfl

end Start

/-! ## The starts in turn -/

/-- An answer of the first branch that does not fail. -/
theorem split_of_firstOf {α : Type} {f : α → Answer} {xs : List α} {slots : Slots}
    (h : firstOf (xs.map f) = .ok (some slots)) :
    ∃ before x after, xs = before ++ x :: after ∧ f x = .ok (some slots) ∧
      ∀ y ∈ before, f y = .ok none := by
  induction xs with
  | nil => cases h
  | cons x xs ih =>
    rw [List.map_cons, firstOf_cons] at h
    rcases hx : f x with e | _ | found
    · rw [hx] at h
      cases h
    · rw [hx] at h
      obtain ⟨before, y, after, rfl, hy, hbefore⟩ := ih h
      exact ⟨x :: before, y, after, rfl, hy, List.forall_mem_cons.mpr ⟨hx, hbefore⟩⟩
    · rw [hx] at h
      exact ⟨[], x, xs, rfl, hx.trans h, fun y hy => absurd hy List.not_mem_nil⟩

theorem Flags.mem_starts_iff {flags : Flags} {last i : Nat} :
    i ∈ flags.starts last ↔ i ≤ last ∧ (flags.anchored = true → i = 0) := by
  unfold starts
  split
  · rename_i h
    simp only [List.mem_singleton, h, forall_const]
    omega
  · rename_i h
    rw [List.mem_range, Nat.lt_succ_iff]
    exact ⟨fun hi => ⟨hi, fun ha => absurd ha h⟩, And.left⟩

theorem Flags.pairwise_starts (flags : Flags) (last : Nat) :
    (flags.starts last).Pairwise (· < ·) := by
  unfold starts
  split
  · exact List.pairwise_singleton _ _
  · exact List.pairwise_lt_range

/-- A tree matches a piece of a text, at a place where a match may start. -/
def Tree.MatchesPiece (flags : Flags) (text : Bytes) (t : Tree) (i j : Nat) : Prop :=
  i ≤ j ∧ j ≤ text.length ∧ (flags.anchored = true → i = 0) ∧ t.Matches flags text i j

section Search

variable {p : Program} {flags : Flags} {text : Bytes} {ungreedy : Bool} {t : Tree} {groups : Nat}

theorem not_matchesPiece_of_search (hp : p.Frames ungreedy t groups) (ht : t.WellFormed groups)
    (h : search p flags text = .ok none) (i j : Nat) : ¬ t.MatchesPiece flags text i j := by
  rintro ⟨hij, hj, hanchored, hm⟩
  rw [search_eq, backtrack, firstOf_eq_fail_iff] at h
  have hi : i ∈ flags.starts text.length := Flags.mem_starts_iff.mpr ⟨hij.trans hj, hanchored⟩
  exact not_matches_of_backtrackFrom hp ht (h _ (List.mem_map.mpr ⟨i, hi, rfl⟩)) j hm

theorem matchesPiece_of_search (hp : p.Frames ungreedy t groups) (ht : t.WellFormed groups)
    {out : Slots} (h : search p flags text = .ok (some out)) :
    ∃ i j, t.MatchesPiece flags text i j ∧ out.take 2 = [some i, some j] ∧
      ∀ i' j', t.MatchesPiece flags text i' j' → i ≤ i' := by
  rw [search_eq, backtrack] at h
  obtain ⟨before, i, after, hstarts, hi, hbefore⟩ := split_of_firstOf h
  have hmem : i ∈ flags.starts text.length := by
    rw [hstarts]
    exact List.mem_append_right _ List.mem_cons_self
  obtain ⟨hle, hanchored⟩ := Flags.mem_starts_iff.mp hmem
  obtain ⟨j, hm, hout⟩ := matches_of_backtrackFrom hp ht hi
  obtain ⟨hij, hj⟩ := Tree.bounds_of_matches hm hle
  refine ⟨i, j, ⟨hij, hj, hanchored, hm⟩, hout, ?_⟩
  rintro i' j' ⟨hij', hj', hanchored', hm'⟩
  have hmem' : i' ∈ before ++ i :: after := by
    rw [← hstarts]
    exact Flags.mem_starts_iff.mpr ⟨hij'.trans hj', hanchored'⟩
  -- an earlier start has failed, and a later one is no smaller
  have hsorted := flags.pairwise_starts text.length
  rw [hstarts, List.pairwise_append, List.pairwise_cons] at hsorted
  rcases List.mem_append.mp hmem' with hi' | hi'
  · exact absurd hm' (not_matches_of_backtrackFrom hp ht (hbefore i' hi') j')
  · rcases List.mem_cons.mp hi' with rfl | hi'
    · exact Nat.le_refl i'
    · exact (hsorted.2.1.1 i' hi').le

theorem length_of_search {out : Slots} (h : search p flags text = .ok (some out)) :
    out.length = p.slotCount := by
  rw [search_eq, backtrack] at h
  obtain ⟨_, _, _, -, hstart, -⟩ := split_of_firstOf h
  obtain ⟨n, hn⟩ := accepts_of_explore _ _ _ hstart
  rw [hn.length_eq, List.length_replicate]

end Search

/-! ## Compiled patterns -/

/-- The whole match is noted in the first two slots. -/
theorem Match.span?_zero {text : Bytes} {slots : Slots} {i j : Nat}
    (h : slots.take 2 = [some i, some j]) (hij : i ≤ j) :
    (Match.mk text slots).span? 0 = some (i, j) := by
  obtain ⟨rest, rfl⟩ : ∃ rest, slots = some i :: some j :: rest := by
    rcases slots with _ | ⟨a, _ | ⟨b, rest⟩⟩
    · cases h
    · cases h
    · cases h
      exact ⟨rest, rfl⟩
  simp [Match.span?, hij]

/-- A search with the program of a pattern finds the leftmost piece that the tree of the pattern
matches, if there is one. -/
theorem leftmost_of_parse {pattern : Bytes} (regex : Regex) {t : Tree} {groups : Nat}
    (h : Pattern.compile regex.options.ungreedy pattern = .ok regex.program)
    (hparse : Tree.parse pattern = .ok (t, groups)) (text : Bytes) :
    ∃ found, regex.find? text = .ok found ∧ regex.isMatch text = .ok found.isSome ∧
      (found = none → ∀ i j, ¬ t.MatchesPiece regex.options.flags text i j) ∧
      ∀ m ∈ found, t.MatchesPiece regex.options.flags text m.start m.stop ∧
        m.slots.length = 2 * (groups + 1) ∧
        ∀ i j, t.MatchesPiece regex.options.flags text i j → m.start ≤ i := by
  obtain ⟨t', groups', hparse', ht, hp⟩ := frames_of_compile h
  obtain ⟨rfl, rfl⟩ := Prod.mk.inj (Except.ok.inj (hparse'.symm.trans hparse))
  obtain ⟨found, hfound⟩ := (hp.wellFormed ht).backtrack_ok regex.options.flags text
  rw [← search_eq] at hfound
  refine ⟨found.map (Match.mk text), by rw [Regex.find?, hfound]; rfl, ?_, fun hnone => ?_,
    fun m hm => ?_⟩
  · rw [Regex.isMatch, hfound, Option.isSome_map]
    rfl
  · rw [Option.map_eq_none_iff] at hnone
    exact not_matchesPiece_of_search hp ht (hnone ▸ hfound)
  · obtain ⟨out, rfl, rfl⟩ := Option.map_eq_some_iff.mp hm
    obtain ⟨i, j, hpiece, hout, hleast⟩ := matchesPiece_of_search hp ht hfound
    have hspan : (Match.mk text out).span? 0 = some (i, j) := Match.span?_zero hout hpiece.1
    rw [Match.start, Match.stop, hspan]
    refine ⟨hpiece, ?_, hleast⟩
    rw [length_of_search hfound, Program.slotCount, hp.groups_eq]

/-- **A compiled pattern finds the leftmost match.** There is a match exactly if the tree of the
pattern matches a piece of the text; the match is such a piece, and none starts before it. -/
theorem leftmost_of_compile {pattern : String} {options : Options} {regex : Regex}
    (h : Regex.compile pattern options = .ok regex) :
    ∃ tree groups, Tree.parse (Bytes.ofText pattern) = .ok (tree, groups) ∧
      ∀ text, ∃ found, regex.find? text = .ok found ∧
        regex.isMatch text = .ok found.isSome ∧
        (found.isSome = true ↔ ∃ i j, tree.MatchesPiece options.flags text i j) ∧
        ∀ m ∈ found, tree.MatchesPiece options.flags text m.start m.stop ∧
          ∀ i j, tree.MatchesPiece options.flags text i j → m.start ≤ i := by
  obtain ⟨p, hcompile, rfl⟩ := map_eq_ok h
  obtain ⟨tree, groups, hparse, ht, hp⟩ := frames_of_compile hcompile
  refine ⟨tree, groups, hparse, fun text => ?_⟩
  obtain ⟨found, hfound⟩ := (hp.wellFormed ht).backtrack_ok options.flags text
  rw [← search_eq] at hfound
  refine ⟨found.map (Match.mk text), ?_, ?_, ?_⟩
  · rw [Regex.find?, hfound]
    rfl
  · rw [Regex.isMatch, hfound, Option.isSome_map]
    rfl
  cases found with
  | none =>
    refine ⟨⟨fun hsome => absurd hsome Bool.false_ne_true, ?_⟩,
      fun m hm => absurd hm (Option.not_mem_none m)⟩
    rintro ⟨i, j, hm⟩
    exact absurd hm (not_matchesPiece_of_search hp ht hfound i j)
  | some out =>
    obtain ⟨i, j, hm, hout, hleast⟩ := matchesPiece_of_search hp ht hfound
    refine ⟨⟨fun _ => ⟨i, j, hm⟩, fun _ => rfl⟩, ?_⟩
    rintro m hmem
    obtain rfl : Match.mk text out = m := Option.some.inj hmem
    have hspan : (Match.mk text out).span? 0 = some (i, j) := Match.span?_zero hout hm.1
    rw [Match.start, Match.stop, hspan]
    exact ⟨hm, hleast⟩

theorem matchesPiece_nestedStar :
    Regex.compile "(a*)*" {} = .ok ⟨"(a*)*", nestedStar, {}⟩ ∧
      ∃ tree groups, Tree.parse (Bytes.ofText "(a*)*") = .ok (tree, groups) ∧
        tree.MatchesPiece (Options.flags {}) [97, 97] 0 2 := by
  have h : Regex.compile "(a*)*" {} = .ok ⟨"(a*)*", nestedStar, {}⟩ := by cbv
  obtain ⟨tree, groups, hparse, hfind⟩ := leftmost_of_compile h
  obtain ⟨found, hfound, -, -, hmatch⟩ := hfind [97, 97]
  have hslots : Regex.find? ⟨"(a*)*", nestedStar, {}⟩ [97, 97] =
      .ok (some ⟨[97, 97], [some 0, some 2, some 0, some 2]⟩) := by cbv
  rw [hslots] at hfound
  obtain rfl := Except.ok.inj hfound
  obtain ⟨hpiece, -⟩ := hmatch _ rfl
  exact ⟨h, tree, groups, hparse, hpiece⟩

end Bytework.Pattern
