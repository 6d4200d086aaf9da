import Bytework.Proofs.Pattern.Enclosed
import Bytework.Proofs.Pattern.InStep
import Bytework.Proofs.Pattern.Leftmost

/-!
# Anchored patterns

Marks for the start and the end of the text around a pattern, against a search that is anchored.

* `program_of_compile`: a compiled program, as the code of the tree of its pattern.
* `backtrackFrom_start`, `search_start`: the code of a tree behind a mark for the start.
* `search_eq_backtrackFrom`: a search in which only the start of the text can succeed.
* `exists_matchesPiece_start_stop`, `exists_matchesPiece_stop`: what a tree between marks matches.
* **`find?_wrapped`**: anchored by a mark or by an option, a pattern finds the same.
-/

namespace Bytework.Pattern

/-! ## Wrapped patterns -/

theorem ofText_append (s t : String) :
    Bytes.ofText (s ++ t) = Bytes.ofText s ++ Bytes.ofText t := by
  simp only [Bytes.ofText, Bytes.ofChars, String.toList_append, List.flatMap_append]

theorem ofText_start (pattern : String) :
    Bytes.ofText ("^(?:" ++ pattern ++ ")") = byte '^' :: grouped (Bytes.ofText pattern) [] := by
  rw [ofText_append, ofText_append, List.append_assoc]
  rfl

theorem ofText_stop (pattern : String) :
    Bytes.ofText ("(?:" ++ pattern ++ ")$") = grouped (Bytes.ofText pattern) [byte '$'] := by
  rw [ofText_append, ofText_append, List.append_assoc]
  rfl

theorem ofText_start_stop (pattern : String) :
    Bytes.ofText ("^(?:" ++ pattern ++ ")$") =
      byte '^' :: grouped (Bytes.ofText pattern) [byte '$'] := by
  rw [ofText_append, ofText_append, List.append_assoc]
  rfl

theorem program_of_compile {ungreedy : Bool} {pattern : Bytes} {p : Program}
    (h : compile ungreedy pattern = .ok p) :
    ∃ t groups, Tree.parse pattern = .ok (t, groups) ∧ t.WellFormed groups ∧
      p = ⟨codeBehind ungreedy t [.save 0], groups⟩ := by
  obtain ⟨t, groups, hparse, hprogram⟩ := compile_eq_ok_iff.mp h
  rw [Program.ofTree?_eq] at hprogram
  split at hprogram
  · exact ⟨t, groups, hparse, parse_wellFormed hparse, (Option.some.inj hprogram).symm⟩
  · cases hprogram

theorem codeBehind_start (ungreedy : Bool) (t : Tree) :
    codeBehind ungreedy (.seq .start (.group t none)) [.save 0] =
      codeBehind ungreedy t [.save 0, .assertStart] := rfl

/-! ## The mark for the start -/

section Start

variable {flags flags' : Flags} {text : Bytes} {ungreedy : Bool} {t : Tree} {groups start : Nat}

theorem next_anchored (options : Options) (text : Array UInt8) (anchored : Bool) (inst : Inst)
    (s : State) : inst.next (Options.flags { options with anchored }) text s =
      inst.next options.flags text s := by
  cases inst <;> rfl

/-- The first step notes where the match starts. -/
theorem backtrackFrom_eq {before : List Inst} :
    backtrackFrom ⟨codeBehind ungreedy t (.save 0 :: before), groups⟩ flags text start =
      explore (codeBehind ungreedy t (.save 0 :: before)) flags text.toArray [(0, start)]
        ((List.replicate (2 * (groups + 1)) none).set 0 (some start)) (1, start) := by
  have hg : (Inst.save 0).GoesOn (List.replicate (2 * (groups + 1)) (none : Option Nat)).length := by
    refine ⟨Inst.noConfusion, fun slot hslot => ?_⟩
    rw [← Option.some.inj hslot, List.length_replicate]
    omega
  have hi : (codeBehind ungreedy t (.save 0 :: before))[0]? = some (.save 0) := rfl
  exact (explore_eq hi List.not_mem_nil hg).trans (orElse_fail_right _)

/-- Behind a mark for the start, the start is the only place where a search goes on. -/
theorem backtrackFrom_start (h : flags.multiline = false) :
    backtrackFrom ⟨codeBehind ungreedy t [.save 0, .assertStart], groups⟩ flags text start =
      if start = 0 then
        explore (codeBehind ungreedy t [.save 0, .assertStart]) flags text.toArray
          [(1, start), (0, start)] ((List.replicate (2 * (groups + 1)) none).set 0 (some start))
          (2, start)
      else .ok none := by
  have hg : Inst.assertStart.GoesOn
      ((List.replicate (2 * (groups + 1)) none).set 0 (some start)).length :=
    ⟨Inst.noConfusion, fun slot hslot => absurd hslot (Option.not_mem_none slot)⟩
  have hi : (codeBehind ungreedy t [.save 0, .assertStart])[1]? = some .assertStart := rfl
  have hstart : flags.atStart text.toArray start = true ↔ start = 0 := by
    simp [Flags.atStart_iff, h]
  rw [backtrackFrom_eq, explore_eq hi (by simp) hg]
  simp only [Inst.next, hstart]
  split
  · exact orElse_fail_right _
  · rfl

/-- A search in which only the start of the text can succeed. -/
theorem search_eq_backtrackFrom {p : Program}
    (h : ∀ start ∈ flags.starts text.length, start ≠ 0 → backtrackFrom p flags text start = .ok none) :
    search p flags text = backtrackFrom p flags text 0 := by
  obtain ⟨rest, hrest, hpos⟩ : ∃ rest, flags.starts text.length = 0 :: rest ∧ ∀ i ∈ rest, i ≠ 0 := by
    unfold Flags.starts
    split
    · exact ⟨[], rfl, fun i hi => absurd hi List.not_mem_nil⟩
    · exact ⟨_, List.range_succ_eq_map, fun i hi hzero => by simp [hzero] at hi⟩
  have hfail : firstOf (rest.map (backtrackFrom p flags text)) = .ok none := by
    rw [firstOf_eq_fail_iff]
    intro answer hanswer
    obtain ⟨i, hi, rfl⟩ := List.mem_map.mp hanswer
    exact h i (hrest ▸ List.mem_cons_of_mem _ hi) (hpos i hi)
  rw [search_eq, backtrack, hrest, List.map_cons, firstOf_cons, hfail, orElse_fail_right]

/-- **A mark for the start is as good as an anchored search.** -/
theorem search_start {options : Options} (h : options.multiline = false) (text : Bytes) :
    search ⟨codeBehind ungreedy t [.save 0, .assertStart], groups⟩
        (Options.flags { options with anchored := false }) text =
      search ⟨codeBehind ungreedy t [.save 0], groups⟩
        (Options.flags { options with anchored := true }) text := by
  have hplain : ∀ start ∈ (Options.flags { options with anchored := true }).starts text.length,
      start ≠ 0 → backtrackFrom ⟨codeBehind ungreedy t [.save 0], groups⟩
        (Options.flags { options with anchored := true }) text start = .ok none :=
    fun start hstart hne => absurd ((Flags.mem_starts_iff.mp hstart).2 rfl) hne
  have hmark : ∀ start, start ≠ 0 →
      backtrackFrom ⟨codeBehind ungreedy t [.save 0, .assertStart], groups⟩
        (Options.flags { options with anchored := false }) text start = .ok none := by
    intro start hne
    rw [backtrackFrom_start h, if_neg hne]
  rw [search_eq_backtrackFrom hplain, search_eq_backtrackFrom fun start _ => hmark start,
    backtrackFrom_start h, if_pos rfl, backtrackFrom_eq]
  have hstep : InStep 1 1 (codeBehind ungreedy t [.save 0])
      (codeBehind ungreedy t [.save 0, .assertStart]) (Options.flags { options with anchored := true })
      (Options.flags { options with anchored := false }) text.toArray text.toArray :=
    inStep_of_codeBehind ungreedy t [.save 0] [.save 0, .assertStart] rfl
      (next_anchored { options with anchored := true } text.toArray false)
  refine explore_inStep hstep [(0, 0)] _ (1, 0) (Nat.le_refl 1) ?_
  rintro ⟨pc, i⟩ -
  simp [State.shift]

end Start

/-! ## Whole texts -/

section Whole

variable {flags : Flags} {text : Bytes} {t : Tree} {i j : Nat}

/-- What a tree matches does not depend on where a search may start. -/
theorem matches_anchored (options : Options) (anchored : Bool) :
    t.Matches (Options.flags { options with anchored }) text i j ↔
      t.Matches options.flags text i j := by
  suffices h : t.Matches (Options.flags { options with anchored }) text =
      t.Matches options.flags text by rw [h]
  induction t with
  | empty | byte | any | set | start | stop => rfl
  | group body index ih => exact ih
  | seq first second ih₁ ih₂ =>
    funext i j
    rw [Tree.Matches, Tree.Matches, ih₁, ih₂]
  | alt left right ih₁ ih₂ =>
    funext i j
    rw [Tree.Matches, Tree.Matches, ih₁, ih₂]
  | rep body least most greedy ih =>
    funext i j
    rw [Tree.Matches, Tree.Matches, ih]

/-- Between both marks, the whole of the text. -/
theorem exists_matchesPiece_start_stop {options : Options} (h : options.multiline = false) :
    (∃ i j, (Tree.seq .start (.seq (.group t none) .stop)).MatchesPiece options.flags text i j) ↔
      t.Matches options.flags text 0 text.length := by
  have hline : options.flags.multiline = false := h
  simp only [Tree.MatchesPiece, Tree.Matches, hline, Bool.false_eq_true, false_and, or_false]
  constructor
  · rintro ⟨_, _, -, -, -, _, ⟨rfl, rfl⟩, _, hm, rfl, rfl⟩
    exact hm
  · intro hm
    exact ⟨0, _, Nat.zero_le _, Nat.le_refl _, fun _ => rfl, 0, ⟨rfl, rfl⟩, _, hm, rfl, rfl⟩

/-- From the start on and up to the mark for the end, the whole of the text. -/
theorem exists_matchesPiece_stop {options : Options} (h : options.multiline = false) :
    (∃ i j, (Tree.seq (.group t none) .stop).MatchesPiece
        (Options.flags { options with anchored := true }) text i j) ↔
      t.Matches options.flags text 0 text.length := by
  have hline : (Options.flags { options with anchored := true }).multiline = false := h
  simp only [Tree.MatchesPiece, Tree.Matches, matches_anchored, hline, Bool.false_eq_true, false_and,
    or_false]
  constructor
  · rintro ⟨_, _, -, -, hstart, _, hm, rfl, rfl⟩
    rwa [hstart rfl] at hm
  · intro hm
    exact ⟨0, _, Nat.zero_le _, Nat.le_refl _, fun _ => rfl, _, hm, rfl, rfl⟩

/-- Whether a search succeeds, in terms of the tree. -/
theorem isMatch_of_parse {pattern : String} {options : Options} {regex : Regex} {groups : Nat}
    (h : Regex.compile pattern options = .ok regex)
    (hparse : ∀ r, Tree.parse (Bytes.ofText pattern) = .ok r → r = (t, groups)) (text : Bytes) :
    ∃ found : Bool, regex.isMatch text = .ok found ∧
      (found = true ↔ ∃ i j, t.MatchesPiece options.flags text i j) := by
  obtain ⟨p, hcompile, rfl⟩ := map_eq_ok h
  obtain ⟨t', groups', hparse', -⟩ := compile_eq_ok_iff.mp hcompile
  cases hparse _ hparse'
  obtain ⟨found, -, hmatch, hnone, hsome⟩ :=
    leftmost_of_parse ⟨pattern, p, options⟩ hcompile hparse' text
  refine ⟨found.isSome, hmatch, ?_⟩
  cases found with
  | none =>
    refine ⟨fun hsome => absurd hsome Bool.false_ne_true, ?_⟩
    rintro ⟨i, j, hm⟩
    exact absurd hm (hnone rfl i j)
  | some m => exact ⟨fun _ => ⟨_, _, (hsome m rfl).1⟩, fun _ => rfl⟩

end Whole

/-! ## Compiled patterns -/

/-- **Anchored by a mark or by an option, a pattern finds the same**, if lines have no start and no end
of their own: with `^` before it a match at the start of the text, groups included, and with `$` behind
it as well a match exactly if its tree matches the whole of the text. -/
theorem find?_wrapped {pattern : String} {options : Options} {plain started whole stopped : Regex}
    (hline : options.multiline = false)
    (hplain : Regex.compile pattern { options with anchored := true } = .ok plain)
    (hstarted : Regex.compile ("^(?:" ++ pattern ++ ")") { options with anchored := false } =
      .ok started)
    (hwhole : Regex.compile ("^(?:" ++ pattern ++ ")$") options = .ok whole)
    (hstopped : Regex.compile ("(?:" ++ pattern ++ ")$") { options with anchored := true } =
      .ok stopped) :
    ∃ tree groups, Tree.parse (Bytes.ofText pattern) = .ok (tree, groups) ∧ ∀ text,
      (∃ found, plain.find? text = .ok found ∧ started.find? text = .ok found) ∧
      ∃ answer : Bool, whole.isMatch text = .ok answer ∧ stopped.isMatch text = .ok answer ∧
        (answer = true ↔ tree.Matches options.flags text 0 text.length) := by
  obtain ⟨p, hp, rfl⟩ := map_eq_ok hplain
  obtain ⟨tree, groups, hparse, ht, rfl⟩ := program_of_compile hp
  refine ⟨tree, groups, hparse, fun text => ⟨?_, ?_⟩⟩
  · obtain ⟨found, hfound⟩ := (wellFormed_of_compile hp).backtrack_ok
      (Options.flags { options with anchored := true }) text
    rw [← search_eq] at hfound
    obtain ⟨p', hp', rfl⟩ := map_eq_ok hstarted
    rw [ofText_start] at hp'
    obtain ⟨tree', groups', hparse', -, rfl⟩ := program_of_compile hp'
    cases parse_start hparse hparse'
    refine ⟨_, by rw [Regex.find?, hfound]; rfl, ?_⟩
    rw [Regex.find?, codeBehind_start, search_start hline, hfound]
    rfl
  · obtain ⟨answer, hanswer, hiff⟩ := isMatch_of_parse hwhole
      (fun r hr => parse_start_stop hparse (ofText_start_stop pattern ▸ hr)) text
    obtain ⟨answer', hanswer', hiff'⟩ := isMatch_of_parse hstopped
      (fun r hr => parse_stop hparse (ofText_stop pattern ▸ hr)) text
    rw [exists_matchesPiece_start_stop hline] at hiff
    rw [exists_matchesPiece_stop hline] at hiff'
    obtain rfl : answer = answer' := Bool.eq_iff_iff.mpr (hiff.trans hiff'.symm)
    exact ⟨answer, hanswer, hanswer', hiff⟩

theorem find?_wrapped_either :
    ∃ plain started whole stopped,
      Regex.compile "a|(b)" { anchored := true } = .ok plain ∧
      Regex.compile "^(?:a|(b))" {} = .ok started ∧
      Regex.compile "^(?:a|(b))$" {} = .ok whole ∧
      Regex.compile "(?:a|(b))$" { anchored := true } = .ok stopped ∧
      started.find? (ascii "bc") = .ok (some ⟨ascii "bc", [some 0, some 1, some 0, some 1]⟩) := by
  have hplain : Regex.compile "a|(b)" { anchored := true } = .ok ⟨"a|(b)", ⟨#[.save 0, .split 2 4,
      .byte 97, .jump 7, .save 2, .byte 98, .save 3, .save 1, .accept], 1⟩, { anchored := true }⟩ := by
    cbv
  obtain ⟨started, hstarted⟩ : ∃ r, Regex.compile "^(?:a|(b))" {} = .ok r := ⟨_, by cbv⟩
  obtain ⟨whole, hwhole⟩ : ∃ r, Regex.compile "^(?:a|(b))$" {} = .ok r := ⟨_, by cbv⟩
  obtain ⟨stopped, hstopped⟩ : ∃ r, Regex.compile "(?:a|(b))$" { anchored := true } = .ok r :=
    ⟨_, by cbv⟩
  have hline : ({} : Options).multiline = false := rfl
  obtain ⟨tree, groups, -, hfind⟩ := find?_wrapped hline hplain hstarted hwhole hstopped
  obtain ⟨⟨found, hfound, hfound'⟩, -⟩ := hfind (ascii "bc")
  refine ⟨_, _, _, _, hplain, hstarted, hwhole, hstopped, hfound'.trans (hfound.symm.trans ?_)⟩
  cbv

end Bytework.Pattern
