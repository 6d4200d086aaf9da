import Bytework.Proofs.Pattern.Leftmost
import Bytework.Proofs.Pattern.Pieces

/-!
# Greedy and lazy quantifiers

Whether a quantifier is greedy or lazy decides how far a match goes, but neither whether there is one
nor where it starts.

* `Tree.mapGreedy`: other marks on the repetitions of a tree; `Tree.matches_mapGreedy`,
  `Tree.emit_mapGreedy`: what it matches remains, and its program is that of the other reading.
* `Piece.mapGreedy`, `Reading.mapGreedy`: other marks on the pieces of a pattern and in what has been
  read of it.
* `Alike`, `Step.alike`, `Run.alike`: patterns that differ in their marks only are read in step.
* **`start_eq_of_marks`**: such patterns, compiled either way, find matches that start at the same
  place, and the pattern with all marks changed has the program of the other reading.
-/

namespace Bytework.Pattern

/-! ## Trees -/

namespace Tree

/-- The tree with other marks on its repetitions. -/
def mapGreedy (f : Bool → Bool) : Tree → Tree
  | .group body index => .group (body.mapGreedy f) index
  | .seq first second => .seq (first.mapGreedy f) (second.mapGreedy f)
  | .alt left right => .alt (left.mapGreedy f) (right.mapGreedy f)
  | .rep body least most greedy => .rep (body.mapGreedy f) least most (f greedy)
  | t => t

variable (f : Bool → Bool) (t : Tree)

/-- **What a tree matches** does not depend on the marks. -/
theorem matches_mapGreedy (flags : Flags) (text : Bytes) :
    (t.mapGreedy f).Matches flags text = t.Matches flags text := by
  funext i j
  induction t generalizing i j with
  | group body index ih => exact ih i j
  | seq first second ih₁ ih₂ => simp only [mapGreedy, Matches, ih₁, ih₂]
  | alt left right ih₁ ih₂ => simp only [mapGreedy, Matches, ih₁, ih₂]
  | rep body least most greedy ih =>
    have hbody : (body.mapGreedy f).Matches flags text = body.Matches flags text :=
      funext fun i => funext fun j => ih i j
    simp only [mapGreedy, Matches, hbody]
  | _ => rfl

theorem size_mapGreedy : (t.mapGreedy f).size = t.size := by
  induction t with
  | group body index ih => cases index <;> simp only [mapGreedy, size, ih]
  | seq first second ih₁ ih₂ => simp only [mapGreedy, size, ih₁, ih₂]
  | alt left right ih₁ ih₂ => simp only [mapGreedy, size, ih₁, ih₂]
  | rep body least most greedy ih => cases most <;> simp only [mapGreedy, size, ih]
  | _ => rfl

/-- **The instructions of a tree with all marks changed** are those of the other reading. -/
theorem emit_mapGreedy (ungreedy : Bool) (pc : Nat) :
    (t.mapGreedy not).emit ungreedy pc = t.emit (!ungreedy) pc := by
  have hmark : ∀ greedy, ((!greedy) != ungreedy) = (greedy != !ungreedy) := by
    intro greedy
    cases greedy <;> cases ungreedy <;> rfl
  induction t generalizing pc with
  | group body index ih => cases index <;> simp only [mapGreedy, emit, ih]
  | seq first second ih₁ ih₂ => simp only [mapGreedy, emit, size_mapGreedy, ih₁, ih₂]
  | alt left right ih₁ ih₂ => simp only [mapGreedy, emit, size_mapGreedy, ih₁, ih₂]
  | rep body least most greedy ih =>
    cases most <;> simp only [mapGreedy, emit, size_mapGreedy, ih, hmark]
  | _ => rfl

theorem mapGreedy_ofItems (items : List Tree) :
    (ofItems items).mapGreedy f = ofItems (items.map (mapGreedy f)) := by
  fun_induction ofItems items with
  | case1 => rfl
  | case2 t => rfl
  | case3 t u rest ih => simp only [mapGreedy, ih, List.map_cons, ofItems]

theorem mapGreedy_ofBranches (branches : List Tree) :
    (ofBranches branches).mapGreedy f = ofBranches (branches.map (mapGreedy f)) := by
  fun_induction ofBranches branches with
  | case1 => rfl
  | case2 t => rfl
  | case3 t u rest ih => simp only [mapGreedy, ih, List.map_cons, ofBranches]

end Tree

theorem IsAtom.mapGreedy_eq (f : Bool → Bool) {text : Bytes} {t : Tree} (h : IsAtom text t) :
    t.mapGreedy f = t := by
  have hleaf := h.isLeaf
  cases t with
  | group | seq | alt | rep => cases hleaf
  | _ => rfl

/-! ## Readings -/

/-- What has been read of a group, with other marks. -/
def Level.mapGreedy (f : Bool → Bool) (level : Level) : Level :=
  ⟨level.branches.map (Tree.mapGreedy f), level.items.map (Tree.mapGreedy f)⟩

theorem Level.mapGreedy_finishBranch (f : Bool → Bool) (level : Level) :
    level.finishBranch.mapGreedy f = (level.mapGreedy f).finishBranch := by
  simp [mapGreedy, finishBranch, Tree.mapGreedy_ofItems, List.map_reverse]

theorem Level.mapGreedy_tree (f : Bool → Bool) (level : Level) :
    level.tree.mapGreedy f = (level.mapGreedy f).tree := by
  rw [tree, tree, ← mapGreedy_finishBranch, Tree.mapGreedy_ofBranches, List.map_reverse]
  rfl

/-- A piece with another mark, if it is a quantifier. -/
def Piece.mapGreedy (f : Bool → Bool) : Piece → Piece
  | .quantifier text greedy => .quantifier text (f greedy)
  | piece => piece

namespace Reading

/-- An enclosing level with other marks. -/
def mapEntry (f : Bool → Bool) (entry : Level × Option Nat) : Level × Option Nat :=
  (entry.1.mapGreedy f, entry.2)

/-- What has been read of a pattern, with other marks. -/
def mapGreedy (f : Bool → Bool) (s : Reading) : Reading :=
  ⟨s.stack.map (mapEntry f), s.level.mapGreedy f, s.groups, s.pending.map (Tree.mapGreedy f)⟩

variable (f : Bool → Bool) (s : Reading)

theorem mapGreedy_settled : (s.mapGreedy f).settled = s.settled.mapGreedy f := by
  unfold settled mapGreedy
  cases s.pending <;> rfl

theorem mapGreedy_finishBranch : (s.mapGreedy f).finishBranch = s.finishBranch.mapGreedy f := by
  rw [finishBranch, mapGreedy_settled, ← Level.mapGreedy_finishBranch]
  rfl

theorem mapGreedy_openGroup (captures : Bool) :
    (s.mapGreedy f).openGroup captures = (s.openGroup captures).mapGreedy f := by
  rw [openGroup, mapGreedy_settled]
  rfl

theorem mapGreedy_closeGroup (outer : Level) (index : Option Nat)
    (stack : List (Level × Option Nat)) :
    (s.mapGreedy f).closeGroup (outer.mapGreedy f) index (stack.map (mapEntry f)) =
      (s.closeGroup outer index stack).mapGreedy f := by
  rw [closeGroup, mapGreedy_settled, ← Level.mapGreedy_tree]
  rfl

theorem mapGreedy_atom (t : Tree) :
    (s.mapGreedy f).atom (t.mapGreedy f) = (s.atom t).mapGreedy f := by
  rw [atom, mapGreedy_settled]
  rfl

theorem mapGreedy_repeated (t : Tree) (least : Nat) (most : Option Nat) (greedy : Bool) :
    (s.mapGreedy f).repeated (t.mapGreedy f) least most (f greedy) =
      (s.repeated t least most greedy).mapGreedy f := rfl

end Reading

/-! ## Patterns in step -/

/-- Two texts that start alike: no reader that looks ahead tells them apart. -/
structure Alike (rest rest' : Bytes) : Prop where
  head?_eq : rest.head? = rest'.head?
  takeWhile_eq : rest.takeWhile isBoundByte = rest'.takeWhile isBoundByte

theorem Alike.refl (rest : Bytes) : Alike rest rest := ⟨rfl, rfl⟩

variable {s s' s₂ : Reading} {piece piece₂ : Piece} {pieces pieces₂ : List Piece}
  {text tail tail₂ : Bytes} {f g : Bool → Bool}

theorem Alike.append (h : Alike tail tail₂) (text : Bytes) : Alike (text ++ tail) (text ++ tail₂) := by
  induction text with
  | nil => exact h
  | cons b text ih => exact ⟨rfl, by simp only [List.cons_append, List.takeWhile_cons, ih.takeWhile_eq]⟩

theorem Alike.unmarked (h : Alike tail tail₂) (hmark : Unmarked tail) : Unmarked tail₂ :=
  fun b hb => hmark b (h.head?_eq ▸ hb)

theorem Alike.unopened {b : UInt8} (h : Alike tail tail₂) (hopen : Unopened (b :: tail)) :
    Unopened (b :: tail₂) := by
  refine ⟨fun c hc => hopen.unmarked c hc, fun after hafter => ?_⟩
  obtain ⟨rfl, rfl⟩ := List.cons.inj hafter
  exact (hopen.unbounded tail rfl).congr h.takeWhile_eq

theorem Piece.eq_quantifier {greedy : Bool}
    (h : (Piece.quantifier text greedy).mapGreedy f = piece₂.mapGreedy g) :
    ∃ greedy₂, piece₂ = .quantifier text greedy₂ ∧ f greedy = g greedy₂ := by
  cases piece₂ with
  | quantifier text₂ greedy₂ =>
    obtain ⟨rfl, hgreedy⟩ := Piece.quantifier.inj h
    exact ⟨greedy₂, rfl, hgreedy⟩
  | _ => cases h

theorem IsQuantifier.head {least : Nat} {most : Option Nat} (h : IsQuantifier text least most) :
    ∃ b rest, text = b :: rest ∧ isBoundByte b = false := by
  cases h with
  | mark h =>
    obtain ⟨rfl, -⟩ | ⟨rfl, -⟩ | ⟨rfl, -⟩ := mark?_cases h <;> exact ⟨_, [], rfl, by decide⟩
  | braced h hin => exact ⟨byte '\x7b', _, rfl, by decide⟩

theorem IsQuantifier.alike {least : Nat} {most : Option Nat} (h : IsQuantifier text least most)
    (tail tail₂ : Bytes) : Alike (text ++ tail) (text ++ tail₂) := by
  obtain ⟨b, rest, rfl, hb⟩ := h.head
  refine ⟨rfl, ?_⟩
  simp only [List.cons_append, List.takeWhile_cons, hb]
  rfl

/-- A piece and its tail start alike with whatever marks. -/
theorem Step.write_alike (h : Step s piece tail s') (hpiece : piece.mapGreedy f = piece₂.mapGreedy g)
    (htail : Alike tail tail₂) : Alike (piece.write ++ tail) (piece₂.write ++ tail₂) := by
  cases h with
  | bar | opening | closing | atom =>
    cases piece₂ <;> cases hpiece
    exact htail.append _
  | quantifier hpending htext hmark =>
    obtain ⟨greedy₂, rfl, -⟩ := Piece.eq_quantifier hpiece
    rw [Piece.write, Piece.write, List.append_assoc, List.append_assoc]
    exact htext.alike _ _

/-- The first bytes of pieces are the same with whatever marks: a quantifier ends every look ahead. -/
theorem Run.write_alike (h : Run s pieces tail s')
    (hpieces : pieces.map (Piece.mapGreedy f) = pieces₂.map (Piece.mapGreedy g)) :
    Alike (writePieces pieces ++ tail) (writePieces pieces₂ ++ tail) := by
  induction h generalizing pieces₂ with
  | nil =>
    obtain rfl := List.map_eq_nil_iff.mp hpieces.symm
    exact .refl _
  | cons hstep hrun ih =>
    obtain ⟨piece₂, pieces₂, rfl, hpiece, hrest⟩ := List.map_eq_cons_iff.mp hpieces.symm
    rw [writePieces_cons, writePieces_cons]
    exact hstep.write_alike hpiece.symm (ih hrest.symm)

/-- **One piece is read in step**, in front of texts that start alike. -/
theorem Step.alike (h : Step s piece tail s') (hs : s.mapGreedy f = s₂.mapGreedy g)
    (hpiece : piece.mapGreedy f = piece₂.mapGreedy g) (htail : Alike tail tail₂) :
    ∃ s₂', Step s₂ piece₂ tail₂ s₂' ∧ s'.mapGreedy f = s₂'.mapGreedy g := by
  have hstack : s.stack.map (Reading.mapEntry f) = s₂.stack.map (Reading.mapEntry g) :=
    congrArg Reading.stack hs
  have hpending : s.pending.map (Tree.mapGreedy f) = s₂.pending.map (Tree.mapGreedy g) :=
    congrArg Reading.pending hs
  cases h with
  | bar =>
    cases piece₂ <;> cases hpiece
    refine ⟨_, .bar, ?_⟩
    rw [← Reading.mapGreedy_finishBranch, hs, Reading.mapGreedy_finishBranch]
  | opening hdeep hquestion =>
    cases piece₂ <;> cases hpiece
    refine ⟨_, .opening ?_ ?_, ?_⟩
    · have hlength := congrArg List.length hstack
      rw [List.length_map, List.length_map] at hlength
      rwa [← hlength]
    · rwa [← htail.head?_eq]
    · rw [← Reading.mapGreedy_openGroup, hs, Reading.mapGreedy_openGroup]
  | closing hopened =>
    cases piece₂ <;> cases hpiece
    rw [hopened, List.map_cons] at hstack
    obtain ⟨⟨outer₂, index₂⟩, stack₂, hopened₂, hentry, hrest⟩ := List.map_eq_cons_iff.mp hstack.symm
    obtain ⟨houter, rfl⟩ := Prod.mk.inj hentry
    refine ⟨_, .closing hopened₂, ?_⟩
    rw [← Reading.mapGreedy_closeGroup, ← Reading.mapGreedy_closeGroup, hs, hrest, houter]
  | atom htext hopen =>
    cases piece₂ <;> cases hpiece
    refine ⟨_, .atom htext fun hsome => ?_, ?_⟩
    · have hsome : s.pending.isSome = true := by
        rw [← Option.isSome_map, hpending, Option.isSome_map]
        exact hsome
      cases htext with
      | intro => exact (htail.append _).unopened (hopen hsome)
    · rw [← Reading.mapGreedy_atom, ← Reading.mapGreedy_atom, hs, htext.mapGreedy_eq f,
        htext.mapGreedy_eq g]
  | quantifier hwaiting htext hmark =>
    obtain ⟨greedy₂, rfl, hgreedy⟩ := Piece.eq_quantifier hpiece
    rw [hwaiting, Option.map_some] at hpending
    obtain ⟨t₂, hwaiting₂, ht⟩ := Option.map_eq_some_iff.mp hpending.symm
    refine ⟨_, .quantifier hwaiting₂ htext (htail.unmarked hmark), ?_⟩
    rw [← Reading.mapGreedy_repeated, ← Reading.mapGreedy_repeated, hs, ht, hgreedy]

/-- **Patterns that differ in their marks only are read in step.** -/
theorem Run.alike (h : Run s pieces tail s') (hs : s.mapGreedy f = s₂.mapGreedy g)
    (hpieces : pieces.map (Piece.mapGreedy f) = pieces₂.map (Piece.mapGreedy g)) :
    ∃ s₂', Run s₂ pieces₂ tail s₂' ∧ s'.mapGreedy f = s₂'.mapGreedy g := by
  induction h generalizing s₂ pieces₂ with
  | nil =>
    obtain rfl := List.map_eq_nil_iff.mp hpieces.symm
    exact ⟨s₂, .nil, hs⟩
  | cons hstep hrun ih =>
    obtain ⟨piece₂, pieces₂, rfl, hpiece, hrest⟩ := List.map_eq_cons_iff.mp hpieces.symm
    obtain ⟨s₂', hstep₂, hs'⟩ := hstep.alike hs hpiece.symm (hrun.write_alike hrest.symm)
    obtain ⟨s₂'', hrun₂, hs''⟩ := ih hs' hrest.symm
    exact ⟨s₂'', .cons hstep₂ hrun₂, hs''⟩

/-! ## Whole patterns -/

section Patterns

variable {t t₂ : Tree} {n : Nat}

/-- **The trees of patterns that differ in their marks only** differ in their marks only. -/
theorem parse_of_marks (hrun : Run .start pieces [] s)
    (hparse : Tree.parse (writePieces pieces) = .ok (t, n))
    (hpieces : pieces.map (Piece.mapGreedy f) = pieces₂.map (Piece.mapGreedy g)) :
    ∃ t₂, Tree.parse (writePieces pieces₂) = .ok (t₂, n) ∧ t.mapGreedy f = t₂.mapGreedy g := by
  have hstart : Reading.start.mapGreedy f = Reading.start.mapGreedy g := rfl
  obtain ⟨s₂, hrun₂, hs⟩ := hrun.alike hstart hpieces
  obtain ⟨hstack, rfl, rfl⟩ := hrun.parse_eq_ok_iff.mp hparse
  have hstack₂ : s₂.stack = [] := by
    have hmap : s.stack.map _ = s₂.stack.map _ := congrArg Reading.stack hs
    rw [hstack, List.map_nil, eq_comm, List.map_eq_nil_iff] at hmap
    exact hmap
  refine ⟨s₂.settled.tree, hrun₂.parse_eq_ok_iff.mpr ⟨hstack₂, rfl, (congrArg Reading.groups hs :)⟩, ?_⟩
  rw [Level.mapGreedy_tree, Level.mapGreedy_tree, ← Reading.mapGreedy_settled, hs,
    Reading.mapGreedy_settled]

theorem exists_program_of_marks {ungreedy : Bool} {p : Program}
    (h : Program.ofTree? ungreedy t n = some p) (ht : t.mapGreedy f = t₂.mapGreedy g)
    (ungreedy₂ : Bool) : ∃ p₂, Program.ofTree? ungreedy₂ t₂ n = some p₂ := by
  have hsize : t₂.size = t.size := by rw [← Tree.size_mapGreedy g, ← ht, Tree.size_mapGreedy]
  rw [Program.ofTree?_eq] at h ⊢
  split at h
  · rename_i hle
    exact ⟨_, if_pos (hsize ▸ hle)⟩
  · cases h

/-- **The program of a tree with all marks changed** is that of the other reading. -/
theorem ofTree?_mapGreedy (ungreedy : Bool) (t : Tree) (n : Nat) :
    Program.ofTree? ungreedy (t.mapGreedy not) n = Program.ofTree? (!ungreedy) t n := by
  rw [Program.ofTree?_eq, Program.ofTree?_eq, Tree.size_mapGreedy, Tree.emit_mapGreedy]

theorem Tree.mapGreedy_id (t : Tree) : t.mapGreedy id = t := by
  induction t with
  | group body index ih => rw [mapGreedy, ih]
  | seq first second ih₁ ih₂ => rw [mapGreedy, ih₁, ih₂]
  | alt left right ih₁ ih₂ => rw [mapGreedy, ih₁, ih₂]
  | rep body least most greedy ih =>
    rw [mapGreedy, ih]
    rfl
  | _ => rfl

theorem Piece.mapGreedy_id (piece : Piece) : piece.mapGreedy id = piece := by
  cases piece <;> rfl

/-- A pattern with all marks changed compiles as the pattern does in the other reading. -/
theorem compile_toggled (hrun : Run .start pieces [] s)
    (hparse : Tree.parse (writePieces pieces) = .ok (t, n)) (ungreedy : Bool) :
    Pattern.compile ungreedy (writePieces (pieces.map (Piece.mapGreedy not))) =
      Pattern.compile (!ungreedy) (writePieces pieces) := by
  have hpieces : pieces.map (Piece.mapGreedy not) =
      (pieces.map (Piece.mapGreedy not)).map (Piece.mapGreedy id) := by
    rw [funext Piece.mapGreedy_id, List.map_id']
  obtain ⟨t₂, hparse₂, ht⟩ := parse_of_marks hrun hparse hpieces
  rw [Tree.mapGreedy_id] at ht
  subst ht
  simp only [Pattern.compile, hparse, hparse₂, ofTree?_mapGreedy]

end Patterns

/-! ## Searches -/

/-- Two programs of patterns whose trees match the same find matches that start at the same place. -/
theorem start_eq_of_matches {pattern pattern₂ : Bytes} (regex regex₂ : Regex) {t t₂ : Tree}
    {n n₂ : Nat} (h : Pattern.compile regex.options.ungreedy pattern = .ok regex.program)
    (h₂ : Pattern.compile regex₂.options.ungreedy pattern₂ = .ok regex₂.program)
    (hparse : Tree.parse pattern = .ok (t, n)) (hparse₂ : Tree.parse pattern₂ = .ok (t₂, n₂))
    (hflags : regex₂.options.flags = regex.options.flags) (text : Bytes)
    (hmatches : t₂.Matches regex.options.flags text = t.Matches regex.options.flags text) :
    ∃ found found₂, regex.find? text = .ok found ∧ regex₂.find? text = .ok found₂ ∧
      regex.isMatch text = .ok found.isSome ∧ regex₂.isMatch text = .ok found.isSome ∧
      found₂.map Match.start = found.map Match.start := by
  obtain ⟨found, hfind, hmatch, hnone, hsome⟩ := leftmost_of_parse regex h hparse text
  obtain ⟨found₂, hfind₂, hmatch₂, hnone₂, hsome₂⟩ := leftmost_of_parse regex₂ h₂ hparse₂ text
  have hpiece : ∀ i j, t₂.MatchesPiece regex₂.options.flags text i j ↔
      t.MatchesPiece regex.options.flags text i j := by
    intro i j
    rw [Tree.MatchesPiece, Tree.MatchesPiece, hflags, hmatches]
  have hsame : found₂.map Match.start = found.map Match.start := by
    cases found with
    | none =>
      cases found₂ with
      | none => rfl
      | some m₂ => exact absurd ((hpiece _ _).mp (hsome₂ m₂ rfl).1) (hnone rfl _ _)
    | some m =>
      cases found₂ with
      | none => exact absurd ((hpiece _ _).mpr (hsome m rfl).1) (hnone₂ rfl _ _)
      | some m₂ =>
        have hle : m.start ≤ m₂.start :=
          (hsome m rfl).2.2 _ _ ((hpiece _ _).mp (hsome₂ m₂ rfl).1)
        have hge : m₂.start ≤ m.start :=
          (hsome₂ m₂ rfl).2.2 _ _ ((hpiece _ _).mpr (hsome m rfl).1)
        exact congrArg some (Nat.le_antisymm hge hle)
  have hisSome : found₂.isSome = found.isSome := by
    rw [← Option.isSome_map, hsame, Option.isSome_map]
  exact ⟨found, found₂, hfind, hfind₂, hmatch, hisSome ▸ hmatch₂, hsame⟩

/-- The same pieces, up to the marks of the quantifiers. -/
def SameUpToMarks (pieces pieces₂ : List Piece) : Prop :=
  pieces.map (Piece.mapGreedy fun _ => true) = pieces₂.map (Piece.mapGreedy fun _ => true)

/-- **Marks do not decide where a match starts.** A pattern that compiles is cut into pieces; with
whatever marks on its quantifiers, and with either reading of the marks, it compiles again and finds a
match exactly where it did, at the same start. With all marks changed, it has the program of the
other reading. -/
theorem start_eq_of_marks {pattern : Bytes} {regex : Regex}
    (h : Pattern.compile regex.options.ungreedy pattern = .ok regex.program) :
    (∃ pieces s, Run .start pieces [] s ∧ writePieces pieces = pattern) ∧
      ∀ pieces s, Run .start pieces [] s → writePieces pieces = pattern →
        (∀ pieces₂, SameUpToMarks pieces pieces₂ → ∀ ungreedy name, ∃ program,
          Pattern.compile ungreedy (writePieces pieces₂) = .ok program ∧
          ∀ text, ∃ found found₂, regex.find? text = .ok found ∧
            Regex.find? ⟨name, program, { regex.options with ungreedy }⟩ text = .ok found₂ ∧
            regex.isMatch text = .ok found.isSome ∧
            Regex.isMatch ⟨name, program, { regex.options with ungreedy }⟩ text = .ok found.isSome ∧
            found₂.map Match.start = found.map Match.start) ∧
        Pattern.compile regex.options.ungreedy (writePieces (pieces.map (Piece.mapGreedy not))) =
          Pattern.compile (!regex.options.ungreedy) pattern := by
  obtain ⟨t, n, hparse, hprogram⟩ := compile_eq_ok_iff.mp h
  refine ⟨?cut, ?marks⟩
  case cut =>
    obtain ⟨pieces, s, hwrite, hrun⟩ := exists_run (Tree.parse_eq_ok_iff.mp hparse)
    exact ⟨pieces, s, hrun, hwrite⟩
  case marks =>
    rintro pieces s hrun rfl
    refine ⟨fun pieces₂ hsame ungreedy name => ?_, compile_toggled hrun hparse _⟩
    obtain ⟨t₂, hparse₂, ht⟩ := parse_of_marks hrun hparse hsame
    obtain ⟨program, hprogram₂⟩ := exists_program_of_marks hprogram ht ungreedy
    have h₂ : Pattern.compile ungreedy (writePieces pieces₂) = .ok program :=
      compile_eq_ok_iff.mpr ⟨t₂, n, hparse₂, hprogram₂⟩
    refine ⟨program, h₂, fun text => ?_⟩
    refine start_eq_of_matches regex ⟨name, program, { regex.options with ungreedy }⟩ h h₂ hparse hparse₂
      rfl text ?_
    calc t₂.Matches regex.options.flags text
        = (t₂.mapGreedy _).Matches regex.options.flags text := (t₂.matches_mapGreedy _ _ _).symm
      _ = (t.mapGreedy _).Matches regex.options.flags text := by rw [ht]
      _ = t.Matches regex.options.flags text := t.matches_mapGreedy _ _ _

/-- One letter or more, as few as there may be. -/
def lazyPlus : Regex :=
  ⟨"a+?", ⟨#[.save 0, .byte 97, .split 5 3, .byte 97, .jump 2, .save 1, .accept], 0⟩, {}⟩

theorem start_eq_lazyPlus :
    Pattern.compile lazyPlus.options.ungreedy (ascii "a+?") = .ok lazyPlus.program ∧
      ∃ program, Pattern.compile false (ascii "a+") = .ok program ∧
        ∃ found, Regex.find? ⟨"a+", program, {}⟩ (ascii "baa") = .ok found ∧
          found.map Match.start = some 1 := by
  have h : Pattern.compile lazyPlus.options.ungreedy (ascii "a+?") = .ok lazyPlus.program := by cbv
  have hatom : IsAtom (ascii "a") (.byte 97) :=
    .intro (by decide) (by decide) (by decide) fun _ => rfl
  have hplus : IsQuantifier (ascii "+") 1 none := .mark rfl
  have hrun : Run .start [.atom (ascii "a"), .quantifier (ascii "+") false] [] _ :=
    .cons (.atom hatom Bool.noConfusion) (.cons (.quantifier rfl hplus unmarked_nil) .nil)
  have hmarks : SameUpToMarks [.atom (ascii "a"), .quantifier (ascii "+") false]
    [.atom (ascii "a"), .quantifier (ascii "+") true] := rfl
  obtain ⟨program, hprogram, hfind⟩ := ((start_eq_of_marks h).2 _ _ hrun rfl).1 _ hmarks false "a+"
  obtain ⟨found, found₂, hfound, hfound₂, -, -, hstart⟩ := hfind (ascii "baa")
  have hlazy : lazyPlus.find? (ascii "baa") = .ok (some ⟨ascii "baa", [some 1, some 2]⟩) := by cbv
  obtain rfl := Except.ok.inj (hfound.symm.trans hlazy)
  exact ⟨h, program, hprogram, found₂, hfound₂, hstart⟩

end Bytework.Pattern
