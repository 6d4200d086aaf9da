import Bytework.Proofs.Pattern.Enclosed
import Bytework.Proofs.Pattern.Faults

/-!
# The pieces of a pattern

A pattern cut into the pieces that its reader takes one after the other: bars, parentheses, atoms, and
quantifiers with their lazy marks.

* `Piece`, `writePieces`: the pieces and the text that they make up.
* `Reading`: what has been read, with the atom whose quantifier may still follow; `Reading.read` goes
  on from there.
* `IsAtom`: a text that is read as an atom, whatever stands behind it; its tree has no parts.
* `Step`, `Run`: reading one piece in front of a text, and reading several.
* **`Run.read_eq`**: reading over some pieces arrives where their run does; `Run.parse_eq_ok_iff`: the
  tree at the end of a pattern.
* **`Reading.goes`**: from every reading, the next piece is read, the pattern is finished, or it is
  refused at a place that is left; **`Reading.exists_pieces`**: so every text is cut into pieces.
* **`exists_run`**: the pieces of a pattern that can be read are the whole of it.
-/

namespace Bytework.Pattern

/-! ## Pieces -/

/-- What the reader of a pattern takes at once. -/
inductive Piece
  /-- Between two alternatives. -/
  | bar
  /-- The start of a group. -/
  | opening (captures : Bool)
  /-- The end of a group. -/
  | closing
  /-- An atom that is no group. -/
  | atom (text : Bytes)
  /-- A quantifier, with a question mark behind its text if it is not greedy. -/
  | quantifier (text : Bytes) (greedy : Bool)
  deriving DecidableEq, Repr

/-- A piece as it stands in the pattern. -/
def Piece.write : Piece → Bytes
  | .bar => [byte '|']
  | .opening captures => if captures then [byte '('] else [byte '(', byte '?', byte ':']
  | .closing => [byte ')']
  | .atom text => text
  | .quantifier text greedy => text ++ writeGreedy greedy

/-- The text that some pieces make up. -/
def writePieces (pieces : List Piece) : Bytes := pieces.flatMap Piece.write

theorem writePieces_cons (piece : Piece) (pieces : List Piece) (tail : Bytes) :
    writePieces (piece :: pieces) ++ tail = piece.write ++ (writePieces pieces ++ tail) := by
  simp [writePieces]

/-- A text that is read as an atom, which is no group. -/
inductive IsAtom : Bytes → Tree → Prop
  | intro {b : UInt8} {text : Bytes} {t : Tree} (hbar : b ≠ byte '|') (hopen : b ≠ byte '(')
      (hclose : b ≠ byte ')') (h : ∀ tail, Pattern.atom b (text ++ tail) = .ok (t, tail)) :
      IsAtom (b :: text) t

/-- A tree without parts. -/
def Tree.IsLeaf : Tree → Prop
  | .group _ _ | .seq _ _ | .alt _ _ | .rep _ _ _ _ => False
  | _ => True

theorem isLeaf_of_atom {b : UInt8} {rest after : Bytes} {t : Tree}
    (h : Pattern.atom b rest = .ok (t, after)) : t.IsLeaf := by
  cases atom_iff.mp h with
  | any | start | stop | byte => trivial
  | set hclass =>
    obtain ⟨items, ranges, negated, -, rfl⟩ := set_of_classTree hclass
    trivial
  | escape =>
    unfold escapeTree
    split <;> trivial

theorem IsAtom.isLeaf {text : Bytes} {t : Tree} (h : IsAtom text t) : t.IsLeaf := by
  cases h with
  | intro _ _ _ h => exact isLeaf_of_atom (h [])

/-! ## Readings -/

/-- What has been read of a pattern: the enclosing levels, each with the index of the group that was
opened in it, the current level without the last atom if a quantifier may still follow it, and the
number of indices given away. -/
structure Reading where
  stack : List (Level × Option Nat)
  level : Level
  groups : Nat
  pending : Option Tree

namespace Reading

/-- Nothing read. -/
def start : Reading := ⟨[], .new, 0, none⟩

/-- The current level with its last atom. -/
def settled (s : Reading) : Level := s.pending.elim s.level s.level.push

/-- The rest of the pattern is read. -/
def read (s : Reading) (rest : Bytes) : Except Fault (Tree × Nat) :=
  match s.pending with
  | none => readFrom s.stack s.level s.groups rest
  | some t => (quantify t rest).bind fun r => readFrom s.stack (s.level.push r.1) s.groups r.2

/-- An alternative is finished. -/
def finishBranch (s : Reading) : Reading := ⟨s.stack, s.settled.finishBranch, s.groups, none⟩

/-- A group is opened. -/
def openGroup (s : Reading) (captures : Bool) : Reading :=
  ⟨(s.settled, if captures then some s.groups else none) :: s.stack, .new,
    s.groups + if captures then 1 else 0, none⟩

/-- A group is closed, behind which a quantifier may follow. -/
def closeGroup (s : Reading) (outer : Level) (index : Option Nat)
    (stack : List (Level × Option Nat)) : Reading :=
  ⟨stack, outer, s.groups, some (.group s.settled.tree index)⟩

/-- An atom is read, behind which a quantifier may follow. -/
def atom (s : Reading) (t : Tree) : Reading := ⟨s.stack, s.settled, s.groups, some t⟩

/-- The last atom is repeated. -/
def repeated (s : Reading) (t : Tree) (least : Nat) (most : Option Nat) (greedy : Bool) : Reading :=
  ⟨s.stack, s.level.push (.rep t least most greedy), s.groups, none⟩

variable {s : Reading} {rest : Bytes}

theorem read_settled (h : s.pending.isSome → Unopened rest) :
    s.read rest = readFrom s.stack s.settled s.groups rest := by
  unfold read settled
  cases hpending : s.pending with
  | none => rfl
  | some t =>
    rw [hpending] at h
    simp only [(h rfl).quantify_eq]
    rfl

theorem read_byte {b : UInt8} (hmark : mark? b = none) (hbrace : b ≠ byte '\x7b') :
    s.read (b :: rest) = readFrom s.stack s.settled s.groups (b :: rest) :=
  read_settled fun _ => (unquantified_cons.mpr ⟨hmark, hbrace⟩).unopened

end Reading

/-! ## Runs -/

/-- One piece is read, in front of a text. -/
inductive Step : Reading → Piece → Bytes → Reading → Prop
  | bar {s : Reading} {tail : Bytes} : Step s .bar tail s.finishBranch
  | opening {s : Reading} {tail : Bytes} {captures : Bool} (hdeep : s.stack.length ≠ maxNesting)
      (hquestion : captures = true → tail.head? ≠ some (byte '?')) :
      Step s (.opening captures) tail (s.openGroup captures)
  | closing {s : Reading} {tail : Bytes} {outer : Level} {index : Option Nat}
      {stack : List (Level × Option Nat)} (hstack : s.stack = (outer, index) :: stack) :
      Step s .closing tail (s.closeGroup outer index stack)
  | atom {s : Reading} {text tail : Bytes} {t : Tree} (htext : IsAtom text t)
      (hopen : s.pending.isSome → Unopened (text ++ tail)) : Step s (.atom text) tail (s.atom t)
  | quantifier {s : Reading} {text tail : Bytes} {t : Tree} {least : Nat} {most : Option Nat}
      {greedy : Bool} (hpending : s.pending = some t) (htext : IsQuantifier text least most)
      (hmark : Unmarked tail) :
      Step s (.quantifier text greedy) tail (s.repeated t least most greedy)

/-- Pieces are read one after the other, in front of a text. -/
inductive Run : Reading → List Piece → Bytes → Reading → Prop
  | nil {s : Reading} {tail : Bytes} : Run s [] tail s
  | cons {s s' s'' : Reading} {piece : Piece} {pieces : List Piece} {tail : Bytes}
      (hstep : Step s piece (writePieces pieces ++ tail) s') (hrun : Run s' pieces tail s'') :
      Run s (piece :: pieces) tail s''

variable {s s' : Reading} {piece : Piece} {pieces : List Piece} {tail : Bytes}

/-- **Reading one piece.** -/
theorem Step.read_eq (h : Step s piece tail s') : s.read (piece.write ++ tail) = s'.read tail := by
  cases h with
  | bar => exact (Reading.read_byte (by decide) (by decide)).trans readFrom_bar
  | opening hdeep hquestion =>
    rename_i captures
    cases captures with
    | true =>
      have hplain : ¬ [byte '?', byte ':'].isPrefixOf tail = true := by
        rintro h
        obtain ⟨rest, rfl⟩ := List.isPrefixOf_iff_prefix.mp h
        exact hquestion rfl rfl
      calc s.read (byte '(' :: tail)
          = readFrom s.stack s.settled s.groups (byte '(' :: tail) :=
            Reading.read_byte (by decide) (by decide)
        _ = readFrom ((s.settled, some s.groups) :: s.stack) .new (s.groups + 1) tail := by
            rw [readFrom_paren, if_neg hdeep, if_neg hplain]
    | false =>
      have hplain : [byte '?', byte ':'].isPrefixOf (byte '?' :: byte ':' :: tail) = true := by
        simp [List.isPrefixOf]
      calc s.read (byte '(' :: byte '?' :: byte ':' :: tail)
          = readFrom s.stack s.settled s.groups (byte '(' :: byte '?' :: byte ':' :: tail) :=
            Reading.read_byte (by decide) (by decide)
        _ = readFrom ((s.settled, none) :: s.stack) .new s.groups tail := by
            rw [readFrom_paren, if_neg hdeep, if_pos hplain]
            rfl
  | closing hstack =>
    refine (Reading.read_byte (by decide) (by decide)).trans ?_
    rw [hstack]
    exact readFrom_close
  | atom htext hopen =>
    refine (Reading.read_settled hopen).trans ?_
    cases htext with
    | intro hbar hparen hclose h => exact readFrom_atom hbar hparen hclose (h tail)
  | quantifier hpending htext hmark =>
    rename_i text t least most greedy
    have hquantify : quantify t (text ++ (writeGreedy greedy ++ tail)) =
        .ok (.rep t least most greedy, tail) :=
      quantify_iff.mpr (.inr ⟨_, _, _, _, htext, rfl, rfl, hmark⟩)
    rw [Reading.read, hpending, Piece.write, List.append_assoc]
    simp only [hquantify]
    rfl

/-- **Reading over some pieces** arrives where their run does. -/
theorem Run.read_eq (h : Run s pieces tail s') :
    s.read (writePieces pieces ++ tail) = s'.read tail := by
  induction h with
  | nil => rfl
  | cons hstep _ ih => rw [writePieces_cons, hstep.read_eq, ih]

theorem Reading.read_nil (s : Reading) : s.read [] =
    if s.stack.isEmpty then .ok (s.settled.tree, s.groups) else failAt .missingClose [] := by
  have hopen : Unopened [] := ⟨unmarked_nil, fun after hafter => by cases hafter⟩
  rw [read_settled fun _ => hopen, readFrom.eq_def]

/-- The tree of a pattern is that of the reading at its end. -/
theorem Run.parse_eq_ok_iff {t : Tree} {n : Nat} (h : Run .start pieces [] s) :
    Tree.parse (writePieces pieces) = .ok (t, n) ↔
      s.stack = [] ∧ t = s.settled.tree ∧ n = s.groups := by
  have hread : readFrom [] .new 0 (writePieces pieces) = s.read [] := by
    rw [← h.read_eq, List.append_nil]
    rfl
  rw [Tree.parse_eq_ok_iff, hread, Reading.read_nil]
  by_cases hempty : s.stack = []
  · simp [hempty, eq_comm]
  · simp [hempty, failAt]

/-! ## Cutting a pattern -/

/-- A piece is not empty. -/
theorem Step.length_write_pos (h : Step s piece tail s') : 0 < piece.write.length := by
  cases h with
  | bar | closing => exact Nat.one_pos
  | opening =>
    rename_i captures _ _
    cases captures <;> exact Nat.succ_pos _
  | atom htext =>
    cases htext
    exact Nat.succ_pos _
  | quantifier _ htext =>
    cases htext <;> exact Nat.succ_pos _

section Cut

variable {stack : List (Level × Option Nat)} {level : Level} {n : Nat} {rest : Bytes}

theorem readFrom_question : readFrom stack level n (byte '?' :: rest) =
    failAt .nothingToRepeat (byte '?' :: rest) := by
  have hbar : byte '?' ≠ byte '|' := by decide
  have hopen : byte '?' ≠ byte '(' := by decide
  have hclose : byte '?' ≠ byte ')' := by decide
  rw [readFrom.eq_def]
  simp only [if_neg hbar, if_neg hopen, if_neg hclose]
  rfl

/-- What can come next: the end of the pattern outside of all groups, a piece that is read, or a fault
at a place that is left. -/
def Reading.Goes (s : Reading) (rest : Bytes) : Prop :=
  (rest = [] ∧ s.stack = []) ∨
    (∃ piece tail s', rest = piece.write ++ tail ∧ Step s piece tail s') ∨
    ∃ fault, s.read rest = .error fault ∧ fault.left ≤ rest.length

/-- A parenthesis opens a group, unless the groups nest too deep or a quantifier comes first in it. -/
theorem Reading.goes_paren (s : Reading) (after : Bytes) : s.Goes (byte '(' :: after) := by
  have hread : s.read (byte '(' :: after) = readFrom s.stack s.settled s.groups (byte '(' :: after) :=
    read_byte (by decide) (by decide)
  rw [readFrom_paren] at hread
  by_cases hdeep : s.stack.length = maxNesting
  · rw [if_pos hdeep] at hread
    exact .inr (.inr ⟨_, hread, Nat.le_refl _⟩)
  rw [if_neg hdeep] at hread
  by_cases hplain : [byte '?', byte ':'].isPrefixOf after = true
  · obtain ⟨tail, rfl⟩ := List.isPrefixOf_iff_prefix.mp hplain
    exact .inr (.inl ⟨.opening false, tail, _, rfl, .opening hdeep Bool.noConfusion⟩)
  by_cases hquestion : after.head? = some (byte '?')
  · obtain ⟨tail, rfl⟩ := List.head?_eq_some_iff.mp hquestion
    rw [if_neg hplain, readFrom_question] at hread
    exact .inr (.inr ⟨_, hread, Nat.le_succ _⟩)
  · exact .inr (.inl ⟨.opening true, after, _, rfl, .opening hdeep fun _ => hquestion⟩)

/-- Where the last atom stands by itself, the next byte says what can come. -/
theorem Reading.goes_settled {s : Reading} (hopen : s.pending.isSome → Unopened rest) :
    s.Goes rest := by
  have hread := read_settled hopen
  cases rest with
  | nil =>
    cases hstack : s.stack with
    | nil => exact .inl ⟨rfl, hstack⟩
    | cons entry stack =>
      rw [hstack, readFrom] at hread
      exact .inr (.inr ⟨_, hread, Nat.le_refl _⟩)
  | cons b after =>
    by_cases hbar : b = byte '|'
    · subst hbar
      exact .inr (.inl ⟨.bar, after, _, rfl, .bar⟩)
    by_cases hparen : b = byte '('
    · subst hparen
      exact s.goes_paren after
    by_cases hclose : b = byte ')'
    · subst hclose
      cases hstack : s.stack with
      | nil =>
        rw [hstack, readFrom.eq_def] at hread
        exact .inr (.inr ⟨_, hread, Nat.le_refl _⟩)
      | cons entry stack => exact .inr (.inl ⟨.closing, after, _, rfl, .closing hstack⟩)
    cases hatom : Pattern.atom b after with
    | error fault =>
      refine .inr (.inr ⟨fault, hread.trans ?_, within_atom b after fault hatom⟩)
      rw [readFrom.eq_def]
      simp only [if_neg hbar, if_neg hparen, if_neg hclose]
      split
      · rename_i herror
        cases herror.symm.trans hatom
        rfl
      · rename_i hok
        cases hok.symm.trans hatom
    | ok r =>
      obtain ⟨t, tail⟩ := r
      obtain ⟨text, rfl, htext⟩ := atom_taken hatom
      exact .inr (.inl ⟨.atom (b :: text), tail, _, rfl,
        .atom (.intro hbar hparen hclose htext) hopen⟩)

/-- **Reading goes on**, is finished, or fails at a place that is left. -/
theorem Reading.goes (s : Reading) (rest : Bytes) : s.Goes rest := by
  cases hpending : s.pending with
  | none => exact goes_settled fun hsome => by cases hpending ▸ hsome
  | some t =>
    cases hquantify : quantify t rest with
    | error fault =>
      refine .inr (.inr ⟨fault, ?_, within_quantify t rest fault hquantify⟩)
      rw [read, hpending]
      simp only [hquantify]
      rfl
    | ok r =>
      obtain ⟨u, after⟩ := r
      obtain ⟨-, -, hopen⟩ | ⟨text, least, most, greedy, htext, -, rfl, hmark⟩ :=
        quantify_iff.mp hquantify
      · exact goes_settled fun _ => hopen
      · exact .inr (.inl ⟨.quantifier text greedy, after, _, (List.append_assoc ..).symm,
          .quantifier hpending htext hmark⟩)

/-- **Every text is cut into pieces** up to its end or to where it is refused: each piece is read where
the one before it ended, and the fault is at a place in the rest. -/
theorem Reading.exists_pieces (s : Reading) (rest : Bytes) :
    ∃ pieces tail s', rest = writePieces pieces ++ tail ∧ Run s pieces tail s' ∧
      ((tail = [] ∧ s'.stack = []) ∨
        ∃ fault, s'.read tail = .error fault ∧ fault.left ≤ tail.length) := by
  induction hn : rest.length using Nat.strongRecOn generalizing s rest with
  | _ n ih =>
    subst hn
    obtain hend | ⟨piece, after, s', rfl, hstep⟩ | hfault := s.goes rest
    · exact ⟨[], rest, s, rfl, .nil, .inl hend⟩
    · have hlt : after.length < (piece.write ++ after).length := by
        have := hstep.length_write_pos
        rw [List.length_append]
        omega
      obtain ⟨pieces, tail, s'', rfl, hrun, hends⟩ := ih _ hlt s' after rfl
      exact ⟨piece :: pieces, tail, s'', (writePieces_cons ..).symm, .cons hstep hrun, hends⟩
    · exact ⟨[], rest, s, rfl, .nil, .inr hfault⟩

/-- **Every pattern that can be read is cut into pieces**, each of them where its reader goes on. -/
theorem exists_run {r : Tree × Nat} (h : readFrom stack level n rest = .ok r) :
    ∃ pieces s', writePieces pieces = rest ∧ Run ⟨stack, level, n, none⟩ pieces [] s' := by
  obtain ⟨pieces, tail, s', rfl, hrun, ⟨rfl, -⟩ | ⟨fault, hfault, -⟩⟩ :=
    Reading.exists_pieces ⟨stack, level, n, none⟩ rest
  · exact ⟨pieces, s', (List.append_nil _).symm, hrun⟩
  · have hread : Reading.read ⟨stack, level, n, none⟩ (writePieces pieces ++ tail) = .ok r := h
    rw [hrun.read_eq, hfault] at hread
    cases hread

end Cut

end Bytework.Pattern
