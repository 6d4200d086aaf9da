import Bytework.Proofs.Pattern.Pieces

/-!
# Braces in a pattern

What becomes of an opening brace that stands where an atom or a quantifier has just been read.

* `read_brace_literal`, `read_brace_bound`, `read_brace_error`: a brace that is read as a byte, as the
  start of bounds, and not at all.
* `Reading.parse`: the tree of a pattern from a reading on, or the error with its offset.
* **`parse_brace`**: bounds behind an atom are a quantifier or an error, and behind a quantified atom
  they are bytes; a brace that starts no bounds is a byte, unless a count behind it is too large.
-/

namespace Bytework.Pattern

/-- The opening brace. -/
def brace : UInt8 := byte '\x7b'

variable {s : Reading} {pieces : List Piece} {t : Tree} {least : Nat} {most : Option Nat}
  {text rest after tail : Bytes}

/-! ## Reading on from a brace -/

theorem isAtom_brace : IsAtom [brace] (.byte brace) :=
  .intro (by decide) (by decide) (by decide) fun _ => rfl

theorem read_brace_literal (h : s.pending.isSome → Unbounded after) :
    s.read (brace :: after) = (s.atom (.byte brace)).read after := by
  have hopen : s.pending.isSome → Unopened ([brace] ++ after) := by
    refine fun hpending => ⟨unmarked_cons.mpr (by decide), fun after' hafter => ?_⟩
    cases hafter
    exact h hpending
  exact (Step.atom isAtom_brace hopen).read_eq

theorem read_brace_error {fault : Fault} (hpending : s.pending = some t)
    (h : bounds after = .error fault) : s.read (brace :: after) = .error fault := by
  have hmark : mark? brace = none := by decide
  have hquantify : quantify t (brace :: after) = .error fault := by
    simp only [quantify, hmark, h]
    exact if_pos rfl
  rw [Reading.read, hpending]
  simp only [hquantify]
  rfl

/-- Behind an atom, bounds are a quantifier, unless more marks follow than one that makes it lazy. -/
theorem read_brace_bound (hpending : s.pending = some t) (h : IsBound text least most)
    (hin : InBounds least most) (rest : Bytes) :
    ∃ greedy after, rest = writeGreedy greedy ++ after ∧
      ((Unmarked after ∧
        s.read (brace :: (text ++ rest)) = (s.repeated t least most greedy).read after) ∨
      ¬ Unmarked after ∧ s.read (brace :: (text ++ rest)) = failAt .nestedQuantifier after) := by
  obtain ⟨greedy, after, rfl, hfinish⟩ := finishQuantifier_cases t least most rest
  refine ⟨greedy, after, rfl, ?_⟩
  have hquantify := (IsQuantifier.braced h hin).quantify_eq (t := t) (writeGreedy greedy ++ after)
  have hread : s.read (brace :: (text ++ (writeGreedy greedy ++ after))) =
      (finishQuantifier t least most (writeGreedy greedy ++ after)).bind fun r =>
        readFrom s.stack (s.level.push r.1) s.groups r.2 := by
    rw [Reading.read, hpending, ← hquantify]
    rfl
  rw [hread]
  refine hfinish.imp (And.imp_right fun hfinish => ?_) (And.imp_right fun hfinish => ?_)
  · rw [hfinish]
    rfl
  · rw [hfinish]
    rfl

/-! ## Patterns -/

/-- The tree of a pattern from a reading on, in front of the rest; an error comes with its offset. -/
def Reading.parse (s : Reading) (pattern rest : Bytes) : Except (SyntaxError × Nat) (Tree × Nat) :=
  (s.read rest).mapError fun fault => (fault.error, pattern.length - fault.left)

theorem Run.parse_eq (h : Run .start pieces tail s) :
    Tree.parse (writePieces pieces ++ tail) = s.parse (writePieces pieces ++ tail) tail := by
  rw [Reading.parse, ← h.read_eq]
  rfl

theorem Reading.parse_congr {s' : Reading} {pattern rest rest' : Bytes}
    (h : s.read rest = s'.read rest') : s.parse pattern rest = s'.parse pattern rest' := by
  rw [parse, parse, h]

theorem Reading.parse_error {pattern : Bytes} {fault : Fault} (h : s.read rest = .error fault) :
    s.parse pattern rest = .error (fault.error, pattern.length - fault.left) := by
  rw [parse, h]
  rfl

/-- **An opening brace.** Behind an atom, bounds in order with no count too large are applied, with
the lazy mark that may follow, and whatever else has the form of bounds is an error; a brace that
starts no bounds is a byte, unless a count behind it is too large. Where no atom waits for a
quantifier, as behind a quantified one, a brace is a byte whatever follows. -/
theorem parse_brace {pattern : Bytes} (hrun : Run .start pieces (brace :: after) s)
    (hpattern : pattern = writePieces pieces ++ brace :: after) :
    (∀ t, s.pending = some t →
      (∀ text least most rest, IsBound text least most → after = text ++ rest →
        (InBounds least most ∧ ∃ greedy rest', rest = writeGreedy greedy ++ rest' ∧
          ((Unmarked rest' ∧
              Tree.parse pattern = (s.repeated t least most greedy).parse pattern rest') ∨
            ¬ Unmarked rest' ∧
              Tree.parse pattern = .error (.nestedQuantifier, pattern.length - rest'.length))) ∨
        ¬ InBounds least most ∧ ∃ error offset, Tree.parse pattern = .error (error, offset) ∧
          (error = .countTooLarge ∨ error = .boundsOutOfOrder)) ∧
      (Unbounded after →
        Tree.parse pattern = (s.atom (.byte brace)).parse pattern after) ∧
      (∀ text rest, TooLarge text → DigitsEnd rest → after = text ++ rest →
        Tree.parse pattern = .error (.countTooLarge, pattern.length - rest.length))) ∧
    (s.pending = none → Tree.parse pattern = (s.atom (.byte brace)).parse pattern after) := by
  have hparse : Tree.parse pattern = s.parse pattern (brace :: after) := hpattern ▸ hrun.parse_eq
  rw [hparse]
  refine ⟨fun t hpending => ⟨?bounds, fun h => ?literal, ?tooLarge⟩, fun hpending => ?quantified⟩
  case bounds =>
    rintro text least most rest hbound rfl
    obtain ⟨hin, -⟩ | ⟨hout, error, left, hbounds, herror⟩ := bounds_of_isBound hbound rest
    · obtain ⟨greedy, rest', rfl, ⟨hmark, hread⟩ | ⟨hmark, hread⟩⟩ :=
        read_brace_bound hpending hbound hin rest
      · exact .inl ⟨hin, greedy, rest', rfl, .inl ⟨hmark, Reading.parse_congr hread⟩⟩
      · exact .inl ⟨hin, greedy, rest', rfl, .inr ⟨hmark, Reading.parse_error hread⟩⟩
    · exact .inr ⟨hout, error, _, Reading.parse_error (read_brace_error hpending hbounds), herror⟩
  case literal => exact Reading.parse_congr (read_brace_literal fun _ => h)
  case tooLarge =>
    rintro text rest hlarge hend rfl
    exact Reading.parse_error (read_brace_error hpending (bounds_tooLarge hlarge hend))
  case quantified =>
    refine Reading.parse_congr (read_brace_literal fun hsome => ?_)
    rw [hpending] at hsome
    cases hsome

/-- A comma with no count before it starts no bounds. -/
theorem parse_brace_comma : Run .start [.atom (ascii "x")] (brace :: ascii ",5\x7d")
      (Reading.start.atom (.byte 120)) ∧
    Tree.parse (ascii "x\x7b,5\x7d") = ((Reading.start.atom (.byte 120)).atom (.byte brace)).parse
      (ascii "x\x7b,5\x7d") (ascii ",5\x7d") := by
  have hatom : IsAtom (ascii "x") (.byte 120) :=
    .intro (by decide) (by decide) (by decide) fun _ => rfl
  have hrun : Run .start [.atom (ascii "x")] (brace :: ascii ",5\x7d")
      (Reading.start.atom (.byte 120)) := .cons (.atom hatom Bool.noConfusion) .nil
  have hcomma : Unbounded (ascii ",5\x7d") := bounds_eq_none_iff.mp rfl
  exact ⟨hrun, ((parse_brace hrun rfl).1 _ rfl).2.1 hcomma⟩

/-- Bounds behind a quantified atom are read as bytes, and a count that is too large is an error even
where no closing brace makes it one of bounds. -/
theorem parse_brace_quantified :
    (∃ s, Run .start [.atom (ascii "a"), .quantifier (ascii "*") true] (brace :: ascii "2\x7d") s ∧
      IsBound (ascii "2\x7d") 2 (some 2) ∧ Tree.parse (ascii "a*\x7b2\x7d") =
        .ok (.seq (.rep (.byte 97) 0 none true) (.seq (.byte 123) (.seq (.byte 50) (.byte 125))), 0)) ∧
    ∃ s, Run .start [.atom (ascii "a")] (brace :: ascii "1001") s ∧
      (∀ text least most, IsBound text least most → ¬ text <+: ascii "1001") ∧
      Tree.parse (ascii "a\x7b1001") = .error (.countTooLarge, 6) := by
  have hatom : IsAtom (ascii "a") (.byte 97) :=
    .intro (by decide) (by decide) (by decide) fun _ => rfl
  have hstar : IsQuantifier (ascii "*") 0 none := .mark rfl
  have hmark : Unmarked (brace :: ascii "2\x7d") := unmarked_cons.mpr (by decide)
  have hstep : Step (Reading.start.atom (.byte 97)) (.quantifier (ascii "*") true)
    (brace :: ascii "2\x7d") _ := .quantifier rfl hstar hmark
  have htwo : IsBound (ascii "2\x7d") 2 (some 2) :=
    @IsBound.exactly (ascii "2") ⟨by decide, List.all_eq_true.mp (by decide)⟩
  have hletter : Run .start [.atom (ascii "a")] (brace :: ascii "1001") _ :=
    .cons (.atom hatom Bool.noConfusion) .nil
  have hlarge : TooLarge (ascii "1001") :=
    .least ⟨by decide, List.all_eq_true.mp (by decide)⟩ (by decide)
  have hbounds : bounds (ascii "1001") = .error ⟨.countTooLarge, 0⟩ :=
    bounds_tooLarge hlarge digitsEnd_nil
  refine ⟨⟨_, .cons (.atom hatom Bool.noConfusion) (.cons hstep .nil), htwo, by cbv⟩, _, hletter, ?_,
    hletter.parse_eq.trans (Reading.parse_error (read_brace_error rfl hbounds))⟩
  intro text least most hbound hstarts
  have hclose : byte '\x7d' ∈ text := by cases hbound <;> simp
  exact absurd (hstarts.subset hclose) (by decide)

end Bytework.Pattern
