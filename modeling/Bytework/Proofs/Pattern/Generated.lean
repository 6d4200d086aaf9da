import Bytework.Pattern.Program
import Mathlib.Algebra.Ring.Nat
import Mathlib.Data.List.Basic

/-!
# Generated code

What the generator of code makes of a tree, written down as one list of instructions.

* `Tree.size`: how many instructions a tree takes; `Tree.emit`: the instructions from an address on.
* `Code.extend?`: code with a piece behind it, if there is room for the whole piece.
* `Code.times_eq`, `Code.choices_eq`, `Code.fill_choices`: copies of a piece, and the splits in front
  of them.
* **`Tree.generate_eq`**: the generator puts exactly these instructions behind the code that there is,
  and fails exactly if there is no room for them.
* **`Program.ofTree?_eq`**: so does that of whole programs.
-/

namespace Bytework.Pattern

/-! ## The code of a tree -/

namespace Tree

/-- How many instructions a tree takes. -/
def size : Tree → Nat
  | .empty => 0
  | .byte _ => 1
  | .any => 1
  | .set _ _ => 1
  | .start => 1
  | .stop => 1
  | .group body none => size body
  | .group body (some _) => size body + 2
  | .seq first second => size first + size second
  | .alt left right => size left + size right + 2
  | .rep body least none _ => least * size body + size body + 2
  | .rep body least (some most) _ => least * size body + (most - least) * (size body + 1)

/-- The instructions of a tree from the address `pc` on. With `ungreedy`, greedy and lazy change
places. A repetition is laid out copy by copy; all optional copies share one way out. -/
def emit (ungreedy : Bool) : Tree → Nat → List Inst
  | .empty, _ => []
  | .byte b, _ => [.byte b]
  | .any, _ => [.any]
  | .set ranges negated, _ => [.set ranges negated]
  | .start, _ => [.assertStart]
  | .stop, _ => [.assertStop]
  | .group body none, pc => emit ungreedy body pc
  | .group body (some i), pc =>
    .save (2 * i + 2) :: (emit ungreedy body (pc + 1) ++ [.save (2 * i + 3)])
  | .seq first second, pc => emit ungreedy first pc ++ emit ungreedy second (pc + first.size)
  | .alt left right, pc =>
    let next := pc + left.size + 2
    .split (pc + 1) next ::
      (emit ungreedy left (pc + 1) ++ .jump (next + right.size) :: emit ungreedy right next)
  | .rep body least none greedy, pc =>
    let loop := pc + least * body.size
    (List.range least).flatMap (fun i => emit ungreedy body (pc + i * body.size)) ++
      branch (greedy != ungreedy) (loop + 1) (loop + body.size + 2) ::
        (emit ungreedy body (loop + 1) ++ [.jump loop])
  | .rep body least (some most) greedy, pc =>
    let first := pc + least * body.size
    let out := first + (most - least) * (body.size + 1)
    (List.range least).flatMap (fun i => emit ungreedy body (pc + i * body.size)) ++
      (List.range (most - least)).flatMap fun i =>
        let copy := first + i * (body.size + 1)
        branch (greedy != ungreedy) (copy + 1) out :: emit ungreedy body (copy + 1)

@[simp] theorem length_emit (ungreedy : Bool) (t : Tree) (pc : Nat) :
    (t.emit ungreedy pc).length = t.size := by
  induction t generalizing pc with
  | empty | byte | any | set | start | stop => rfl
  | group body index ih =>
    cases index with
    | none => exact ih pc
    | some i => simp [emit, size, ih]
  | seq first second ih₁ ih₂ => simp [emit, size, ih₁, ih₂]
  | alt left right ih₁ ih₂ =>
    simp [emit, size, ih₁, ih₂]
    omega
  | rep body least most greedy ih =>
    cases most with
    | none =>
      simp [emit, size, ih, List.length_flatMap]
      omega
    | some most => simp [emit, size, ih, List.length_flatMap]

theorem size_ofItems (items : List Tree) : (ofItems items).size = (items.map size).sum := by
  fun_induction ofItems items with
  | case1 => rfl
  | case2 t => simp
  | case3 t u rest ih =>
    rw [size, ih]
    rfl

theorem size_ofBranches (t : Tree) (branches : List Tree) : (ofBranches (t :: branches)).size =
    ((t :: branches).map size).sum + 2 * branches.length := by
  induction branches generalizing t with
  | nil => simp [ofBranches]
  | cons u branches ih =>
    simp only [ofBranches, size, ih, List.map_cons, List.sum_cons, List.length_cons]
    omega

end Tree

/-! ## Room for code -/

namespace Code

/-- Code with a piece behind it, if there is room for the whole piece. -/
def extend? (code : Code) (piece : List Inst) : Option Code :=
  if code.size + piece.length ≤ maxProgram then some (code ++ piece.toArray) else none

variable {code code' : Code} {piece more : List Inst}

theorem size_append_toArray : (code ++ piece.toArray).size = code.size + piece.length := by
  simp

theorem append_toArray_append :
    code ++ piece.toArray ++ more.toArray = code ++ (piece ++ more).toArray := by
  simp

theorem push?_eq (inst : Inst) : code.push? inst = code.extend? [inst] := by
  rw [push?, extend?, List.length_singleton, Array.push_eq_append]
  by_cases h : maxProgram ≤ code.size
  · rw [if_pos h, if_neg (by omega)]
  · rw [if_neg h, if_pos (by omega)]

theorem extend?_nil (h : code.size ≤ maxProgram) : code.extend? [] = some code := by
  simp [extend?, h]

theorem some_eq_extend? (hcode : code' = code ++ piece.toArray) (h : code'.size ≤ maxProgram) :
    some code' = code.extend? piece := by
  rw [hcode, size_append_toArray] at h
  rw [extend?, if_pos h, hcode]

theorem extend?_append (hcode : code' = code ++ piece.toArray) :
    code'.extend? more = code.extend? (piece ++ more) := by
  rw [hcode, extend?, extend?, append_toArray_append, size_append_toArray, List.length_append,
    Nat.add_assoc]

/-- **What goes on behind a piece** may reckon with its room: without it, there is none for a longer
piece, either. -/
theorem extend?_bind {β : Type} {f g : Code → Option β} (hle : piece.length ≤ more.length)
    (h : ∀ code' : Code, code' = code ++ piece.toArray → code'.size = code.size + piece.length →
      code'.size ≤ maxProgram → f code' = (code.extend? more).bind g) :
    (code.extend? piece).bind f = (code.extend? more).bind g := by
  by_cases hroom : code.size + piece.length ≤ maxProgram
  · rw [extend?, if_pos hroom]
    exact h _ rfl size_append_toArray (size_append_toArray ▸ hroom)
  · rw [extend?, extend?, if_neg hroom, if_neg (by omega)]
    rfl

theorem extend?_then {f : Code → Option Code} (hle : piece.length ≤ more.length)
    (h : ∀ code' : Code, code' = code ++ piece.toArray → code'.size = code.size + piece.length →
      code'.size ≤ maxProgram → f code' = code.extend? more) :
    (code.extend? piece).bind f = code.extend? more := by
  rw [← Option.bind_fun_some (code.extend? more)] at h ⊢
  exact extend?_bind hle h

@[simp] theorem size_fill (code : Code) (addresses : List Nat) (inst : Nat → Inst) :
    (code.fill addresses inst).size = code.size := by
  induction addresses generalizing code with
  | nil => rfl
  | cons pc addresses ih => exact (ih _).trans Array.size_setIfInBounds

theorem fill_singleton (before after : List Inst) {held : Inst} {pc : Nat} (inst : Nat → Inst)
    (hcode : code' = code ++ (before ++ held :: after).toArray)
    (hpc : pc = code.size + before.length) :
    code'.fill [pc] inst = code ++ (before ++ inst pc :: after).toArray := by
  subst hcode hpc
  show (code ++ _).setIfInBounds _ _ = _
  apply Array.ext'
  simp [List.set_append_right]

/-! ## Copies -/

section Copies

variable {generate : Code → Option Code} {block : Nat → List Inst} {width : Nat}

theorem flatMap_range_succ {α : Type} (n : Nat) (f : Nat → List α) :
    (List.range (n + 1)).flatMap f = f 0 ++ (List.range n).flatMap fun i => f (i + 1) := by
  rw [List.range_succ_eq_map, List.flatMap_cons, List.flatMap_map]

theorem address_succ (pc width i : Nat) : pc + width + i * width = pc + (i + 1) * width := by
  rw [Nat.succ_mul]
  omega

/-- **Copies of a piece**, each behind the one before. -/
theorem times_eq (hblock : ∀ pc, (block pc).length = width)
    (hgenerate : ∀ code : Code, code.size ≤ maxProgram →
      generate code = code.extend? (block code.size)) (n : Nat) (h : code.size ≤ maxProgram) :
    times generate n code =
      code.extend? ((List.range n).flatMap fun i => block (code.size + i * width)) := by
  induction n generalizing code with
  | zero => exact (extend?_nil h).symm
  | succ n ih =>
    rw [times, hgenerate code h, flatMap_range_succ, Nat.zero_mul, Nat.add_zero]
    refine extend?_then (by simp) fun code₁ hcode₁ hsize₁ hroom => ?_
    rw [ih hroom, extend?_append hcode₁, hsize₁, hblock]
    simp only [address_succ]

/-- **Copies of a piece behind instructions that are filled in later**, with the addresses of these. -/
theorem choices_eq (hblock : ∀ pc, (block pc).length = width)
    (hgenerate : ∀ code : Code, code.size ≤ maxProgram →
      generate code = code.extend? (block code.size)) (n : Nat) (h : code.size ≤ maxProgram) :
    choices generate n code =
      (code.extend? ((List.range n).flatMap fun i =>
        .accept :: block (code.size + i * (width + 1) + 1))).bind fun code' =>
          some (code', (List.range n).map fun i => code.size + i * (width + 1)) := by
  induction n generalizing code with
  | zero =>
    rw [List.range_zero, List.flatMap_nil, extend?_nil h]
    rfl
  | succ n ih =>
    simp only [choices, push?_eq, bind, pure, flatMap_range_succ, Nat.zero_mul, Nat.add_zero]
    refine extend?_bind (by simp) fun code₁ hcode₁ hsize₁ hroom => ?_
    rw [hgenerate _ hroom, extend?_append hcode₁, hsize₁]
    refine extend?_bind (by simp) fun code₂ hcode₂ hsize₂ hroom => ?_
    have hsize : code₂.size = code.size + (width + 1) := by
      rw [hsize₂, List.length_append, hblock, Nat.add_comm width]
      rfl
    rw [ih hroom, extend?_append hcode₂, hsize, Option.bind_assoc, List.range_succ_eq_map,
      List.map_cons, List.map_map, Nat.zero_mul, Nat.add_zero]
    simp only [address_succ, Option.bind_some]
    rfl

/-- **Instructions filled in** in front of copies of a piece. -/
theorem fill_choices (hblock : ∀ pc, (block pc).length = width) (held : Inst) (inst : Nat → Inst)
    (n : Nat) (code : Code) :
    (code ++ ((List.range n).flatMap fun i =>
        held :: block (code.size + i * (width + 1) + 1)).toArray).fill
          ((List.range n).map fun i => code.size + i * (width + 1)) inst =
      code ++ ((List.range n).flatMap fun i =>
        inst (code.size + i * (width + 1)) :: block (code.size + i * (width + 1) + 1)).toArray := by
  induction n generalizing code with
  | zero => rfl
  | succ n ih =>
    -- the first block, with its instruction, is part of the code in front of the others
    have hnext := ih (code ++ (inst code.size :: block (code.size + 1)).toArray)
    rw [size_append_toArray, List.length_cons, hblock] at hnext
    simp only [address_succ, append_toArray_append] at hnext
    have haddresses : (List.range (n + 1)).map (fun i => code.size + i * (width + 1)) =
        [code.size] ++ (List.range n).map fun i => code.size + (i + 1) * (width + 1) := by
      rw [List.range_succ_eq_map, List.map_cons, List.map_map, Nat.zero_mul, Nat.add_zero]
      rfl
    simp only [haddresses, flatMap_range_succ, Nat.zero_mul, Nat.add_zero]
    rw [← hnext, fill, List.foldl_append]
    refine congrArg (fill · _ inst) ?_
    exact fill_singleton [] _ inst rfl rfl

end Copies

end Code

/-! ## Generated trees -/

namespace Tree

open Code

/-- The generator puts the instructions of a tree behind the code that there is. -/
def Generates (ungreedy : Bool) (t : Tree) : Prop := ∀ code : Code, code.size ≤ maxProgram →
  t.generate ungreedy code = code.extend? (t.emit ungreedy code.size)

section Generates

variable {ungreedy : Bool} {body left right : Tree}

theorem generates_group (i : Nat) (hbody : body.Generates ungreedy) :
    (group body (some i)).Generates ungreedy := by
  intro code h
  simp only [generate, push?_eq, bind, emit]
  refine extend?_then (by simp) fun code₁ hcode₁ hsize₁ hroom => ?_
  rw [hbody _ hroom, extend?_append hcode₁, hsize₁]
  refine extend?_then (by simp) fun code₂ hcode₂ hsize₂ hroom => ?_
  rw [extend?_append hcode₂]
  rfl

theorem generates_seq (hleft : left.Generates ungreedy) (hright : right.Generates ungreedy) :
    (seq left right).Generates ungreedy := by
  intro code h
  simp only [generate, bind, emit]
  rw [hleft _ h]
  refine extend?_then (by simp) fun code₁ hcode₁ hsize₁ hroom => ?_
  rw [hright _ hroom, extend?_append hcode₁, hsize₁, length_emit]

theorem generates_alt (hleft : left.Generates ungreedy) (hright : right.Generates ungreedy) :
    (alt left right).Generates ungreedy := by
  intro code h
  simp only [generate, push?_eq, bind, pure, emit]
  refine extend?_then (by simp) fun code₁ hcode₁ hsize₁ hroom => ?_
  rw [hleft _ hroom, extend?_append hcode₁, hsize₁]
  refine extend?_then (by simp) fun code₂ hcode₂ hsize₂ hroom => ?_
  rw [extend?_append hcode₂]
  refine extend?_then (by simp) fun code₃ hcode₃ hsize₃ hroom => ?_
  have hnext : code₃.size = code.size + left.size + 2 := by
    simp only [hsize₃, List.length_append, List.length_singleton, length_emit]
    omega
  -- the split is filled in before the second alternative, the jump behind it
  have hsplit := fill_singleton [] (left.emit ungreedy (code.size + 1) ++ [.accept])
    (fun pc => .split (pc + 1) code₃.size) (by simpa using hcode₃) (Nat.add_zero code.size).symm
  rw [hright _ (by rwa [size_fill]), extend?_append hsplit, size_fill, hnext]
  refine extend?_then (by simp) fun code₄ hcode₄ hsize₄ hroom => ?_
  have hstop : code₄.size = code.size + left.size + 2 + right.size := by
    simp only [hsize₄, List.length_append, List.length_cons, List.length_nil, length_emit]
    omega
  have hjump := fill_singleton (.split (code.size + 1) (code.size + left.size + 2) ::
      left.emit ungreedy (code.size + 1)) (right.emit ungreedy (code.size + left.size + 2))
    (fun _ => .jump code₄.size) (by simpa using hcode₄) (by simpa using hsize₂)
  refine some_eq_extend? ?_ (by rwa [size_fill])
  rw [hjump, hstop]
  rfl

theorem generates_loop (least : Nat) (greedy : Bool) (hbody : body.Generates ungreedy) :
    (rep body least none greedy).Generates ungreedy := by
  intro code h
  simp only [generate, push?_eq, bind, pure, emit]
  rw [times_eq (length_emit ungreedy body) hbody least h]
  refine extend?_then (by simp) fun code₁ hcode₁ hsize₁ hroom => ?_
  have hloop : code₁.size = code.size + least * body.size := by
    simpa [List.length_flatMap] using hsize₁
  rw [extend?_append hcode₁]
  refine extend?_then (by simp) fun code₂ hcode₂ hsize₂ hroom => ?_
  have hinner : code₂.size = code.size + least * body.size + 1 := by
    rw [hsize₂, List.length_append, ← Nat.add_assoc, ← hsize₁, hloop]
    rfl
  rw [hbody _ hroom, extend?_append hcode₂, hinner]
  refine extend?_then (by simp) fun code₃ hcode₃ hsize₃ hroom => ?_
  rw [extend?_append hcode₃]
  refine extend?_then (by simp) fun code₄ hcode₄ hsize₄ hroom => ?_
  have hout : code₄.size = code.size + least * body.size + body.size + 2 := by
    rw [List.length_append, ← Nat.add_assoc, ← hsize₂, hinner, length_emit] at hsize₃
    rw [hsize₄, List.length_append, ← Nat.add_assoc, List.length_append, ← Nat.add_assoc, ← hsize₂,
      hinner, length_emit, List.length_singleton]
    omega
  have hsplit := fill_singleton
    ((List.range least).flatMap fun i => body.emit ungreedy (code.size + i * body.size))
    (body.emit ungreedy (code.size + least * body.size + 1) ++ [.jump code₁.size])
    (fun pc => branch (greedy != ungreedy) (pc + 1) code₄.size) (by simpa using hcode₄) hsize₁
  refine some_eq_extend? ?_ (by rwa [size_fill])
  rw [hsplit, hout, hloop]

theorem generates_options (least most : Nat) (greedy : Bool) (hbody : body.Generates ungreedy) :
    (rep body least (some most) greedy).Generates ungreedy := by
  intro code h
  simp only [generate, bind, pure, emit]
  rw [times_eq (length_emit ungreedy body) hbody least h]
  refine extend?_then (by simp) fun code₁ hcode₁ hsize₁ hroom => ?_
  have hfirst : code₁.size = code.size + least * body.size := by
    simpa [List.length_flatMap] using hsize₁
  rw [choices_eq (length_emit ungreedy body) hbody _ hroom, Option.bind_assoc, extend?_append hcode₁,
    hfirst]
  refine extend?_then (by simp) fun code₂ hcode₂ hsize₂ hroom => ?_
  have hout : code₂.size = code.size + least * body.size + (most - least) * (body.size + 1) := by
    rw [hsize₂, List.length_append, ← Nat.add_assoc, ← hsize₁, hfirst]
    simp [List.length_flatMap]
  have hsplits := fill_choices (length_emit ungreedy body) .accept
    (fun pc => branch (greedy != ungreedy) (pc + 1) code₂.size) (most - least) code₁
  rw [hfirst, hcode₁, append_toArray_append, append_toArray_append, ← hcode₂, hout] at hsplits
  rw [Option.bind_some, hout]
  exact some_eq_extend? hsplits (by rwa [size_fill])

end Generates

/-- **The code of a tree.** Where the code that there is ends, the generator puts the instructions of
the tree, and it fails exactly if there is no room for all of them. -/
theorem generate_eq (ungreedy : Bool) (t : Tree) {code : Code} (h : code.size ≤ maxProgram) :
    t.generate ungreedy code = code.extend? (t.emit ungreedy code.size) := by
  suffices hall : t.Generates ungreedy from hall code h
  clear h code
  induction t with
  | empty => exact fun code h => (extend?_nil h).symm
  | byte | any | set | start | stop => exact fun code h => push?_eq _
  | group body index ih =>
    cases index with
    | none => exact ih
    | some i => exact generates_group i ih
  | seq first second ih₁ ih₂ => exact generates_seq ih₁ ih₂
  | alt left right ih₁ ih₂ => exact generates_alt ih₁ ih₂
  | rep body least most greedy ih =>
    cases most with
    | none => exact generates_loop least greedy ih
    | some most => exact generates_options least most greedy ih

end Tree

/-- **The program of a tree** is its code between the marks of the whole match, and there is none
exactly if that is too large. -/
theorem Program.ofTree?_eq (ungreedy : Bool) (t : Tree) (groups : Nat) :
    Program.ofTree? ungreedy t groups =
      if t.size + 3 ≤ maxProgram then
        some ⟨(.save 0 :: (t.emit ungreedy 1 ++ [.save 1, .accept])).toArray, groups⟩
      else none := by
  have hcode : Program.ofTree? ungreedy t groups =
      (Code.extend? #[] (.save 0 :: (t.emit ungreedy 1 ++ [.save 1, .accept]))).bind fun code =>
        some ⟨code, groups⟩ := by
    simp only [ofTree?, Code.push?_eq, bind, pure]
    refine Code.extend?_bind (by simp) fun code₁ hcode₁ hsize₁ hroom => ?_
    rw [t.generate_eq ungreedy hroom, Code.extend?_append hcode₁, hsize₁]
    refine Code.extend?_bind (by simp) fun code₂ hcode₂ hsize₂ hroom => ?_
    rw [Code.extend?_append hcode₂]
    refine Code.extend?_bind (by simp) fun code₃ hcode₃ hsize₃ hroom => ?_
    rw [Code.extend?_append hcode₃]
    simp
  have hlength : (#[] : Code).size +
      (.save 0 :: (t.emit ungreedy 1 ++ [.save 1, .accept])).length = t.size + 3 := by
    simp
  rw [hcode, Code.extend?, hlength]
  by_cases h : t.size + 3 ≤ maxProgram
  · rw [if_pos h, if_pos h, Option.bind_some, Array.empty_append]
  · rw [if_neg h, if_neg h, Option.bind_none]

end Bytework.Pattern
