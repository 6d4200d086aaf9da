import Bytework.Proofs.Pattern.Expressed
import Bytework.Proofs.Pattern.Pieces

/-!
# Parentheses of a pattern

The parentheses that a pattern has outside of its classes and not behind a backslash, and what they
become in its tree.

* `Paren`; `Mode`, `parensFrom`, `parens`: the parentheses of a text, found byte by byte.
* `Tree.parens`, `Tree.indices`: those of a tree, each opening one with the index of its group.
* `parensFrom_atom`, `parensFrom_quantifier`: atoms and quantifiers have none.
* `Step.parensFrom_eq`, `Step.shape_eq`: those of one piece, in the text and in what has been read;
  `Run.parensFrom_eq`, `Run.shape_eq` for a whole run.
* `Says`, `Refused`: what holds of a pattern that is read, and of one that is not.
* **`parse_cases`**: every pattern is read to its end, with its groups numbered as they open, or it is
  refused at one of its places.
-/

namespace Bytework.Pattern

/-- A parenthesis: one that opens a group, with what is to be said of the group, or one that closes
it. -/
inductive Paren (α : Type)
  | opening (group : α)
  | closing
  deriving DecidableEq, Repr

namespace Paren

variable {α β : Type}

/-- Something else said of the group. -/
def map (f : α → β) : Paren α → Paren β
  | .opening group => .opening (f group)
  | .closing => .closing

/-- What an opening parenthesis says of its group. -/
def group? : Paren α → Option α
  | .opening group => some group
  | .closing => none

end Paren

/-! ## In a text -/

/-- Where the next byte of a pattern stands. -/
inductive Mode
  /-- Outside of classes. -/
  | outside
  /-- There, behind a backslash. -/
  | escaped
  /-- Behind the bracket that opens a class. -/
  | opened
  /-- At the first member of a class. -/
  | first
  /-- At another one. -/
  | inside
  /-- In a class, behind a backslash. -/
  | quoted
  deriving DecidableEq, Repr

/-- Where the byte after `b` stands. A bracket that comes first in a class does not close it. -/
def Mode.next (b : UInt8) : Mode → Mode
  | .outside => if b = backslash then .escaped else if b = byte '[' then .opened else .outside
  | .escaped => .outside
  | .opened => if b = byte '^' then .first else if b = backslash then .quoted else .inside
  | .first => if b = backslash then .quoted else .inside
  | .inside => if b = byte ']' then .outside else if b = backslash then .quoted else .inside
  | .quoted => .inside

/-- The parentheses of a text, of which the first byte stands as `mode` says; those that open a group
with whether it captures. -/
def parensFrom : Mode → Bytes → List (Paren Bool)
  | _, [] => []
  | mode, b :: rest =>
    let more := parensFrom (mode.next b) rest
    if mode = .outside ∧ b = byte '(' then
      .opening (!([byte '?', byte ':'].isPrefixOf rest)) :: more
    else if mode = .outside ∧ b = byte ')' then .closing :: more
    else more

/-- The parentheses of a pattern. -/
def parens (pattern : Bytes) : List (Paren Bool) := parensFrom .outside pattern

/-- Those in a class and behind a backslash do not count. -/
example : parens (ascii "(a)[)(](?:\\))") =
    [.opening true, .closing, .opening false, .closing] := by decide

/-! ## In a tree -/

namespace Tree

/-- The parentheses of a tree, with the indices of its groups. -/
def parens : Tree → List (Paren (Option Nat))
  | .group body index => .opening index :: (body.parens ++ [.closing])
  | .seq first second => first.parens ++ second.parens
  | .alt left right => left.parens ++ right.parens
  | .rep body _ _ _ => body.parens
  | _ => []

/-- The indices of the groups of a tree, in the order in which they open. -/
def indices (t : Tree) : List Nat := (t.parens.filterMap Paren.group?).filterMap id

theorem parens_ofItems (items : List Tree) : (ofItems items).parens = items.flatMap parens := by
  fun_induction ofItems items with
  | case1 => rfl
  | case2 t => simp
  | case3 t u rest ih =>
    rw [parens, ih]
    rfl

theorem parens_ofBranches (branches : List Tree) :
    (ofBranches branches).parens = branches.flatMap parens := by
  fun_induction ofBranches branches with
  | case1 => rfl
  | case2 t => simp
  | case3 t u rest ih =>
    rw [parens, ih]
    rfl

theorem indices_group (body : Tree) (index : Option Nat) :
    (group body index).indices = index.toList ++ body.indices := by
  cases index <;> simp [indices, parens, Paren.group?]

theorem indices_seq (first second : Tree) :
    (seq first second).indices = first.indices ++ second.indices := by
  simp [indices, parens]

/-- Groups that are numbered from `n` on have the indices from `n` on, in the order in which they
open. -/
theorem indices_eq_range' {t : Tree} {n : Nat} (h : t.NumberedFrom n) :
    t.indices = List.range' n t.captures := by
  induction t generalizing n with
  | group body index ih =>
    rw [indices_group]
    cases index with
    | none => simpa [captures] using ih h
    | some i =>
      obtain ⟨rfl, hbody⟩ := h
      rw [ih hbody, captures, Option.isSome_some, if_pos rfl, Nat.add_comm 1, List.range'_succ]
      rfl
  | seq first second ih₁ ih₂ =>
    rw [indices_seq, ih₁ h.1, ih₂ h.2, List.range'_append_1, captures]
  | alt left right ih₁ ih₂ =>
    rw [show (alt left right).indices = left.indices ++ right.indices from indices_seq left right,
      ih₁ h.1, ih₂ h.2, List.range'_append_1, captures]
  | rep body least most greedy ih => exact ih h
  | empty | byte | any | set | start | stop => rfl

end Tree

/-! ## Atoms and quantifiers -/

section Items

variable {b lo : UInt8} {rest after text : Bytes} {ranges : List ByteRange} {t : Tree} {mode : Mode}

theorem parensFrom_skip (h : mode = .outside → b ≠ byte '(' ∧ b ≠ byte ')') :
    parensFrom mode (b :: rest) = parensFrom (mode.next b) rest := by
  rw [parensFrom, if_neg fun hopen => (h hopen.1).1 hopen.2,
    if_neg fun hclose => (h hclose.1).2 hclose.2]

theorem parensFrom_opening : parensFrom .outside (byte '(' :: rest) =
    .opening (!([byte '?', byte ':'].isPrefixOf rest)) :: parensFrom .outside rest := rfl

theorem parensFrom_closing :
    parensFrom .outside (byte ')' :: rest) = .closing :: parensFrom .outside rest := rfl

theorem parensFrom_next (h : mode ≠ .outside) :
    parensFrom mode (b :: rest) = parensFrom (mode.next b) rest :=
  parensFrom_skip fun houtside => absurd houtside h

theorem after_of_closeRange {hi : UInt8} (h : closeRange lo hi rest = .ok (ranges, after)) :
    after = rest := by
  unfold closeRange at h
  split at h
  · cases h
  · cases h
    rfl

theorem parensFrom_rangeFrom (h : rangeFrom lo rest = .ok (ranges, after)) :
    parensFrom .inside rest = parensFrom .inside after := by
  unfold rangeFrom at h
  split at h
  · rename_i hyphen hi tail
    split at h
    · rename_i hrange
      obtain ⟨rfl, hbracket⟩ := hrange
      rw [parensFrom_next (by decide), show Mode.next (byte '-') .inside = .inside from rfl,
        parensFrom_next (by decide)]
      split at h
      · rename_i hescape
        subst hescape
        split at h
        · cases h
        · rw [after_of_closeRange h]
          exact parensFrom_next (by decide)
      · rename_i hescape
        rw [after_of_closeRange h, Mode.next, if_neg hbracket, if_neg hescape]
    · cases h
      rfl
  · cases h
    rfl

/-- A member of a class, wherever the class does not end. -/
theorem parensFrom_classItem (hmode : mode ≠ .outside)
    (hnext : mode.next b = if b = backslash then .quoted else .inside)
    (h : classItem b rest = .ok (ranges, after)) :
    parensFrom mode (b :: rest) = parensFrom .inside after := by
  rw [parensFrom_next hmode, hnext]
  unfold classItem at h
  split at h
  · rename_i hescape
    rw [if_pos hescape]
    split at h
    · cases h
    · rw [parensFrom_next (by decide)]
      split at h
      · cases h
        rfl
      · exact parensFrom_rangeFrom h
  · rename_i hescape
    rw [if_neg hescape]
    exact parensFrom_rangeFrom h

theorem parensFrom_classItems {first : Bool} (h : classItems first rest = .ok (ranges, after)) :
    parensFrom (if first then .first else .inside) rest = parensFrom .outside after := by
  fun_induction classItems first rest generalizing ranges with
  | case1 => cases h
  | case2 first b rest hclose =>
    cases h
    obtain ⟨rfl, rfl⟩ := hclose
    exact parensFrom_next (by decide)
  | case3 => cases h
  | case4 first b rest hclose found tail hitem ih =>
    have hrest : parensFrom .inside tail = parensFrom .outside after := by
      cases hmore : classItems false tail with
      | error fault =>
        rw [hmore] at h
        cases h
      | ok r =>
        rw [hmore] at h
        cases h
        exact ih hmore
    rw [← hrest]
    cases first with
    | true => exact parensFrom_classItem (by decide) rfl hitem
    | false =>
      refine parensFrom_classItem (by decide) ?_ hitem
      rw [if_neg Bool.false_ne_true, Mode.next, if_neg fun hb => hclose ⟨hb, rfl⟩]

theorem parensFrom_classTree (h : classTree rest = .ok (t, after)) :
    parensFrom .opened rest = parensFrom .outside after := by
  obtain ⟨⟨ranges, after'⟩, hitems, hr⟩ :
    ∃ r, classItems true _ = .ok r ∧ _ = (t, after) := map_eq_ok h
  cases hr
  rw [← parensFrom_classItems hitems, if_pos rfl]
  cases rest with
  | nil => rfl
  | cons b rest =>
    have hopened : Mode.opened ≠ .outside := by decide
    have hfirst : Mode.first ≠ .outside := by decide
    rw [parensFrom_next hopened]
    by_cases hb : b = byte '^'
    · simp only [Mode.next, if_pos hb]
    · simp only [Mode.next, if_neg hb]
      exact (parensFrom_next hfirst).symm

/-- **An atom has no parentheses.** -/
theorem parensFrom_atom (hopen : b ≠ byte '(') (hclose : b ≠ byte ')')
    (h : atom b rest = .ok (t, after)) :
    parensFrom .outside (b :: rest) = parensFrom .outside after := by
  rw [parensFrom_skip fun _ => ⟨hopen, hclose⟩]
  cases atom_iff.mp h with
  | any | start | stop => rfl
  | set hclass => exact parensFrom_classTree hclass
  | escape => exact parensFrom_next (by decide)
  | byte _ _ _ _ hbracket hescape => rw [Mode.next, if_neg hescape, if_neg hbracket]

theorem parensFrom_isAtom {tail : Bytes} (h : IsAtom text t) :
    parensFrom .outside (text ++ tail) = parensFrom .outside tail := by
  cases h with
  | intro _ hopen hclose h => exact parensFrom_atom hopen hclose (h tail)

/-- A byte that neither is a parenthesis nor hides one. -/
def IsInert (b : UInt8) : Prop :=
  b ≠ byte '(' ∧ b ≠ byte ')' ∧ b ≠ backslash ∧ b ≠ byte '['

instance : DecidablePred IsInert := fun b => inferInstanceAs (Decidable (b ≠ byte '(' ∧ _))

theorem parensFrom_inert (h : IsInert b) :
    parensFrom .outside (b :: rest) = parensFrom .outside rest := by
  rw [parensFrom_skip fun _ => ⟨h.1, h.2.1⟩, Mode.next, if_neg h.2.2.1, if_neg h.2.2.2]

theorem parensFrom_append {tail : Bytes} (h : ∀ b ∈ text, IsInert b) :
    parensFrom .outside (text ++ tail) = parensFrom .outside tail := by
  induction text with
  | nil => rfl
  | cons b text ih =>
    obtain ⟨hb, htext⟩ := List.forall_mem_cons.mp h
    exact (parensFrom_inert hb).trans (ih htext)

theorem isInert_of_isBoundByte (h : isBoundByte b = true) : IsInert b := by
  refine ⟨?_, ?_, ?_, ?_⟩ <;> rintro rfl <;> exact absurd h (by decide)

theorem isInert_of_mark? {least : Nat} {most : Option Nat} (h : mark? b = some (least, most)) :
    IsInert b := by
  obtain ⟨rfl, -⟩ | ⟨rfl, -⟩ | ⟨rfl, -⟩ := mark?_cases h <;> decide

/-- **A quantifier has no parentheses.** -/
theorem parensFrom_quantifier {least : Nat} {most : Option Nat} {greedy : Bool} {tail : Bytes}
    (h : IsQuantifier text least most) :
    parensFrom .outside (text ++ writeGreedy greedy ++ tail) = parensFrom .outside tail := by
  refine parensFrom_append fun b hb => ?_
  obtain hb | hb := List.mem_append.mp hb
  · cases h with
    | mark hmark =>
      obtain rfl := List.mem_singleton.mp hb
      exact isInert_of_mark? hmark
    | braced hbound =>
      obtain rfl | hb := List.mem_cons.mp hb
      · decide
      · exact isInert_of_isBoundByte (List.all_eq_true.mp hbound.all_isBoundByte b hb)
  · cases greedy with
    | true => cases hb
    | false =>
      obtain rfl := List.mem_singleton.mp hb
      decide

end Items

/-! ## Pieces -/

/-- The parenthesis that a piece is, if it is one. -/
def Piece.parens : Piece → List (Paren Bool)
  | .opening captures => [.opening captures]
  | .closing => [.closing]
  | .bar | .atom _ | .quantifier _ _ => []

section Pieces

variable {s s' : Reading} {piece : Piece} {pieces : List Piece} {tail : Bytes}

theorem parensFrom_writeOpening {captures : Bool}
    (h : captures = true → tail.head? ≠ some (byte '?')) :
    parensFrom .outside ((Piece.opening captures).write ++ tail) =
      .opening captures :: parensFrom .outside tail := by
  cases captures with
  | true =>
    have hplain : [byte '?', byte ':'].isPrefixOf tail = false := by
      refine Bool.eq_false_iff.mpr fun hstarts => ?_
      obtain ⟨rest, rfl⟩ := List.isPrefixOf_iff_prefix.mp hstarts
      exact h rfl rfl
    calc parensFrom .outside (byte '(' :: tail)
        = .opening true :: parensFrom .outside tail := by
          rw [parensFrom_opening, hplain, Bool.not_false]
  | false =>
    have hplain : [byte '?', byte ':'].isPrefixOf (byte '?' :: byte ':' :: tail) = true := by
      simp [List.isPrefixOf]
    calc parensFrom .outside (byte '(' :: byte '?' :: byte ':' :: tail)
        = .opening false :: parensFrom .outside (byte '?' :: byte ':' :: tail) := by
          rw [parensFrom_opening, hplain, Bool.not_true]
      _ = .opening false :: parensFrom .outside tail := by
          rw [parensFrom_inert (by decide), parensFrom_inert (by decide)]

theorem Step.parensFrom_eq (h : Step s piece tail s') :
    parensFrom .outside (piece.write ++ tail) = piece.parens ++ parensFrom .outside tail := by
  cases h with
  | bar => exact parensFrom_inert (by decide)
  | opening _ hquestion => exact parensFrom_writeOpening hquestion
  | closing => exact parensFrom_closing
  | atom htext => exact parensFrom_isAtom htext
  | quantifier _ htext => exact parensFrom_quantifier htext

theorem Run.parensFrom_eq (h : Run s pieces tail s') :
    parensFrom .outside (writePieces pieces ++ tail) =
      pieces.flatMap Piece.parens ++ parensFrom .outside tail := by
  induction h with
  | nil => rfl
  | cons hstep _ ih =>
    rw [writePieces_cons, hstep.parensFrom_eq, ih, List.flatMap_cons, List.append_assoc]

end Pieces

/-! ## Readings -/

/-- The parentheses of what has been read of a group. -/
def Level.parens (level : Level) : List (Paren (Option Nat)) := level.parts.flatMap Tree.parens

namespace Level

theorem parens_push (level : Level) (t : Tree) : (level.push t).parens = level.parens ++ t.parens := by
  simp [parens, parts, push]

theorem parens_finishBranch (level : Level) : level.finishBranch.parens = level.parens := by
  simp [parens, parts, finishBranch, Tree.parens_ofItems, List.flatMap_append]

theorem parens_tree (level : Level) : level.tree.parens = level.parens := by
  rw [tree, Tree.parens_ofBranches, ← parts_finishBranch]
  exact level.parens_finishBranch

end Level

namespace Reading

/-- The parentheses of what has been read, those of open groups among them. -/
def parens (s : Reading) : List (Paren (Option Nat)) :=
  (s.stack.reverse.flatMap fun entry => entry.1.parens ++ [.opening entry.2]) ++ s.settled.parens

/-- The parentheses of what has been read, as a text has them. -/
def shape (s : Reading) : List (Paren Bool) := s.parens.map (Paren.map Option.isSome)

variable (s : Reading)

theorem shape_finishBranch : s.finishBranch.shape = s.shape := by
  simp only [shape, parens, finishBranch, settled, Option.elim, Level.parens_finishBranch]

theorem shape_openGroup (captures : Bool) :
    (s.openGroup captures).shape = s.shape ++ [.opening captures] := by
  have hnew : Level.new.parens = [] := rfl
  have hindex : (if captures then some s.groups else none).isSome = captures := by
    cases captures <;> rfl
  simp [shape, parens, openGroup, settled, hnew, Paren.map, hindex]

theorem shape_closeGroup {outer : Level} {index : Option Nat} {stack : List (Level × Option Nat)}
    (h : s.stack = (outer, index) :: stack) :
    (s.closeGroup outer index stack).shape = s.shape ++ [.closing] := by
  have hclosed : (s.closeGroup outer index stack).settled =
    outer.push (.group s.settled.tree index) := rfl
  have hparens : (s.closeGroup outer index stack).parens = s.parens ++ [.closing] := by
    rw [parens, parens, h, hclosed, Level.parens_push, Tree.parens, Level.parens_tree]
    simp [closeGroup]
  rw [shape, hparens, List.map_append, shape]
  rfl

theorem shape_atom {t : Tree} (h : t.IsLeaf) : (s.atom t).shape = s.shape := by
  have hsettled : (s.atom t).settled = s.settled.push t := rfl
  have hleaf : t.parens = [] := by
    cases t with
    | group | seq | alt | rep => cases h
    | _ => rfl
  rw [shape, parens, hsettled, Level.parens_push, hleaf, List.append_nil]
  rfl

theorem shape_repeated {t : Tree} {least : Nat} {most : Option Nat} {greedy : Bool}
    (h : s.pending = some t) : (s.repeated t least most greedy).shape = s.shape := by
  have hrepeated : (s.repeated t least most greedy).settled =
    s.level.push (.rep t least most greedy) := rfl
  have hsettled : s.settled = s.level.push t := by rw [settled, h, Option.elim]
  rw [shape, parens, hrepeated, shape, parens, hsettled, Level.parens_push, Level.parens_push]
  rfl

end Reading

section Runs

variable {s s' : Reading} {piece : Piece} {pieces : List Piece} {tail : Bytes}

/-- **One piece** adds the parenthesis that it is. -/
theorem Step.shape_eq (h : Step s piece tail s') : s'.shape = s.shape ++ piece.parens := by
  cases h with
  | bar => rw [Reading.shape_finishBranch, Piece.parens, List.append_nil]
  | opening => exact s.shape_openGroup _
  | closing hstack => exact s.shape_closeGroup hstack
  | atom htext => rw [s.shape_atom htext.isLeaf, Piece.parens, List.append_nil]
  | quantifier hpending => rw [s.shape_repeated hpending, Piece.parens, List.append_nil]

/-- **A run** adds the parentheses of its pieces. -/
theorem Run.shape_eq (h : Run s pieces tail s') :
    s'.shape = s.shape ++ pieces.flatMap Piece.parens := by
  induction h with
  | nil => exact (List.append_nil _).symm
  | cons hstep _ ih => rw [ih, hstep.shape_eq, List.flatMap_cons, List.append_assoc]

/-- **The tree of a pattern has the parentheses of the pattern.** -/
theorem Run.parens_tree (h : Run .start pieces [] s) (hstack : s.stack = []) :
    s.settled.tree.parens.map (Paren.map Option.isSome) = Pattern.parens (writePieces pieces) := by
  have hshape : s.shape = s.settled.parens.map (Paren.map Option.isSome) := by
    rw [Reading.shape, Reading.parens, hstack]
    rfl
  have hpattern : Pattern.parens (writePieces pieces) = pieces.flatMap Piece.parens := by
    rw [Pattern.parens, ← List.append_nil (writePieces pieces), h.parensFrom_eq]
    exact List.append_nil _
  rw [Level.parens_tree, ← hshape, h.shape_eq, hpattern]
  rfl

end Runs

/-! ## Every pattern -/

/-- The groups with an index are those whose opening parenthesis captures. -/
theorem Tree.count_opening (t : Tree) :
    (t.parens.map (Paren.map Option.isSome)).count (.opening true) = t.indices.length := by
  rw [indices]
  induction t.parens with
  | nil => rfl
  | cons paren rest ih =>
    cases paren with
    | closing => exact (List.count_cons_of_ne (by simp [Paren.map])).trans ih
    | opening index =>
      cases index with
      | none => exact (List.count_cons_of_ne (by simp [Paren.map])).trans ih
      | some i => exact List.count_cons_self.trans (congrArg (· + 1) ih)

/-- What holds of a pattern that has been read. -/
structure Says (pattern : Bytes) (t : Tree) (groups : Nat) : Prop where
  /-- It has been read to its end, one piece where the one before it ended, and no group is open. -/
  whole : ∃ pieces s, pattern = writePieces pieces ∧ Run .start pieces [] s ∧ s.stack = [] ∧
    t = s.settled.tree ∧ groups = s.groups
  /-- The groups are those between its parentheses. -/
  parens_eq : t.parens.map (Paren.map Option.isSome) = parens pattern
  /-- Every capturing parenthesis counts. -/
  groups_eq : groups = (parens pattern).count (.opening true)
  /-- The groups are numbered as they open. -/
  indices_eq : t.indices = List.range groups
  depth_le : t.depth ≤ maxNesting

/-- What holds of a pattern that is refused: some pieces are read, and the error is at a place in the
rest. -/
structure Refused (pattern : Bytes) (error : SyntaxError) (offset : Nat) : Prop where
  place : ∃ pieces tail s left, pattern = writePieces pieces ++ tail ∧ Run .start pieces tail s ∧
    s.read tail = .error ⟨error, left⟩ ∧ offset + left = pattern.length ∧
    (writePieces pieces).length ≤ offset
  offset_le : offset ≤ pattern.length

variable {pattern : Bytes} {t : Tree} {groups : Nat}

theorem says_of_parse {pieces : List Piece} {s : Reading} (hrun : Run .start pieces [] s)
    (h : Tree.parse (writePieces pieces) = .ok (t, groups)) : Says (writePieces pieces) t groups := by
  obtain ⟨hexpressible, hcaptures⟩ := Tree.expressible_of_parse h
  obtain ⟨hstack, ht, hgroups⟩ := hrun.parse_eq_ok_iff.mp h
  have hparens := hrun.parens_tree hstack
  rw [← ht] at hparens
  have hindices : t.indices = List.range groups := by
    rw [Tree.indices_eq_range' hexpressible.numbered, hcaptures, List.range_eq_range']
  refine ⟨⟨pieces, s, rfl, hrun, hstack, ht, hgroups⟩, hparens, ?_, hindices, hexpressible.depth_le⟩
  rw [← hparens, t.count_opening, hindices, List.length_range]

/-- **Every pattern is read or refused.** What is read is the whole of it, cut into pieces, and the
tree has its groups, numbered from zero as they open, none of them too deep; what is refused is so at
a place in the pattern. -/
theorem parse_cases (pattern : Bytes) :
    (∃ t groups, Tree.parse pattern = .ok (t, groups) ∧ Says pattern t groups) ∨
      ∃ error offset, Tree.parse pattern = .error (error, offset) ∧ Refused pattern error offset := by
  obtain ⟨pieces, tail, s, rfl, hrun, ⟨rfl, hstack⟩ | ⟨⟨error, left⟩, hfault, hleft⟩⟩ :=
    Reading.start.exists_pieces pattern
  · have hparse : Tree.parse (writePieces pieces) = .ok (s.settled.tree, s.groups) :=
      hrun.parse_eq_ok_iff.mpr ⟨hstack, rfl, rfl⟩
    rw [List.append_nil]
    exact .inl ⟨_, _, hparse, says_of_parse hrun hparse⟩
  · have hparse : Tree.parse (writePieces pieces ++ tail) =
        .error (error, (writePieces pieces ++ tail).length - left) := by
      have hread : readFrom [] .new 0 (writePieces pieces ++ tail) = .error ⟨error, left⟩ :=
        hrun.read_eq.trans hfault
      rw [Tree.parse, hread]
      rfl
    have hlength : (writePieces pieces ++ tail).length = (writePieces pieces).length + tail.length :=
      List.length_append
    have hleft : left ≤ tail.length := hleft
    exact .inr ⟨error, _, hparse, ⟨pieces, tail, s, left, rfl, hrun, hfault, by omega, by omega⟩,
      Nat.sub_le _ _⟩

end Bytework.Pattern
