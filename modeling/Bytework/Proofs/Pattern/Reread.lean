import Bytework.Proofs.Pattern.Classes
import Bytework.Proofs.Pattern.Quantifiers
import Mathlib.Data.Bool.AllAny
import Mathlib.Data.List.Basic

/-!
# Written patterns read again

The pattern of a tree is read as that tree, whatever the tree.

* `Unquantified`: texts that start with no quantifier; `Fits.unquantified` says that the pattern of a
  tree never does.
* `quantify_write`, `classTree_write`, `readFrom_writeByte`: what is written for bounds, for the ranges of
  a class and for a byte is read as such.
* `Tree.ReadsAtom`, `Tree.ReadsItems`, `Tree.ReadsBranches`: reading over the pattern of a tree in
  the midst of a larger one.
* `Fits.reads`: trees of every rank are read so, by induction on the grammar; `readFrom_render` for
  whole patterns.
* **`parse_render`**: reading the pattern of an expressible tree gives the tree and the number of its
  groups.
-/

namespace Bytework.Pattern

variable {b : UInt8} {rest : Bytes}

/-! ## Quantifiers -/

/-- A text that starts with no quantifier. -/
def Unquantified (rest : Bytes) : Prop := ∀ b ∈ rest.head?, mark? b = none ∧ b ≠ byte '\x7b'

theorem unquantified_cons : Unquantified (b :: rest) ↔ mark? b = none ∧ b ≠ byte '\x7b' := by
  simp [Unquantified]

theorem Unquantified.unmarked (h : Unquantified rest) : Unmarked rest := fun b hb => (h b hb).1

theorem Unquantified.unopened (h : Unquantified rest) : Unopened rest := by
  refine ⟨h.unmarked, ?_⟩
  rintro after rfl
  exact absurd rfl (unquantified_cons.mp h).2

theorem quantify_unquantified {t : Tree} (h : Unquantified rest) : quantify t rest = .ok (t, rest) :=
  h.unopened.quantify_eq

/-! ## Bounds -/

theorem isDigit_byte {c : Char} (h : c.isDigit = true) :
    isDigit (byte c) = true ∧ (byte c).toNat = c.toNat := by
  have hbounds : 48 ≤ c.toNat ∧ c.toNat ≤ 57 := by
    simp only [Char.isDigit, Bool.and_eq_true, decide_eq_true_eq, UInt32.le_iff_toNat_le] at h
    exact h
  have hbyte : (byte c).toNat = c.toNat := by
    show (UInt8.ofNat c.toNat).toNat = c.toNat
    rw [UInt8.toNat_ofNat']
    omega
  refine ⟨?_, hbyte⟩
  simp only [isDigit, Bool.and_eq_true, decide_eq_true_eq, UInt8.le_iff_toNat_le, hbyte]
  exact hbounds

theorem isDigit_of_mem_decimal {n : Nat} : ∀ c ∈ Text.decimal n, c.isDigit = true := fun _ hc =>
  Nat.isDigit_of_mem_toDigits (by decide) (by decide) hc

theorem isNumber_writeCount (n : Nat) : IsNumber (writeCount n) := by
  refine ⟨?_, fun d hd => ?_⟩
  · rw [writeCount, ne_eq, List.map_eq_nil_iff]
    exact Nat.toDigits_ne_nil
  · obtain ⟨c, hc, rfl⟩ := List.mem_map.mp hd
    exact (isDigit_byte (isDigit_of_mem_decimal c hc)).1

theorem valueOf_writeCount (n : Nat) : valueOf (writeCount n) = n := by
  calc valueOf (writeCount n)
      = (Text.decimal n).foldl (fun n c => 10 * n + ((byte c).toNat - 48)) 0 := List.foldl_map
    _ = (Text.decimal n).foldl (fun n c => 10 * n + (c.toNat - '0'.toNat)) 0 :=
        List.foldl_ext _ _ _ fun m c hc => by rw [(isDigit_byte (isDigit_of_mem_decimal c hc)).2]; rfl
    _ = n := by
        rw [← Nat.ofDigitChars_eq_foldl]
        exact Nat.ofDigitChars_ten_toDigits

/-- Written bounds are bounds. -/
theorem isQuantifier_writeBounds {least : Nat} {most : Option Nat} (h : InBounds least most) :
    IsQuantifier (writeBounds least most) least most := by
  have hbound : IsBound (writeCount least ++ byte ',' :: (most.elim [] writeCount ++ [byte '\x7d']))
      least most := by
    cases most with
    | none =>
      have hread := IsBound.atLeast (isNumber_writeCount least)
      rwa [valueOf_writeCount] at hread
    | some m =>
      have hread := IsBound.between (isNumber_writeCount least) (isNumber_writeCount m)
      rwa [valueOf_writeCount, valueOf_writeCount] at hread
  exact .braced hbound h

theorem quantify_write {t : Tree} {least : Nat} {most : Option Nat} (greedy : Bool)
    (hleast : least ≤ maxRepeat) (hmost : ∀ m ∈ most, least ≤ m ∧ m ≤ maxRepeat)
    (h : Unquantified rest) :
    quantify t (writeBounds least most ++ (writeGreedy greedy ++ rest)) =
      .ok (.rep t least most greedy, rest) :=
  quantify_iff.mpr (.inr ⟨_, least, most, greedy, isQuantifier_writeBounds ⟨hleast, hmost⟩, rfl, rfl,
    h.unmarked⟩)

/-! ## Classes -/

/-- A range as an item of a class: one byte, or its two ends. -/
def ByteRange.item (r : ByteRange) : ClassItem := if r.lo = r.hi then .single r.lo else .range r

theorem ByteRange.write_item (r : ByteRange) : r.item.write = r.write := by
  unfold item write
  split <;> rfl

theorem ByteRange.ranges_item (r : ByteRange) : r.item.ranges = [r] := by
  unfold item
  split
  · rename_i heq
    rw [ClassItem.ranges, single]
    nth_rewrite 2 [heq]
    rfl
  · rfl

theorem ByteRange.ordered_item {r : ByteRange} (h : r.lo ≤ r.hi) : r.item.Ordered := by
  unfold item
  split
  · trivial
  · exact h

/-- A written class is read as such. -/
theorem classTree_write {ranges : List ByteRange} (negated : Bool) (hne : ranges ≠ [])
    (hle : ∀ r ∈ ranges, r.lo ≤ r.hi) :
    classTree (writeNegated negated ++ (ranges.flatMap ByteRange.write ++ byte ']' :: rest)) =
      .ok (.set ranges negated, rest) := by
  have hitems : ∀ item ∈ ranges.map ByteRange.item, item.Ordered := by
    intro item hitem
    obtain ⟨r, hr, rfl⟩ := List.mem_map.mp hitem
    exact ByteRange.ordered_item (hle r hr)
  have hread := classTree_items rest negated (mt List.map_eq_nil_iff.mp hne) hitems
  rwa [List.flatMap_map, List.flatMap_map, funext ByteRange.write_item, funext ByteRange.ranges_item,
    List.flatMap_singleton'] at hread

/-! ## Atoms -/

theorem ne_of_notMem_metabytes (h : b ∉ metabytes) {m : UInt8} (hm : m ∈ metabytes) : b ≠ m := by
  rintro rfl
  exact h hm

theorem mark?_of_notMem_metabytes (h : b ∉ metabytes) : mark? b = none := by
  have hne : ∀ m ∈ metabytes, b ≠ m := fun m hm => ne_of_notMem_metabytes h hm
  rw [mark?, if_neg (hne _ (by decide)), if_neg (hne _ (by decide)), if_neg (hne _ (by decide))]

/-- A byte that opens no group, ends no branch and closes no group is read as an atom. -/
theorem readFrom_atom {stack : List (Level × Option Nat)} {level : Level} {n : Nat} {t : Tree}
    {after : Bytes} (hbar : b ≠ byte '|') (hopen : b ≠ byte '(') (hclose : b ≠ byte ')')
    (h : atom b rest = .ok (t, after)) :
    readFrom stack level n (b :: rest) =
      (quantify t after).bind fun r => readFrom stack (level.push r.1) n r.2 := by
  rw [readFrom.eq_def]
  simp only [if_neg hbar, if_neg hopen, if_neg hclose]
  split
  · rename_i herror
    rw [h] at herror
    cases herror
  · rename_i hok
    rw [h] at hok
    cases hok
    split
    · rename_i herror
      rw [herror]
      rfl
    · rename_i hok
      rw [hok]
      rfl

/-- A written byte is read as such. -/
theorem readFrom_writeByte {stack : List (Level × Option Nat)} {level : Level} {n : Nat} :
    readFrom stack level n (writeByte b ++ rest) =
      (quantify (.byte b) rest).bind fun r => readFrom stack (level.push r.1) n r.2 := by
  unfold writeByte
  split
  · rename_i hmem
    have hescape : ∀ m ∈ metabytes, escapeTree m = .byte m := List.all_iff_forall_prop.mp (by decide)
    have hatom : atom backslash (b :: rest) = .ok (.byte b, rest) := by
      rw [← hescape b hmem]
      rfl
    exact readFrom_atom (by decide) (by decide) (by decide) hatom
  · rename_i hmem
    have hne : ∀ m ∈ metabytes, b ≠ m := fun m hm => ne_of_notMem_metabytes hmem hm
    have hatom : atom b rest = .ok (.byte b, rest) := by
      rw [atom.eq_def, if_neg (hne _ (by decide)), if_neg (hne _ (by decide)),
        if_neg (hne _ (by decide)), if_neg (hne _ (by decide)), if_neg (hne _ (by decide)),
        mark?_of_notMem_metabytes hmem]
      rfl
    exact readFrom_atom (hne _ (by decide)) (hne _ (by decide)) (hne _ (by decide)) hatom

/-! ## Groups and alternatives -/

section Reading

variable {stack : List (Level × Option Nat)} {level : Level} {n : Nat}

theorem readFrom_bar : readFrom stack level n (byte '|' :: rest) =
    readFrom stack level.finishBranch n rest := by
  rw [readFrom.eq_def]
  exact if_pos rfl

/-- What opens a group is read so, whether or not the group captures; no question mark may come
first in a group that does. -/
theorem readFrom_open (index : Option Nat) (hindex : ∀ i ∈ index, i = n)
    (hdeep : stack.length < maxNesting) (h : Unquantified rest) :
    readFrom stack level n (writeOpening index ++ rest) =
      readFrom ((level, index) :: stack) .new (n + if index.isSome then 1 else 0) rest := by
  have hlength : stack.length ≠ maxNesting := Nat.ne_of_lt hdeep
  have hbar : byte '(' ≠ byte '|' := by decide
  cases index with
  | none =>
    rw [writeOpening, readFrom.eq_def]
    simp [hbar, hlength, List.isPrefixOf]
  | some i =>
    obtain rfl := hindex i rfl
    have hplain : [byte '?', byte ':'].isPrefixOf rest = false := by
      cases rest with
      | nil => rfl
      | cons b rest =>
        have hb : byte '?' ≠ b := by
          rintro rfl
          exact absurd (unquantified_cons.mp h).1 (by decide)
        simp [List.isPrefixOf, hb]
    rw [writeOpening, readFrom.eq_def]
    simp [hbar, hlength, hplain]

theorem readFrom_close {outer : Level} {index : Option Nat} :
    readFrom ((outer, index) :: stack) level n (byte ')' :: rest) =
      (quantify (.group level.tree index) rest).bind fun r =>
        readFrom stack (outer.push r.1) n r.2 := by
  have hbar : byte ')' ≠ byte '|' := by decide
  have hopen : byte ')' ≠ byte '(' := by decide
  rw [readFrom.eq_def]
  simp only [if_neg hbar, if_neg hopen, if_true]
  split
  · rename_i herror
    rw [herror]
    rfl
  · rename_i hok
    rw [hok]
    rfl

end Reading

/-! ## Trees in the midst of a pattern -/

theorem unquantified_writeByte (b : UInt8) (rest : Bytes) : Unquantified (writeByte b ++ rest) := by
  unfold writeByte
  split
  · exact unquantified_cons.mpr (by decide)
  · rename_i hmem
    exact unquantified_cons.mpr
      ⟨mark?_of_notMem_metabytes hmem, ne_of_notMem_metabytes hmem (by decide)⟩

namespace Tree

/-- The pattern of a tree starts with no quantifier; what follows matters only if it may be empty. -/
theorem Fits.unquantified {rank : Rank} {t : Tree} (h : t.Fits rank)
    (hrest : rank = .branch ∨ rank = .whole → Unquantified rest) :
    Unquantified (t.render ++ rest) := by
  induction h generalizing rest with
  | byte b => exact unquantified_writeByte b rest
  | any | start | stop => exact unquantified_cons.mpr (by decide)
  | set negated hne hle => exact unquantified_cons.mpr (by decide)
  | group index hbody _ => cases index <;> exact unquantified_cons.mpr (by decide)
  | plain _ ih | one _ ih | some _ ih => exact ih fun h => absurd h (by decide)
  | rep greedy _ _ _ ih =>
    rw [render, List.append_assoc, List.append_assoc]
    exact ih fun h => absurd h (by decide)
  | seq _ _ ih _ =>
    rw [render, List.append_assoc]
    exact ih fun h => absurd h (by decide)
  | empty => exact hrest (.inl rfl)
  | only _ ih => exact ih fun _ => hrest (.inr rfl)
  | alt _ _ ih _ =>
    rw [render, List.append_assoc]
    exact ih fun _ => unquantified_cons.mpr (by decide)

/-- A tree may stand where `n` groups have been numbered and `k` are open. -/
structure Placed (n k : Nat) (t : Tree) : Prop where
  numbered : t.NumberedFrom n
  depth_le : k + t.depth ≤ maxNesting

namespace Placed

variable {n k least : Nat} {most : Option Nat} {greedy : Bool} {index : Option Nat} {t u : Tree}

theorem first (h : (seq t u).Placed n k) : t.Placed n k :=
  ⟨h.numbered.1, Nat.le_trans (Nat.add_le_add_left (Nat.le_max_left _ _) k) h.depth_le⟩

theorem second (h : (seq t u).Placed n k) : u.Placed (n + t.captures) k :=
  ⟨h.numbered.2, Nat.le_trans (Nat.add_le_add_left (Nat.le_max_right _ _) k) h.depth_le⟩

theorem left (h : (alt t u).Placed n k) : t.Placed n k :=
  ⟨h.numbered.1, Nat.le_trans (Nat.add_le_add_left (Nat.le_max_left _ _) k) h.depth_le⟩

theorem right (h : (alt t u).Placed n k) : u.Placed (n + t.captures) k :=
  ⟨h.numbered.2, Nat.le_trans (Nat.add_le_add_left (Nat.le_max_right _ _) k) h.depth_le⟩

theorem repeated (h : (rep t least most greedy).Placed n k) : t.Placed n k :=
  ⟨h.numbered, h.depth_le⟩

theorem index_eq (h : (group t index).Placed n k) : ∀ i ∈ index, i = n := by
  rintro i rfl
  exact h.numbered.1

theorem lt_maxNesting (h : (group t index).Placed n k) : k < maxNesting := by
  have := h.depth_le
  rw [depth] at this
  omega

theorem grouped (h : (group t index).Placed n k) :
    t.Placed (n + if index.isSome then 1 else 0) (k + 1) := by
  refine ⟨?_, ?_⟩
  · cases index with
    | none => exact h.numbered
    | some i => exact h.numbered.2
  · have := h.depth_le
    rw [depth] at this
    omega

end Placed

/-! ## Reading over the pattern of a tree -/

/-- Reading over the pattern of an atom leaves the quantifier behind it to be read. -/
def ReadsAtom (t : Tree) : Prop :=
  ∀ stack level n rest, t.Placed n stack.length →
    readFrom stack level n (t.render ++ rest) =
      (quantify t rest).bind fun r => readFrom stack (level.push r.1) (n + t.captures) r.2

/-- Reading over the pattern of a tree adds some items to the current branch. -/
def ReadsItems (t : Tree) (items : List Tree) : Prop :=
  ∀ stack level n rest, t.Placed n stack.length → Unquantified rest →
    readFrom stack level n (t.render ++ rest) =
      readFrom stack ⟨level.branches, items.reverse ++ level.items⟩ (n + t.captures) rest

/-- Reading over the pattern of a tree from the start of a branch adds some branches to the group. -/
def ReadsBranches (t : Tree) (branches : List Tree) : Prop :=
  ∀ stack before n rest, t.Placed n stack.length → Unquantified rest →
    ∃ level : Level, level.finishBranch.branches = branches.reverse ++ before ∧
      readFrom stack ⟨before, []⟩ n (t.render ++ rest) =
        readFrom stack level (n + t.captures) rest

/-- How a tree of a rank is read: as an atom, or as the items or branches that make it up. -/
def Reads : Rank → Tree → Prop
  | .atom, t => t.ReadsAtom
  | .item, t => t.ReadsItems [t]
  | .items, t => ∃ item items, ofItems (item :: items) = t ∧ t.ReadsItems (item :: items)
  | .branch, t => ∃ items, ofItems items = t ∧ t.ReadsItems items
  | .whole, t =>
    ∃ branch branches, ofBranches (branch :: branches) = t ∧ t.ReadsBranches (branch :: branches)

variable {t first second left right body : Tree} {items : List Tree}

theorem readsAtom_set {ranges : List ByteRange} (negated : Bool) (hne : ranges ≠ [])
    (hle : ∀ r ∈ ranges, r.lo ≤ r.hi) : (set ranges negated).ReadsAtom := by
  intro stack level n rest _
  have hclass : atom (Bytework.byte '[') (writeNegated negated ++
      (ranges.flatMap ByteRange.write ++ Bytework.byte ']' :: rest)) =
        .ok (.set ranges negated, rest) := classTree_write negated hne hle
  have hrender : (set ranges negated).render ++ rest = Bytework.byte '[' ::
      (writeNegated negated ++ (ranges.flatMap ByteRange.write ++ Bytework.byte ']' :: rest)) := by
    simp [render]
  rw [hrender]
  exact readFrom_atom (by decide) (by decide) (by decide) hclass

theorem readsAtom_group (index : Option Nat) (hbody : body.Fits .whole)
    (hreads : body.Reads .whole) : (group body index).ReadsAtom := by
  intro stack level n rest hplaced
  obtain ⟨branch, branches, htree, hbranches⟩ := hreads
  have hclosing : Unquantified (Bytework.byte ')' :: rest) := unquantified_cons.mpr (by decide)
  obtain ⟨inner, hinner, hread⟩ := hbranches ((level, index) :: stack) [] _ _ hplaced.grouped hclosing
  have hinnerTree : inner.tree = body := by
    rw [Level.tree, hinner, List.append_nil, List.reverse_reverse, htree]
  calc readFrom stack level n ((group body index).render ++ rest)
      = readFrom stack level n
          (writeOpening index ++ (body.render ++ Bytework.byte ')' :: rest)) := by simp [render]
    _ = readFrom ((level, index) :: stack) .new (n + if index.isSome then 1 else 0)
          (body.render ++ Bytework.byte ')' :: rest) :=
        readFrom_open index hplaced.index_eq hplaced.lt_maxNesting (hbody.unquantified fun _ => hclosing)
    _ = readFrom ((level, index) :: stack) inner (n + (group body index).captures)
          (Bytework.byte ')' :: rest) := by
        rw [captures, ← Nat.add_assoc]
        exact hread
    _ = (quantify (.group body index) rest).bind fun r =>
          readFrom stack (level.push r.1) (n + (group body index).captures) r.2 := by
        rw [readFrom_close, hinnerTree]

theorem readsItems_plain (h : t.ReadsAtom) : t.ReadsItems [t] := by
  intro stack level n rest hplaced hrest
  rw [h stack level n rest hplaced, quantify_unquantified hrest]
  rfl

theorem readsItems_rep {least : Nat} {most : Option Nat} (greedy : Bool) (h : body.ReadsAtom)
    (hleast : least ≤ maxRepeat) (hmost : ∀ m ∈ most, least ≤ m ∧ m ≤ maxRepeat) :
    (rep body least most greedy).ReadsItems [rep body least most greedy] := by
  intro stack level n rest hplaced hrest
  rw [render, List.append_assoc, List.append_assoc, h stack level n _ hplaced.repeated,
    quantify_write greedy hleast hmost hrest]
  rfl

theorem readsItems_seq (hfirst : first.ReadsItems [first]) (hfits : second.Fits .items)
    (hsecond : second.ReadsItems items) : (seq first second).ReadsItems (first :: items) := by
  intro stack level n rest hplaced hrest
  have hbetween : Unquantified (second.render ++ rest) :=
    hfits.unquantified fun h => absurd h (by decide)
  have hitems : (first :: items).reverse ++ level.items = items.reverse ++ first :: level.items := by
    rw [List.reverse_cons, List.append_assoc, List.singleton_append]
  rw [render, List.append_assoc, hfirst stack level n _ hplaced.first hbetween,
    hsecond stack _ _ rest hplaced.second hrest, captures, Nat.add_assoc, hitems]
  rfl

theorem readsItems_empty : empty.ReadsItems [] := fun _ _ _ _ _ _ => rfl

theorem readsBranches_only (htree : ofItems items = t) (h : t.ReadsItems items) :
    t.ReadsBranches [t] := by
  intro stack before n rest hplaced hrest
  refine ⟨⟨before, items.reverse ++ []⟩, ?_, h stack ⟨before, []⟩ n rest hplaced hrest⟩
  rw [Level.finishBranch, List.append_nil, List.reverse_reverse, htree]
  rfl

theorem readsBranches_alt {branches : List Tree} (htree : ofItems items = left)
    (hleft : left.ReadsItems items) (hright : right.ReadsBranches branches) :
    (alt left right).ReadsBranches (left :: branches) := by
  intro stack before n rest hplaced hrest
  have hbar : Unquantified (Bytework.byte '|' :: (right.render ++ rest)) :=
    unquantified_cons.mpr (by decide)
  obtain ⟨level, hlevel, hread⟩ := hright stack (left :: before) _ rest hplaced.right hrest
  refine ⟨level, ?_, ?_⟩
  · rw [hlevel, List.reverse_cons, List.append_assoc]
    rfl
  · have hfinish : Level.finishBranch ⟨before, items.reverse ++ []⟩ = ⟨left :: before, []⟩ := by
      rw [Level.finishBranch, List.append_nil, List.reverse_reverse, htree]
    rw [render, List.append_assoc, List.cons_append, hleft stack _ n _ hplaced.left hbar,
      readFrom_bar, hfinish, hread, captures, Nat.add_assoc]

/-- **Every tree of the grammar is read as it is**, wherever its pattern stands. -/
theorem Fits.reads {rank : Rank} {t : Tree} (h : t.Fits rank) : t.Reads rank := by
  induction h with
  | byte b => exact fun _ _ _ _ _ => readFrom_writeByte
  | any | start | stop =>
    exact fun _ _ _ _ _ => readFrom_atom (by decide) (by decide) (by decide) rfl
  | set negated hne hle => exact readsAtom_set negated hne hle
  | group index hbody ih => exact readsAtom_group index hbody ih
  | plain _ ih => exact readsItems_plain ih
  | rep greedy _ hleast hmost ih => exact readsItems_rep greedy ih hleast hmost
  | one _ ih => exact ⟨_, [], rfl, ih⟩
  | seq _ hsecond ih₁ ih₂ =>
    obtain ⟨item, items, rfl, hitems⟩ := ih₂
    exact ⟨_, item :: items, rfl, readsItems_seq ih₁ hsecond hitems⟩
  | empty => exact ⟨[], rfl, readsItems_empty⟩
  | some _ ih =>
    obtain ⟨item, items, htree, hitems⟩ := ih
    exact ⟨item :: items, htree, hitems⟩
  | only _ ih =>
    obtain ⟨items, htree, hitems⟩ := ih
    exact ⟨_, [], rfl, readsBranches_only htree hitems⟩
  | alt _ _ ih₁ ih₂ =>
    obtain ⟨items, htree, hitems⟩ := ih₁
    obtain ⟨branch, branches, rfl, hbranches⟩ := ih₂
    exact ⟨_, branch :: branches, rfl, readsBranches_alt htree hitems hbranches⟩

/-- Reading the pattern of an expressible tree arrives at its end with the tree. -/
theorem readFrom_render {t : Tree} (h : t.Expressible) :
    readFrom [] .new 0 t.render = .ok (t, t.captures) := by
  obtain ⟨branch, branches, htree, hbranches⟩ := h.fits.reads
  have hplaced : t.Placed 0 ([] : List (Level × Option Nat)).length :=
    ⟨h.numbered, by rw [List.length_nil, Nat.zero_add]; exact h.depth_le⟩
  obtain ⟨level, hlevel, hread⟩ := hbranches [] [] 0 [] hplaced fun _ hb => by cases hb
  have hlevelTree : level.tree = t := by
    rw [Level.tree, hlevel, List.append_nil, List.reverse_reverse, htree]
  have hend : readFrom [] level (0 + t.captures) [] = .ok (t, t.captures) := by
    rw [readFrom.eq_def, hlevelTree, Nat.zero_add]
    rfl
  rw [List.append_nil] at hread
  rw [show Level.new = ⟨[], []⟩ from rfl, hread, hend]

theorem parse_eq_ok_iff {pattern : Bytes} {r : Tree × Nat} :
    Tree.parse pattern = .ok r ↔ readFrom [] .new 0 pattern = .ok r := by
  unfold Tree.parse
  cases readFrom [] .new 0 pattern <;> simp [Except.mapError]

/-- **A written tree is read again.** The whole of its pattern is read, and gives the tree and the
number of its capturing groups. -/
theorem parse_render {t : Tree} (h : t.Expressible) :
    Tree.parse t.render = .ok (t, t.captures) :=
  parse_eq_ok_iff.mpr (readFrom_render h)

/-- Groups of both kinds in one another, an empty branch, a class whose range ends in bytes that the
class itself reads, and a brace that opens no bounds. -/
def knotted : Tree :=
  .alt
    (.rep (.group (.seq (.group (.alt (.rep (.byte 120) 2 (some 3) false) .empty) none)
      (.set [⟨45, 93⟩] true)) (some 0)) 0 none true)
    (.seq (.byte 123) (.group .empty (some 1)))

theorem parse_knotted : knotted.Expressible ∧
    Tree.parse (ascii "((?:x\x7b2,3\x7d?|)[^\\--\\]])\x7b0,\x7d|\\\x7b()") = .ok (knotted, 2) := by
  have hfits : knotted.Fits .whole := by
    refine .alt (.some (.one (.rep true (.group _ (.only (.some (.seq ?inner ?ranges)))) ?_ ?_)))
      (.only (.some (.seq ?brace ?last)))
    case inner =>
      have hlazy : (rep (.byte 120) 2 (some 3) false).Fits .item :=
        .rep false (.byte 120) (by decide) (by decide)
      exact .plain (.group none (.alt (.some (.one hlazy)) (.only .empty)))
    case ranges => exact .one (.plain (.set true (by decide) (by decide)))
    case brace => exact .plain (.byte 123)
    case last => exact .one (.plain (.group _ (.only .empty)))
    all_goals decide
  have hnumbered : knotted.NumberedFrom 0 :=
    ⟨⟨rfl, ⟨trivial, trivial⟩, trivial⟩, trivial, rfl, trivial⟩
  have h : knotted.Expressible := ⟨hfits, hnumbered, by decide⟩
  exact ⟨h, parse_render h⟩

end Tree

end Bytework.Pattern
