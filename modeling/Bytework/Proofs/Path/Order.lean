import Bytework.Directory.Walk
import Bytework.Proofs.Path.Normal

/-!
# The order of paths

Paths are in a total order by their components, and entries by a number and then by their paths. Only paths with the
same components are equal in it, so that entries of distinct places have one order and no other.

* `compare_eq_lex`: components are compared by their kind and then by their names.
* `components_foldl_join`: the components of names below a path.
* `Entry.compareIn`: the order that a walk is asked for; `sorted_perm`, `sorted_ascending`: entries in it.
* **`sorted_eq_of_perm`**: entries that are pairwise distinct in it are sorted in one way only.
-/

namespace Bytework

open Std

namespace Path

namespace Component

/-- The name of a component; what is no name has an empty one. -/
def text : Component → Name
  | .name n => n
  | _ => []

theorem compare_eq_lex : Component.compare = compareLex (compareOn rank) (compareOn text) := by
  funext a b
  cases a <;> cases b <;> rfl

instance : TransCmp Component.compare := by
  rw [compare_eq_lex]
  infer_instance

instance : LawfulEqCmp Component.compare where
  compare_self := ReflCmp.compare_self
  eq_of_compare {a b} h := by
    rw [compare_eq_lex, compareLex_eq_eq] at h
    obtain ⟨hrank, htext⟩ := h
    have hrank : a.rank = b.rank := LawfulEqOrd.eq_of_compare hrank
    have htext : a.text = b.text := LawfulEqOrd.eq_of_compare htext
    cases a <;> cases b <;> simp_all [rank, text]

end Component

/-! ## Components below a path -/

/-- The components of a relative path: a dot that it starts with, and its names. -/
theorem components_of_relative {p : Path} (h : isAbsolute p = false) :
    components p = (if (segments p).head? = some ['.'] then [.current] else []) ++ p.names.map ofSegment := by
  rw [components, h, if_neg Bool.false_ne_true, names]
  split
  case h_1 hs => rw [hs]; rfl
  case h_2 s ss hs =>
    rw [hs, List.head?_cons]
    by_cases hdot : s = ['.']
    · subst hdot
      rfl
    · have hhead : ¬ (some s = some ['.']) := fun he => hdot (Option.some.inj he)
      rw [if_neg hdot, if_neg hhead]
      rfl

/-- A path starts as it did when a name has been put behind it. -/
theorem head?_segments_join {p : Path} {n : Name} (h : IsPlain n) (hp : p ≠ []) (ha : isAbsolute p = false) :
    (segments (join p n)).head? = (segments p).head? := by
  have hsegments {q : Path} (hq : isAbsolute q = false) : segments q = q.splitOn '/' := by rw [segments, hq]; rfl
  have hhead (q r : Path) : ((q ++ '/' :: r).splitOn '/').head? = (q.splitOn '/').head? := by
    rw [List.splitOn_append_cons_self, List.head?_append_of_ne_nil _ fun he => List.splitOn_ne_nil _ _ he]
  rw [hsegments ((isAbsolute_join h).trans ha), hsegments ha, join, isAbsolute_of_plain h, if_neg Bool.false_ne_true]
  split
  case isTrue hend =>
    obtain ⟨q, c, rfl⟩ := (List.eq_nil_or_concat p).resolve_left hp
    obtain rfl : c = '/' := by simpa using hend
    rw [List.concat_eq_append, List.append_assoc, List.singleton_append, hhead, hhead]
  case isFalse => exact hhead p n

theorem components_join {p : Path} {n : Name} (h : IsPlain n) (hp : p ≠ []) :
    components (join p n) = components p ++ [.name n] := by
  cases ha : isAbsolute p with
  | true =>
    rw [components_of_isAbsolute ((isAbsolute_join h).trans ha), components_of_isAbsolute ha, names_join h,
      List.map_append, List.map_singleton, ofSegment_of_plain h, List.cons_append]
  | false =>
    rw [components_of_relative ((isAbsolute_join h).trans ha), components_of_relative ha, names_join h,
      head?_segments_join h hp ha, List.map_append, List.map_singleton, ofSegment_of_plain h, List.append_assoc]

theorem components_foldl_join {p : Path} {names : List Name} (h : ∀ n ∈ names, IsPlain n) (hp : p ≠ []) :
    components (names.foldl join p) = components p ++ names.map .name := by
  induction names generalizing p with
  | nil => simp
  | cons n names ih =>
    obtain ⟨hn, hnames⟩ := List.forall_mem_cons.mp h
    have hne : join p n ≠ [] := List.isEmpty_eq_false_iff.mp (isEmpty_join hn)
    rw [List.foldl_cons, ih hnames hne, components_join hn hp, List.append_assoc, List.map_cons,
      List.singleton_append]

end Path

/-! ## Orders of entries -/

namespace Entry

theorem transCmp_on {α β : Type} (cmp : β → β → Ordering) [TransCmp cmp] (f : α → β) :
    TransCmp fun a b => cmp (f a) (f b) where
  eq_swap := OrientedCmp.eq_swap
  isLE_trans := TransCmp.isLE_trans

instance : TransCmp comparePath :=
  transCmp_on (List.compareLex Path.Component.compare) fun entry : Entry => Path.components entry.path

instance (key : Entry → Nat) : TransCmp (compareBy key) :=
  inferInstanceAs (TransCmp (compareLex (compareOn key) comparePath))

/-- The order of entries that a walk is asked for. -/
def compareIn : SortMode → Entry → Entry → Ordering
  | .none | .name => comparePath
  | .size => compareBy Entry.size
  | .modified => compareBy Entry.modified

instance (mode : SortMode) : TransCmp (compareIn mode) :=
  match mode with
  | .none | .name => inferInstanceAs (TransCmp comparePath)
  | .size => inferInstanceAs (TransCmp (compareBy Entry.size))
  | .modified => inferInstanceAs (TransCmp (compareBy Entry.modified))

theorem components_eq_of_compareIn {mode : SortMode} {a b : Entry} (h : compareIn mode a b = .eq) :
    Path.components a.path = Path.components b.path := by
  have hpath : comparePath a b = .eq := by
    cases mode with
    | none | name => exact h
    | size | modified => exact (Ordering.then_eq_eq.mp h).2
  exact LawfulEqCmp.eq_of_compare hpath

theorem sorted_eq {mode : SortMode} (h : mode ≠ .none) (entries : List Entry) :
    sorted entries mode = entries.mergeSort fun a b => (compareIn mode a b).isLE := by
  cases mode with
  | none => exact absurd rfl h
  | name | size | modified => rfl

theorem sorted_perm (entries : List Entry) (mode : SortMode) : (sorted entries mode).Perm entries := by
  cases mode with
  | none => exact .refl _
  | name | size | modified => exact List.mergeSort_perm _ _

/-- Entries whose paths say different things. -/
def Distinct (entries : List Entry) : Prop :=
  entries.Pairwise fun a b => Path.components a.path ≠ Path.components b.path

theorem Distinct.perm {entries entries' : List Entry} (h : Distinct entries) (hperm : entries.Perm entries') :
    Distinct entries' := hperm.pairwise h fun hne => hne.symm

/-- Distinct entries come one after the other in the order they are sorted in, with no two at one place. -/
theorem sorted_ascending {mode : SortMode} (hmode : mode ≠ .none) {entries : List Entry} (h : Distinct entries) :
    (sorted entries mode).Pairwise fun a b => compareIn mode a b = .lt := by
  have hle : (sorted entries mode).Pairwise fun a b => (compareIn mode a b).isLE := by
    rw [sorted_eq hmode]
    refine List.pairwise_mergeSort (fun a b c => TransCmp.isLE_trans) (fun a b => ?_) entries
    have hswap : compareIn mode b a = (compareIn mode a b).swap := OrientedCmp.eq_swap
    rw [hswap]
    cases compareIn mode a b <;> rfl
  refine (hle.and (h.perm (sorted_perm entries mode).symm)).imp fun {a b} hab => ?_
  cases hcompare : compareIn mode a b with
  | lt => rfl
  | eq => exact absurd (components_eq_of_compareIn hcompare) hab.2
  | gt => exact absurd hab.1 (by simp [hcompare])

theorem sorted_eq_of_perm {mode : SortMode} (hmode : mode ≠ .none) {entries entries' : List Entry}
    (h : Distinct entries) (hperm : entries.Perm entries') : sorted entries mode = sorted entries' mode := by
  refine List.Perm.eq_of_pairwise (fun a b _ _ hlt hlt' => ?_) (sorted_ascending hmode h)
    (sorted_ascending hmode (h.perm hperm)) ?_
  · have hswap : compareIn mode b a = (compareIn mode a b).swap := OrientedCmp.eq_swap
    rw [hswap, hlt] at hlt'
    exact absurd hlt' (by simp)
  · exact (sorted_perm entries mode).trans (hperm.trans (sorted_perm entries' mode).symm)

theorem Distinct.nodup {entries : List Entry} (h : Distinct entries) : entries.Nodup :=
  h.imp fun hne he => hne (congrArg (Path.components ·.path) he)

end Entry

end Bytework
