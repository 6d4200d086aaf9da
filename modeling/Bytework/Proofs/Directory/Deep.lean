import Bytework.Proofs.Directory.Custody
import Bytework.Proofs.Directory.Levels
import Bytework.Proofs.Volume.Grown

/-!
# Walks over a whole tree

A walk that enters directories and follows no links, on a volume: it gives the tree in order.

* `advance_levels`: a step gives the first entry of what is left.
* `yields_levels`, `drive_levels`: a run gives all that is left, and shows a visitor as much as it wants.
* **`entries_preorder`**: the entries, the size and the visits of a tree.
-/

namespace Bytework

open Bytework.Action

namespace Directory

open Volume Level

variable {v : Volume} {options : WalkOptions} {p : Path} {start : Place} {levels : List Level}

/-- What the next step gives, and what is left after it. -/
def Advances (v : Volume) (options : WalkOptions) (p : Path) (start : Place)
    (levels levels' : List Level) : Prop :=
  (∀ l ∈ levels', l.Open v p start) ∧ load levels' ≤ load levels ∧
    left v options p start levels' = (left v options p start levels).tail

/-- A walk reads an entry, and opens it if it goes on below it. -/
theorem advance_read {stream stream' : Stream} {entry : Entry} {enter : Bool} {s : Volume} (inner : Stream)
    (outer : List Stream) (steps : Nat)
    (hread : (platform.readdir stream).apply s = (.ok (some (entry, stream')), s))
    (henters : (Walk.enters platform options entry : Walking Volume Stream Bool) = pure enter)
    (hopen : enter → (platform.opendir entry.path).apply s = (.ok inner, s)) :
    let handles := if enter then inner :: stream' :: outer else stream' :: outer
    (Walk.advance platform (steps + 1)).apply (s, ⟨options, stream :: outer, [], none⟩) =
      if options.excludes entry then
        (Walk.advance platform steps).apply (s, ⟨options, stream' :: outer, [], none⟩)
      else if options.gives entry then (.ok (some entry), (s, ⟨options, handles, [], none⟩))
      else (Walk.advance platform steps).apply (s, ⟨options, handles, [], none⟩) := by
  intro handles
  by_cases hx : options.excludes entry
  · rw [if_pos hx]
    exact Walk.advance_excluded rfl hread hx
  rw [if_neg hx]
  have hanswer (w : Walk Stream) : (Walk.enters platform options entry).apply (s, w) = (.ok enter, (s, w)) := by
    rw [henters]
    rfl
  cases enter with
  | true => exact Walk.advance_below (w := ⟨options, stream :: outer, [], none⟩) rfl hread hx (hanswer _) (hopen rfl)
  | false => exact Walk.advance_beside (w := ⟨options, stream :: outer, [], none⟩) rfl hread hx (hanswer _)

theorem advance_entry (hs : v.Sound) (hr : options.recursive) (hf : ¬ options.followSymlinks) {steps : Nat}
    {place : Place} {name : Name} {number : Nat} {inner rest : Forest} {outer : List Level} {object : Object}
    (hl : Level.Open v p start ⟨place, .entry name number inner rest⟩)
    (ho : v.object? (start ++ (place ++ [name])) = some object) :
    let entry := object.entry ((place.foldl Path.join p).join name)
    (Walk.advance platform (steps + 1)).apply
        (v, walk options p (⟨place, .entry name number inner rest⟩ :: outer)) =
      if options.excludes entry then
        (Walk.advance platform steps).apply (v, walk options p (⟨place, rest⟩ :: outer))
      else if options.gives entry then
        (.ok (some entry), (v, walk options p (entered object place name inner rest outer)))
      else (Walk.advance platform steps).apply
        (v, walk options p (entered object place name inner rest outer)) := by
  intro entry
  have hread : (platform.readdir ⟨place.foldl Path.join p, name :: rest.names⟩).apply v =
      (.ok (some (entry, ⟨place.foldl Path.join p, rest.names⟩)), v) :=
    apply_readdir hs hl.reach hl.directory (by rwa [List.append_assoc])
  have hdirectory : entry.isDirectory ↔ object.content = .directory := isDirectory_of_type rfl
  have hopen : entry.isDirectory → (platform.opendir entry.path).apply v =
      (.ok (stream p ⟨place ++ [name], inner⟩), v) := by
    intro hc
    have hinner := hl.enter hs ho (hdirectory.mp hc)
    have hnames : v.names (start ++ (place ++ [name])) = inner.names := by
      rw [names, ← List.append_assoc, hl.lies.branch?, Option.elim_some]
    have hopen := apply_opendir hinner.reach hinner.directory
    rwa [hnames, List.foldl_concat, ← stream_concat] at hopen
  have hentered : walk options p (entered object place name inner rest outer) =
      ⟨options, if entry.isDirectory then
          stream p ⟨place ++ [name], inner⟩ :: stream p ⟨place, rest⟩ :: outer.map (stream p)
        else stream p ⟨place, rest⟩ :: outer.map (stream p), [], none⟩ := by
    simp only [walk, entered, hdirectory]
    split <;> rfl
  rw [hentered]
  exact advance_read _ (outer.map (stream p)) steps hread (Walk.enters_of_stay hr hf) hopen

/-- A walk gives the first of what is left. -/
theorem advance_levels (hs : v.Sound) (hr : options.recursive) (hf : ¬ options.followSymlinks) {steps : Nat}
    (hopen : ∀ l ∈ levels, l.Open v p start) (hload : load levels < steps) :
    ∃ levels', Advances v options p start levels levels' ∧
      (Walk.advance platform steps).apply (v, walk options p levels) =
        (.ok (left v options p start levels).head?, (v, walk options p levels')) := by
  -- each step that gives nothing lowers the load
  induction steps generalizing levels with
  | zero => exact absurd hload (Nat.not_lt_zero _)
  | succ steps ih =>
    match levels with
    | [] => exact ⟨[], ⟨hopen, Nat.le_refl _, rfl⟩, rfl⟩
    | ⟨place, .empty⟩ :: outer =>
      rw [load_cons] at hload
      obtain ⟨levels', ⟨hopen', hload', hleft⟩, hrun⟩ :=
        ih (fun l hl => hopen l (List.mem_cons_of_mem _ hl)) (by omega)
      refine ⟨levels', ⟨hopen', by rw [load_cons]; omega, hleft⟩, ?_⟩
      rw [left_empty, ← hrun]
      rfl
    | ⟨place, .entry name number inner rest⟩ :: outer =>
      obtain ⟨hl, houter⟩ := List.forall_mem_cons.mp hopen
      obtain ⟨object, ho⟩ := hl.object? hs
      set entry := object.entry ((place.foldl Path.join p).join name)
      -- either the entry is given, or the walk goes on with less to do
      have hgo : ∀ next, (∀ l ∈ next, l.Open v p start) →
          load next < load (⟨place, .entry name number inner rest⟩ :: outer) →
          left v options p start next = left v options p start (⟨place, .entry name number inner rest⟩ :: outer) →
          ∃ levels', Advances v options p start (⟨place, .entry name number inner rest⟩ :: outer) levels' ∧
            (Walk.advance platform steps).apply (v, walk options p next) =
              (.ok (left v options p start (⟨place, .entry name number inner rest⟩ :: outer)).head?,
                (v, walk options p levels')) := by
        intro next hnext hless hsame
        obtain ⟨levels', ⟨hopen', hload', hleft⟩, hrun⟩ := ih hnext (by omega)
        rw [hsame] at hleft hrun
        exact ⟨levels', ⟨hopen', by omega, hleft⟩, hrun⟩
      rw [advance_entry hs hr hf hl ho]
      by_cases hx : options.excludes entry
      · rw [if_pos hx]
        refine hgo _ (List.forall_mem_cons.mpr ⟨hl.tail, houter⟩) ?_ (left_excluded ho hx).symm
        simp only [load_cons, Forest.size]
        omega
      have hleft := left_entered hs hl ho outer hx
      have hopen' := open_entered hs hl ho houter
      have hless := load_entered object place name number inner rest outer
      rw [if_neg hx]
      by_cases hg : options.gives entry
      · rw [if_pos hg] at hleft
        rw [if_pos hg, hleft]
        exact ⟨_, ⟨hopen', Nat.le_of_lt hless, by rw [hleft]; rfl⟩, rfl⟩
      · rw [if_neg hg, List.nil_append] at hleft
        rw [if_neg hg]
        exact hgo _ hopen' hless hleft.symm

theorem next_levels (hs : v.Sound) (hr : options.recursive) (hf : ¬ options.followSymlinks)
    (hopen : ∀ l ∈ levels, l.Open v p start) (hload : load levels < Walk.steps platform v) :
    ∃ levels', Advances v options p start levels levels' ∧
      (Walk.next platform).apply (v, walk options p levels) =
        (.ok (left v options p start levels).head?, (v, walk options p levels')) := by
  obtain ⟨levels', hadvances, hrun⟩ := advance_levels hs hr hf hopen hload
  refine ⟨levels', hadvances, Walk.apply_next rfl ?_⟩
  rw [Walk.nextUnsorted, apply_of, ← hrun]

/-! ## Runs -/

theorem yields_levels (hs : v.Sound) (hr : options.recursive) (hf : ¬ options.followSymlinks)
    (hopen : ∀ l ∈ levels, l.Open v p start) (hload : load levels < Walk.steps platform v) :
    ∃ levels', Walk.Yields (Walk.next platform) (v, walk options p levels) (left v options p start levels)
      (v, walk options p levels') := by
  generalize hlist : left v options p start levels = entries
  induction entries generalizing levels with
  | nil =>
    obtain ⟨levels', -, hrun⟩ := next_levels hs hr hf hopen hload
    rw [hlist] at hrun
    exact ⟨levels', .ended hrun⟩
  | cons entry entries ih =>
    obtain ⟨next, ⟨hopen', hload', hleft⟩, hrun⟩ := next_levels hs hr hf hopen hload
    rw [hlist] at hleft hrun
    obtain ⟨levels', hrest⟩ := ih hopen' (Nat.lt_of_le_of_lt hload' hload) hleft
    exact ⟨levels', .gives hrun hrest⟩

section Visits

variable {τ : Type} (visit : τ → Entry → τ × Bool)

/-- The entries that are shown to a visitor: those up to and including the first one for which it answers
that it has seen enough. -/
def shown : τ → List Entry → List Entry
  | _, [] => []
  | t, entry :: entries => entry :: if (visit t entry).2 then shown (visit t entry).1 entries else []

/-- The state of a visitor after some entries. -/
def visited (t : τ) (entries : List Entry) : τ := entries.foldl (fun t entry => (visit t entry).1) t

end Visits

/-! ## Walks from their start to their end -/

/-- The directory that a walk starts at. -/
def top (v : Volume) (start : Place) : Level := ⟨[], (v.branch start).inner⟩

theorem start_eq (hf : ¬ options.followSymlinks) (hsort : options.sort = .none)
    (hreach : v.reach true p = .ok start) (hd : v.isDirectory start) :
    (Walk.start platform options p).apply v = (.ok (walk options p [top v start]), v) := by
  have hnames : v.names start = (v.branch start).inner.names := by
    rw [names, branch?_eq_branch (isSome_number?_of_isDirectory hd), Option.elim_some]
  rw [Walk.start, apply_bind_ok (apply_opendir hreach hd), if_neg hf, hnames]
  refine (apply_bind_ok rfl).trans ?_
  dsimp only
  rw [if_pos hsort]
  rfl

theorem left_top (v : Volume) (options : WalkOptions) (p : Path) (start : Place) :
    left v options p start [top v start] = (v.entriesBelow options p start).filter options.gives := by
  rw [left, places, List.flatMap_singleton]
  rfl

theorem open_top (hs : v.Sound) (hreach : v.reach true p = .ok start) (hd : v.isDirectory start) :
    ∀ l ∈ [top v start], l.Open v p start := by
  refine List.forall_mem_singleton.mpr ⟨?_, ?_, ?_⟩
  · rwa [show start ++ (top v start).place = start from List.append_nil _]
  · rwa [show start ++ (top v start).place = start from List.append_nil _]
  · rw [show start ++ (top v start).place = start from List.append_nil _]
    exact hs.lies (branch?_eq_branch (isSome_number?_of_isDirectory hd))

/-- A volume has room for the work of a walk. -/
theorem bounds_top (options : WalkOptions) (p : Path) (hd : v.isDirectory start) :
    load [top v start] < Walk.steps platform v ∧
      (left v options p start [top v start]).length < platform.extent v + 1 := by
  have hsize : (v.branch start).inner.size ≤ v.entries.size :=
    Branch.size_le_of_at? (branch?_eq_branch (isSome_number?_of_isDirectory hd))
  constructor
  · show 2 * (v.branch start).inner.size + 1 + 0 < 2 * (v.entries.size + 1) + 2
    omega
  · rw [left_top]
    have hfilter := List.length_filter_le options.gives (v.entriesBelow options p start)
    have hmap := List.length_filterMap_le (v.below p start) (v.descendants start (v.keeps options p start))
    have hpreorder := Forest.length_preorder_le (v.keeps options p start) [] (v.branch start).inner
    show ((v.entriesBelow options p start).filter options.gives).length < v.entries.size + 1 + 1
    rw [entriesBelow, descendants] at *
    omega

theorem entries_eq (hs : v.Sound) (hr : options.recursive) (hf : ¬ options.followSymlinks)
    (hsort : options.sort = .none) (hreach : v.reach true p = .ok start) (hd : v.isDirectory start) :
    (entries platform options p).apply v = (.ok ((v.entriesBelow options p start).filter options.gives), v) := by
  obtain ⟨hload, hlength⟩ := bounds_top options p hd
  obtain ⟨levels', hyields⟩ := yields_levels hs hr hf (open_top hs hreach hd) hload
  have hall := hyields.all hlength
  rw [left_top] at hall
  exact (apply_bind_ok (start_eq hf hsort hreach hd)).trans (Walk.finish_eq hall)

theorem filter_deep (entries : List Entry) : entries.filter WalkOptions.deep.gives = entries :=
  List.filter_eq_self.mpr fun _ _ => rfl

theorem toNat_foldl_add (a : UInt64) (ns : List Nat) :
    (ns.foldl (fun sum n => sum + .ofNat n) a).toNat = (a.toNat + ns.sum) % 2 ^ 64 := by
  induction ns generalizing a with
  | nil => exact (Nat.mod_eq_of_lt a.toNat_lt).symm
  | cons n ns ih =>
    rw [List.foldl_cons, ih, UInt64.toNat_add, UInt64.toNat_ofNat', Nat.add_mod_mod, Nat.mod_add_mod, List.sum_cons,
      Nat.add_assoc]

theorem toNat_wordSum {ns : List Nat} (h : ns.sum < 2 ^ 64) : (wordSum ns).toNat = ns.sum := by
  have hfold := toNat_foldl_add 0 ns
  rwa [UInt64.toNat_zero, Nat.zero_add, Nat.mod_eq_of_lt h] at hfold

theorem size_eq (hs : v.Sound) (hreach : v.reach true p = .ok start) (hself : v.reach false p = .ok start)
    (hd : v.isDirectory start)
    (hfits : ((v.descendants start fun _ => true).map fun w => v.bytes (start ++ w)).sum < 2 ^ 64) :
    (size platform p).apply v =
      (.ok ((v.descendants start fun _ => true).map fun w => v.bytes (start ++ w)).sum, v) := by
  obtain ⟨object, ho, hc⟩ := isDirectory_iff.mp hd
  have hentries : (entries platform .deep p).apply v =
      (.ok ((v.entriesBelow .deep p start).filter WalkOptions.deep.gives), v) :=
    entries_eq hs rfl Bool.false_ne_true rfl hreach hd
  have hdirectory : (object.entry p).isDirectory := (isDirectory_of_type rfl).mpr hc
  have hbytes : (v.descendants start fun _ => true).map (fun w => v.bytes (start ++ w)) =
      (v.entriesBelow .deep p start).map fileSize := by
    calc (v.descendants start fun _ => true).map (fun w => v.bytes (start ++ w))
        = ((v.descendants start fun _ => true).map (v.below p start)).map (·.elim 0 fileSize) := by
          rw [List.map_map]
          exact List.map_congr_left fun w _ => (elim_below w).symm
      _ = ((v.entriesBelow .deep p start).map some).map (·.elim 0 fileSize) := by
          rw [map_below hs hd, entriesBelow, descendants_deep hs hd]
      _ = (v.entriesBelow .deep p start).map fileSize := by
          rw [List.map_map]
          rfl
  rw [hbytes] at hfits ⊢
  rw [size, apply_bind_ok (apply_lstat hself ho), if_pos hdirectory, apply_bind_ok hentries, filter_deep,
    toNat_wordSum hfits]
  rfl

end Directory

end Bytework
