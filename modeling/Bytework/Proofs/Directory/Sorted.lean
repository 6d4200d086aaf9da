import Bytework.Proofs.Directory.Deep
import Bytework.Proofs.Path.Order
import Bytework.Proofs.Volume.Connected
import Bytework.Proofs.Volume.Reordered

/-!
# Walks in an order

A walk that is asked for an order reads all entries first, and then gives them in that order. What it gives does not
depend on the order in which the directories list their names.

* `Volume.listed`: the entries of a walk without links, in the order of the volume.
* `distinct_listed`: their paths are distinct; `SameTree.perm_listed`: the same tree has the same ones.
* `Going`: a walk that is under way and what is left of it; `Going.step`: it gives the first of it.
* **`entries_sorted`**: the same entries as without an order, ascending, and the same ones for the same tree.
-/

namespace Bytework

open Bytework.Action

namespace Volume

variable {v v' : Volume} {options : WalkOptions} {p : Path} {start w : Place}

/-! ## The entries of a walk -/

/-- The entries at some places below a directory that a walk gives. -/
def given (v : Volume) (options : WalkOptions) (p : Path) (start : Place) (places : List Place) : List Entry :=
  (places.filterMap (v.below p start)).filter options.gives

/-- The places of some names in a directory, without those that are left out. -/
def beside (v : Volume) (options : WalkOptions) (p : Path) (start : Place) (ahead : List Name) : List Place :=
  (ahead.map fun name => [name]).filter (v.keeps options p start)

/-- The places that a walk without links reads, in the order of the volume: all below a directory, or those directly
in it. -/
def reads (v : Volume) (options : WalkOptions) (p : Path) (start : Place) : List Place :=
  if options.recursive then v.descendants start (v.keeps options p start)
  else v.beside options p start (v.names start)

/-- The entries that a walk without links gives, in the order of the volume. -/
def listed (v : Volume) (options : WalkOptions) (p : Path) (start : Place) : List Entry :=
  v.given options p start (v.reads options p start)

theorem nodup_reads (hs : v.Sound) (hd : v.isDirectory start) : (v.reads options p start).Nodup := by
  rw [reads]
  split
  · exact nodup_descendants hs hd
  · exact ((hs.distinct start).map List.singleton_injective).filter _

theorem ne_nil_of_mem_reads (hs : v.Sound) (hd : v.isDirectory start) (h : w ∈ v.reads options p start) :
    w ≠ [] ∧ ¬ v.Vacant (start ++ w) := by
  rw [reads] at h
  split at h
  · obtain ⟨hne, hstands, -⟩ := (mem_descendants hs hd).mp h
    exact ⟨hne, hstands⟩
  · obtain ⟨name, hname, rfl⟩ := List.mem_map.mp (List.mem_filter.mp h).1
    exact ⟨List.cons_ne_nil _ _, Option.isSome_iff_ne_none.mp (mem_names.mp hname)⟩

/-- A volume has room for all that is given. -/
theorem length_listed_lt (hs : v.Sound) (hd : v.isDirectory start) :
    (v.listed options p start).length < platform.extent v + 1 := by
  have hreads : ((v.reads options p start).map (start ++ ·)).length ≤ v.entries.size := by
    refine length_le_of_nodup hs ((nodup_reads hs hd).map (List.append_right_injective start)) fun w hw => ?_
    obtain ⟨w, hread, rfl⟩ := List.mem_map.mp hw
    obtain ⟨hne, hstands⟩ := ne_nil_of_mem_reads hs hd hread
    exact ⟨List.append_ne_nil_of_right_ne_nil _ hne, hstands⟩
  have hlisted : (v.listed options p start).length ≤ (v.reads options p start).length :=
    (List.length_filter_le _ _).trans (List.length_filterMap_le _ _)
  rw [List.length_map] at hreads
  exact Nat.lt_succ_of_le (Nat.le_succ_of_le (hlisted.trans hreads))

/-- Entries of distinct places have distinct paths. -/
theorem distinct_listed (hs : v.Sound) (hd : v.isDirectory start) (hp : p ≠ []) :
    Entry.Distinct (v.listed options p start) := by
  refine List.Pairwise.filter _ ?_
  refine List.Pairwise.filterMap (v.below p start) (R := fun w w' => w ≠ w' ∧ (∀ name ∈ w, Path.IsPlain name) ∧
    ∀ name ∈ w', Path.IsPlain name) ?_ ?_
  · rintro w w' ⟨hne, hw, hw'⟩ entry he entry' he' hcomponents
    obtain ⟨object, -, rfl⟩ := Option.map_eq_some_iff.mp he
    obtain ⟨object', -, rfl⟩ := Option.map_eq_some_iff.mp he'
    have hsame : Path.components (w.foldl Path.join p) = Path.components (w'.foldl Path.join p) := hcomponents
    rw [Path.components_foldl_join hw hp, Path.components_foldl_join hw' hp] at hsame
    have hinjective : Function.Injective Path.Component.name := fun _ _ => Path.Component.name.inj
    exact hne (hinjective.list_map (List.append_cancel_left hsame))
  · have hplain : ∀ w ∈ v.reads options p start, ∀ name ∈ w, Path.IsPlain name := fun w hw name hname =>
      plain_of_not_vacant hs (ne_nil_of_mem_reads hs hd hw).2 name (List.mem_append_right _ hname)
    exact (nodup_reads hs hd).imp_of_mem fun hw hw' hne => ⟨hne, hplain _ hw, hplain _ hw'⟩

/-- The same tree is read in the same way but for the order. -/
theorem SameTree.perm_listed (h : SameTree v v') (hs : v.Sound) (hs' : v'.Sound) (hd : v.isDirectory start) :
    (v.listed options p start).Perm (v'.listed options p start) := by
  have hbelow : v'.below p start = v.below p start := by
    funext w
    rw [below, below, h.object]
  have hkeeps : v'.keeps options p start = v.keeps options p start := by
    funext w
    rw [keeps, keeps, hbelow]
  have hreads : (v.reads options p start).Perm (v'.reads options p start) := by
    rw [reads, reads, beside, beside, hkeeps]
    split
    · exact h.perm_descendants hs hs' hd _
    · exact ((h.perm_names hs hs' start).map _).filter _
  rw [listed, listed, given, given, hbelow]
  exact (hreads.filterMap _).filter _

end Volume

namespace Directory

open Volume Level

variable {v : Volume} {options : WalkOptions} {p : Path} {start : Place} {name : Name} {ahead : List Name}
  {object : Object} {w : Walk Stream} {rest : List Entry}

/-! ## Walks under way -/

/-- A walk that stays in one directory, with some names still to be read. -/
def within (options : WalkOptions) (p : Path) (ahead : List Name) : Walk Stream := ⟨options, [⟨p, ahead⟩], [], none⟩

/-- A walk without links that is under way, and the entries that are left of it. -/
inductive Going (v : Volume) (options : WalkOptions) (p : Path) (start : Place) : Walk Stream → List Entry → Prop
  | below {levels : List Level} (hr : options.recursive) (hopen : ∀ l ∈ levels, l.Open v p start)
      (hload : load levels < Walk.steps platform v) :
      Going v options p start (walk options p levels) (left v options p start levels)
  | beside {ahead : List Name} (hr : ¬ options.recursive) (hstands : ∀ name ∈ ahead, ¬ v.Vacant (start ++ [name]))
      (hload : ahead.length + 1 < Walk.steps platform v) :
      Going v options p start (within options p ahead) (v.given options p start (v.beside options p start ahead))
  | ended : Going v options p start ⟨options, [], [], none⟩ []

/-- What is left of a directory when a name has been read. -/
theorem given_beside_cons (ho : v.object? (start ++ [name]) = some object) (ahead : List Name) :
    v.given options p start (v.beside options p start (name :: ahead)) =
      if options.excludes (object.entry (p.join name)) then v.given options p start (v.beside options p start ahead)
      else if options.gives (object.entry (p.join name)) then
        object.entry (p.join name) :: v.given options p start (v.beside options p start ahead)
      else v.given options p start (v.beside options p start ahead) := by
  have hbelow : v.below p start [name] = some (object.entry (p.join name)) := by
    rw [Volume.below, ho]
    rfl
  have hkeeps : v.keeps options p start [name] = !options.excludes (object.entry (p.join name)) := by
    rw [keeps, hbelow, Option.any_some]
  rw [Volume.beside, List.map_cons, List.filter_cons, hkeeps]
  cases hx : options.excludes (object.entry (p.join name)) with
  | true => rfl
  | false =>
    rw [Bool.not_false, if_pos rfl, if_neg Bool.false_ne_true, given, List.filterMap_cons, hbelow, List.filter_cons]
    rfl

/-- A step of a walk that stays in one directory and has a name to read. -/
theorem advance_name (hs : v.Sound) (hr : ¬ options.recursive) (hreach : v.reach true p = .ok start)
    (hd : v.isDirectory start) (ho : v.object? (start ++ [name]) = some object) (ahead : List Name) (steps : Nat) :
    (Walk.advance platform (steps + 1)).apply (v, within options p (name :: ahead)) =
      if options.excludes (object.entry (p.join name)) then
        (Walk.advance platform steps).apply (v, within options p ahead)
      else if options.gives (object.entry (p.join name)) then
        (.ok (some (object.entry (p.join name))), (v, within options p ahead))
      else (Walk.advance platform steps).apply (v, within options p ahead) := by
  have hread : (platform.readdir ⟨p, name :: ahead⟩).apply v =
      (.ok (some (object.entry (p.join name), ⟨p, ahead⟩)), v) := apply_readdir hs hreach hd ho
  exact advance_read ⟨p, ahead⟩ [] steps hread (Walk.enters_of_flat hr) fun h => absurd h Bool.false_ne_true

theorem advance_ended (v : Volume) (options : WalkOptions) (steps : Nat) :
    (Walk.advance platform (steps + 1)).apply (v, ⟨options, [], [], none⟩) =
      (.ok none, (v, ⟨options, [], [], none⟩)) := rfl

/-- A walk that stays in one directory gives the first of what is left. -/
theorem advance_within (hs : v.Sound) (hr : ¬ options.recursive) (hreach : v.reach true p = .ok start)
    (hd : v.isDirectory start) {steps : Nat} (hstands : ∀ name ∈ ahead, ¬ v.Vacant (start ++ [name]))
    (hload : ahead.length + 1 < steps) (hsteps : steps ≤ Walk.steps platform v) :
    ∃ w', Going v options p start w' (v.given options p start (v.beside options p start ahead)).tail ∧
      (Walk.advance platform steps).apply (v, within options p ahead) =
        (.ok (v.given options p start (v.beside options p start ahead)).head?, (v, w')) := by
  induction ahead generalizing steps with
  | nil =>
    obtain ⟨steps, rfl⟩ := Nat.exists_eq_add_of_le' hload
    exact ⟨_, .ended, (apply_bind_ok rfl).trans (advance_ended v options steps)⟩
  | cons name ahead ih =>
    obtain ⟨hname, hahead⟩ := List.forall_mem_cons.mp hstands
    obtain ⟨object, ho⟩ := hs.isSome_object? (Option.isSome_iff_ne_none.mpr hname)
    cases steps with
    | zero => exact absurd hload (Nat.not_lt_zero _)
    | succ steps =>
      have hless : ahead.length + 1 < steps := Nat.lt_of_succ_lt_succ hload
      have hroom : steps ≤ Walk.steps platform v := Nat.le_of_succ_le hsteps
      have hgo := ih hahead hless hroom
      rw [advance_name hs hr hreach hd ho, given_beside_cons ho]
      split
      · exact hgo
      · split
        · exact ⟨_, .beside hr hahead (Nat.lt_of_lt_of_le hless hroom), rfl⟩
        · exact hgo

section Run

variable (hs : v.Sound) (hf : ¬ options.followSymlinks) (hreach : v.reach true p = .ok start)
  (hd : v.isDirectory start)

include hs hf hreach hd

/-- A walk that is under way gives the first of what is left. -/
theorem Going.step (h : Going v options p start w rest) :
    ∃ w', Going v options p start w' rest.tail ∧
      (Walk.nextUnsorted platform).apply (v, w) = (.ok rest.head?, (v, w')) := by
  rw [Walk.nextUnsorted, apply_of]
  cases h with
  | below hr hopen hload =>
    obtain ⟨levels', ⟨hopen', hload', hleft⟩, hrun⟩ := advance_levels hs hr hf hopen hload
    rw [← hleft]
    exact ⟨_, .below hr hopen' (Nat.lt_of_le_of_lt hload' hload), hrun⟩
  | beside hr hstands hload => exact advance_within hs hr hreach hd hstands hload (Nat.le_refl _)
  | ended => exact ⟨_, .ended, advance_ended v options _⟩

omit hs hf hreach hd in
theorem Going.sorted? (h : Going v options p start w rest) : w.sorted? = none := by
  cases h <;> rfl

/-- A walk gives all that is left, in the order of the volume, to whoever asks the platform for the next entry. -/
theorem Going.yields {source : Walking Volume Stream (Option Entry)}
    (hsource : ∀ {w w' : Walk Stream} {next? : Option Entry}, w.sorted? = none →
      (Walk.nextUnsorted platform).apply (v, w) = (.ok next?, (v, w')) → source.apply (v, w) = (.ok next?, (v, w')))
    (h : Going v options p start w rest) : ∃ w', Walk.Yields source (v, w) rest (v, w') := by
  induction rest generalizing w with
  | nil =>
    obtain ⟨w', -, hrun⟩ := h.step hs hf hreach hd
    exact ⟨w', .ended (hsource h.sorted? hrun)⟩
  | cons entry rest ih =>
    obtain ⟨w', hgoing, hrun⟩ := h.step hs hf hreach hd
    obtain ⟨w'', hrest⟩ := ih hgoing
    exact ⟨w'', .gives (hsource h.sorted? hrun) hrest⟩

omit hf in
theorem going_start : Going v options p start (within options p (v.names start)) (v.listed options p start) := by
  by_cases hr : options.recursive
  · have hnames : v.names start = (v.branch start).inner.names := by
      rw [names, branch?_eq_branch (isSome_number?_of_isDirectory hd), Option.elim_some]
    have hleft : v.listed options p start = left v options p start [top v start] := by
      rw [left_top, listed, reads, if_pos hr]
      rfl
    rw [hleft, hnames]
    exact .below hr (open_top hs hreach hd) (bounds_top options p hd).1
  · rw [listed, reads, if_neg hr]
    refine .beside hr (fun name hname => Option.isSome_iff_ne_none.mp (mem_names.mp hname)) ?_
    have hlength := length_names_le hs start
    show (v.names start).length + 1 < 2 * (v.entries.size + 1) + 2
    omega

/-! ## Walks from their start to their end -/

theorem entries_unsorted (hsort : options.sort = .none) :
    (entries platform options p).apply v = (.ok (v.listed options p start), v) := by
  have hstart : (Walk.start platform options p).apply v = (.ok (within options p (v.names start)), v) := by
    rw [Walk.start, apply_bind_ok (apply_opendir hreach hd), if_neg hf]
    refine (apply_bind_ok rfl).trans ?_
    dsimp only
    rw [if_pos hsort]
    rfl
  obtain ⟨w', hyields⟩ := (going_start hs hreach hd).yields hs hf hreach hd Walk.apply_next
  exact (apply_bind_ok hstart).trans (Walk.finish_eq (hyields.all (length_listed_lt hs hd)))

theorem entries_in_order (hsort : options.sort ≠ .none) :
    (entries platform options p).apply v =
      (.ok (Entry.sorted (v.listed options p start) options.sort), v) := by
  obtain ⟨w', hread⟩ := (going_start hs hreach hd).yields hs hf hreach hd fun _ hrun => hrun
  have hstart : (Walk.start platform options p).apply v =
      (.ok ⟨options, [], [], some (Entry.sorted (v.listed options p start) options.sort)⟩, v) := by
    rw [Walk.start, apply_bind_ok (apply_opendir hreach hd), if_neg hf]
    refine (apply_bind_ok rfl).trans ?_
    dsimp only
    rw [if_neg hsort]
    exact (apply_bind_ok (Walk.finish_eq (hread.all (length_listed_lt hs hd)))).trans rfl
  have hlength : (Entry.sorted (v.listed options p start) options.sort).length < platform.extent v + 1 :=
    (Entry.sorted_perm _ _).length_eq.symm ▸ length_listed_lt hs hd
  have hyields := Walk.yields_sorted platform v ⟨options, [], [], none⟩
    (Entry.sorted (v.listed options p start) options.sort)
  exact (apply_bind_ok hstart).trans (Walk.finish_eq (hyields.all hlength))

end Run

theorem entries_of_list_error {e : Errno} (h : v.list p = .error e) (options : WalkOptions) :
    (entries platform options p).apply v = (.error (.system (.opendir p) e), v) := by
  have hopen : (platform.opendir p).apply v = (.error (.system (.opendir p) e), v) := by
    have hrun : (platform.opendir p).apply v =
        (((v.list p).map fun names => (⟨p, names⟩ : Stream)).mapError (.system (.opendir p)), v) := rfl
    rw [hrun, h]
    rfl
  exact apply_bind_error (apply_bind_error hopen)

/-- **A walk in an order gives what one without an order gives, in that order.** If links are not followed, it gives
the same entries, each once, ascending by the key and then by the path; both walks fail only where the path is no
directory. The same tree is given in the same way, in whatever order its directories list it. -/
theorem entries_sorted (hs : v.Sound) (hf : ¬ options.followSymlinks) (hsort : options.sort ≠ .none) :
    ((∃ e, v.list p = .error e ∧
        (entries platform { options with sort := .none } p).apply v = (.error (.system (.opendir p) e), v) ∧
        (entries platform options p).apply v = (.error (.system (.opendir p) e), v)) ∨
      ∃ (start : Place) (sorted : List Entry), v.reach true p = .ok start ∧ v.isDirectory start ∧
        (entries platform { options with sort := .none } p).apply v = (.ok (v.listed options p start), v) ∧
        (entries platform options p).apply v = (.ok sorted, v) ∧ sorted.Perm (v.listed options p start) ∧
        sorted.Nodup ∧ sorted.Pairwise fun a b => Entry.compareIn options.sort a b = .lt) ∧
    ∀ v' : Volume, v'.Sound → SameTree v v' →
      ((entries platform options p).apply v').1 = ((entries platform options p).apply v).1 := by
  cases hlist : v.list p with
  | error e =>
    refine ⟨.inl ⟨e, rfl, entries_of_list_error hlist _, entries_of_list_error hlist options⟩, fun v' hs' hsame => ?_⟩
    rw [entries_of_list_error (hsame.list_error hs hs' hlist), entries_of_list_error hlist]
  | ok names =>
    obtain ⟨start, hreach, hd, -⟩ := list_eq_ok hlist
    have hdistinct : Entry.Distinct (v.listed options p start) :=
      distinct_listed hs hd (List.isEmpty_eq_false_iff.mp (isEmpty_of_reach hreach))
    have hperm := Entry.sorted_perm (v.listed options p start) options.sort
    have hsorted := entries_in_order hs hf hreach hd hsort
    refine ⟨.inr ⟨start, _, hreach, hd, entries_unsorted hs hf hreach hd rfl, hsorted, hperm,
      (hdistinct.perm hperm.symm).nodup, Entry.sorted_ascending hsort hdistinct⟩, fun v' hs' hsame => ?_⟩
    have hreach' : v'.reach true p = .ok start := (hsame.reach hs hs').trans hreach
    have hd' : v'.isDirectory start := (hsame.isDirectory start).trans hd
    rw [entries_in_order hs' hf hreach' hd' hsort, hsorted,
      Entry.sorted_eq_of_perm hsort hdistinct (hsame.perm_listed hs hs' hd)]

/-- A directory beside a file whose name goes on where that of the directory ends. -/
def shelved : List (Place × Content) :=
  [(placeOf ["s"], .directory), (placeOf ["s", "b-"], .file [0x78]), (placeOf ["s", "b"], .directory),
    (placeOf ["s", "b", "x"], .file [0x78]), (placeOf ["s", "b", "a"], .file [0x78, 0x78])]

/-- The same tree, made in another order. -/
def reshelved : List (Place × Content) :=
  [(placeOf ["s"], .directory), (placeOf ["s", "b"], .directory), (placeOf ["s", "b", "a"], .file [0x78, 0x78]),
    (placeOf ["s", "b", "x"], .file [0x78]), (placeOf ["s", "b-"], .file [0x78])]

/-- Volumes hold the same tree if the same stands at all places that they were grown with. -/
theorem sameTree_grown {places places' : List (Place × Content)} (h : bare.CanGrow places)
    (h' : bare.CanGrow places')
    (hsame : ∀ w ∈ [] :: (places ++ places').map (·.1), (grown places').object? w = (grown places).object? w) :
    SameTree (grown places) (grown places') where
  cwd := by rw [grown, grown, cwd_grow, cwd_grow]
  rules := by rw [grown, grown, rules_grow, rules_grow]
  object w := by
    by_cases hw : (grown places).Vacant w ∧ (grown places').Vacant w
    · rw [(sound_grown h).object?_eq_none.mpr hw.1, (sound_grown h').object?_eq_none.mpr hw.2]
    · refine hsame w ?_
      rw [List.map_append]
      rcases not_and_or.mp hw with hw | hw
      · exact List.cons_subset_cons _ (List.subset_append_left _ _) (mem_of_not_vacant_grown h hw)
      · exact List.cons_subset_cons _ (List.subset_append_right _ _) (mem_of_not_vacant_grown h' hw)

theorem sameTree_shelved : SameTree (grown shelved) (grown reshelved) :=
  sameTree_grown (by decide +kernel) (by decide +kernel) (by decide +kernel)

/-- All below a directory, without links followed, small entries first. -/
def bySize : WalkOptions := { recursive := true, sort := .size }

theorem entries_sorted_shelved :
    ((grown shelved).Sound ∧ ¬ bySize.followSymlinks ∧ bySize.sort ≠ .none) ∧
    ((grown reshelved).Sound ∧ SameTree (grown shelved) (grown reshelved)) ∧
    (∃ (start : Place) (sorted : List Entry),
      (grown shelved).reach true "/s".toList = .ok start ∧ (grown shelved).isDirectory start ∧
      (entries platform { bySize with sort := .none } "/s".toList).apply (grown shelved) =
        (.ok ((grown shelved).listed bySize "/s".toList start), grown shelved) ∧
      (entries platform bySize "/s".toList).apply (grown shelved) = (.ok sorted, grown shelved) ∧
      sorted.Perm ((grown shelved).listed bySize "/s".toList start) ∧ sorted.Nodup ∧
      sorted.Pairwise fun a b => Entry.compareIn .size a b = .lt) ∧
    ((entries platform bySize "/s".toList).apply (grown reshelved)).1 =
      ((entries platform bySize "/s".toList).apply (grown shelved)).1 ∧
    ((entries platform { bySize with sort := .none } "/s".toList).apply (grown shelved)).1.toOption.map
      (·.map (·.path)) = some ["/s/b-".toList, "/s/b".toList, "/s/b/x".toList, "/s/b/a".toList] ∧
    ((entries platform { bySize with sort := .none } "/s".toList).apply (grown reshelved)).1.toOption.map
      (·.map (·.path)) = some ["/s/b".toList, "/s/b/a".toList, "/s/b/x".toList, "/s/b-".toList] := by
  have hs : (grown shelved).Sound := sound_grown (by decide +kernel)
  have hs' : (grown reshelved).Sound := sound_grown (by decide +kernel)
  have hf : ¬ bySize.followSymlinks := Bool.false_ne_true
  have hsort : bySize.sort ≠ .none := SortMode.noConfusion
  obtain ⟨hordered, hsame⟩ := entries_sorted (p := "/s".toList) hs hf hsort
  have hlist : (grown shelved).list "/s".toList = .ok ["b-".toList, "b".toList] := by decide +kernel
  refine ⟨⟨hs, hf, hsort⟩, ⟨hs', sameTree_shelved⟩, hordered.resolve_left ?_, hsame _ hs' sameTree_shelved,
    by decide +kernel, by decide +kernel⟩
  rintro ⟨e, he, -⟩
  rw [hlist] at he
  cases he

end Directory

end Bytework
