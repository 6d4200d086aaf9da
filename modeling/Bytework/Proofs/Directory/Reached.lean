import Bytework.Proofs.Directory.Deep
import Bytework.Proofs.Directory.Followed
import Bytework.Proofs.Directory.Handles
import Bytework.Proofs.Path.Order

/-!
# All that is connected

Runs of a walk that follows links: they end, and what is given is what stands in the directories that were
opened.

* `goes_advance`, `goes_next`: steps; `Under.length_tiers`, `Under.length_given`: how far they go.
* `drain_course`, `entries_recorded`: runs.
* **`entries_connected`**: what a walk with links followed opens and gives, whatever its order.
-/

namespace Bytework

open Bytework.Action Volume

variable {v : Volume} {options : WalkOptions} {p : Path} {start : Place} {log : List Deed} {steps : Nat}
  {c : Course}

/-! ## Steps -/

theorem Volume.Met.stat {entry : Entry} {d : Place} {name : Name} (h : v.Met entry p d name) (hs : v.Sound) :
    v.stat false entry.path = .ok entry := by
  obtain ⟨object, ho, he⟩ := h.entry
  have hpath : entry.path = p.join name := h.path
  exact stat_eq_ok.mpr ⟨_, object, h.reach_entry hs, ho, by rw [hpath, he]⟩

section Steps

variable (hs : v.Sound) (hr : options.recursive) (hf : options.followSymlinks)
  (hx : ∀ entry, options.excludes entry = false) (hg : ∀ entry, options.gives entry = true)

include hs hr hf hx hg

/-- Directories that have been read are left, until an entry is read or all are left. -/
theorem goes_advance (h : c.Under v start log) (hsteps : c.tiers.length < steps) :
    c.Goes v options start log (Walk.advance platform.recorded steps) := by
  induction steps generalizing c log with
  | zero => exact absurd hsteps (Nat.not_lt_zero _)
  | succ steps ih =>
    obtain ⟨tiers, real, given⟩ := c
    match tiers with
    | [] => exact ⟨none, _, log, h, (List.append_nil _).symm, fun _ => rfl, rfl⟩
    | ⟨id, q, place, name :: ahead⟩ :: outer => exact goes_entry hs hr hf hx hg h
    | ⟨id, q, place, []⟩ :: outer =>
      have hlog : Deed.openings (log ++ [.read id] ++ [.closed id]) = Deed.openings log := by
        rw [Deed.openings_append, Deed.openings_append]
        exact (List.append_nil _).trans (List.append_nil _)
      obtain ⟨next?, c', log', hunder, hgiven, htiers, hrun⟩ :=
        ih (h.leave rfl hlog) (Nat.lt_of_succ_lt_succ hsteps)
      have hleft : (Walk.advance platform.recorded (steps + 1)).apply
          ((v, log), Course.walk options ⟨⟨id, q, place, []⟩ :: outer, real, given⟩) =
          (Walk.advance platform.recorded steps).apply
            ((v, log ++ [.read id] ++ [.closed id]), Course.walk options ⟨outer, real, given⟩) :=
        Walk.advance_left rfl rfl rfl
      exact ⟨next?, c', log', hunder, hgiven, htiers, hleft.trans hrun⟩

end Steps

section Bounds

variable (hs : v.Sound) (h : c.Under v start log)

include hs h

theorem Course.Under.length_tiers : c.tiers.length < Walk.steps platform.recorded (v, log) := by
  have hle := h.inner.length_le
  rw [List.length_map] at hle
  have hreal := length_directories_le hs h.nodup fun d hd => (h.connected d hd).2
  show c.tiers.length < 2 * (v.entries.size + 1) + 2
  omega

theorem Course.Under.length_given : c.given.length ≤ v.entries.size := by
  have hlength := h.all.length_eq
  rw [List.length_append, List.length_map] at hlength
  have hle := length_children_le hs h.nodup
  omega

end Bounds

section Runs

variable (hs : v.Sound) (hr : options.recursive) (hf : options.followSymlinks)
  (hx : ∀ entry, options.excludes entry = false) (hg : ∀ entry, options.gives entry = true)

include hs hr hf hx hg

theorem goes_nextUnsorted (h : c.Under v start log) :
    c.Goes v options start log (Walk.nextUnsorted platform.recorded) := by
  obtain ⟨next?, c', log', hunder, hgiven, htiers, hrun⟩ := goes_advance hs hr hf hx hg h (h.length_tiers hs)
  refine ⟨next?, c', log', hunder, hgiven, htiers, ?_⟩
  rw [Walk.nextUnsorted, apply_of, ← hrun]

theorem goes_next (h : c.Under v start log) : c.Goes v options start log (Walk.next platform.recorded) := by
  obtain ⟨next?, c', log', hunder, hgiven, htiers, hrun⟩ := goes_nextUnsorted hs hr hf hx hg h
  exact ⟨next?, c', log', hunder, hgiven, htiers, Walk.apply_next rfl hrun⟩

end Runs

/-- A run goes on until all directories are left. -/
theorem drain_course (hs : v.Sound) {source : Walking (Volume × List Deed) (Nat × Stream) (Option Entry)}
    (hgoes : ∀ {c : Course} {log}, c.Under v start log → c.Goes v options start log source) {n : Nat}
    (h : c.Under v start log) (hn : v.entries.size < n + c.given.length) :
    ∃ (es : List Entry) (c' : Course) (log' : List Deed), c'.Under v start log' ∧ c'.tiers = [] ∧
      c'.given = c.given ++ es ∧
      (Walk.drain source n).apply ((v, log), c.walk options) = (.ok es, ((v, log'), c'.walk options)) := by
  induction n generalizing c log with
  | zero =>
    have hle := h.length_given hs
    omega
  | succ n ih =>
    obtain ⟨next?, c', log', hunder, hgiven, htiers, hrun⟩ := hgoes h
    match next? with
    | none => exact ⟨[], c', log', hunder, htiers rfl, hgiven, apply_bind_ok hrun⟩
    | some entry =>
      obtain ⟨es, c'', log'', hunder', htiers', hgiven', hrest⟩ := ih hunder (by
        rw [hgiven, List.length_append]
        show v.entries.size < n + (c.given.length + 1)
        omega)
      refine ⟨entry :: es, c'', log'', hunder', htiers', ?_, (apply_bind_ok hrun).trans (apply_bind_ok hrest)⟩
      rw [hgiven', hgiven, List.append_assoc]
      rfl

/-! ## Whole walks -/

/-- A walk that has opened the directory it starts at. -/
def Course.first (v : Volume) (p : Path) (start : Place) : Course :=
  ⟨[⟨0, p, start, v.names start⟩], [start], []⟩

theorem under_first (hreach : v.reach true p = .ok start) (hd : v.isDirectory start) :
    (Course.first v p start).Under v start [.opened 0 p] where
  tiers := List.forall_mem_singleton.mpr ⟨hreach, hd, fun _ hn => hn⟩
  inner := List.Sublist.refl _
  nodup := List.nodup_singleton _
  connected := List.forall_mem_singleton.mpr ⟨.start, hd⟩
  start := List.mem_singleton_self _
  opened := congrArg ([·]) hreach
  met := List.forall_mem_nil _
  followed := List.forall_mem_nil _
  all := .refl _

theorem start_first (hf : options.followSymlinks) (hreach : v.reach true p = .ok start)
    (hd : v.isDirectory start) :
    (Walk.start platform.recorded options p).apply (v, []) =
      (if options.sort = .none then pure ((Course.first v p start).walk options) else do
        let entries ← Walk.finish platform.recorded ((Course.first v p start).walk options)
          (Walk.all platform.recorded (Walk.nextUnsorted platform.recorded))
        return ⟨options, [], [start.path], some (Entry.sorted entries options.sort)⟩ :
        Action (Volume × List Deed) _).apply (v, [.opened 0 p]) := by
  have hopen : (platform.recorded.opendir p).apply (v, []) = (.ok (0, ⟨p, v.names start⟩), (v, [.opened 0 p])) :=
    apply_opendir_ok (apply_opendir hreach hd)
  have hreal : (platform.recorded.realpath p).apply (v, [.opened 0 p]) = (.ok start.path, (v, [.opened 0 p])) :=
    apply_noting (apply_realpath hreach hd)
  rw [Walk.start, apply_bind_ok hopen, if_pos hf, map_eq_pure_bind]
  exact apply_bind_ok (apply_bind_ok hreal)

theorem finish_drained {σ η : Type} {platform : Platform σ η} {source : Walking σ η (Option Entry)} {s s' : σ}
    {w w' : Walk η} {es : List Entry} (hhandles : w'.handles = [])
    (hrun : (Walk.drain source (platform.extent s + 1)).apply (s, w) = (.ok es, (s', w'))) :
    (Walk.finish platform w (Walk.all platform source)).apply s = (.ok es, s') := by
  have hall : (Walk.all platform source).apply (s, w) = (.ok es, (s', w')) := hrun
  rw [Walk.finish, apply_of, hall]
  dsimp only
  rw [hhandles]
  rfl

/-- All entries of a walk with a log. -/
theorem entries_recorded (hs : v.Sound) (hreach : v.reach true p = .ok start) (hd : v.isDirectory start)
    (hr : options.recursive) (hf : options.followSymlinks) (hx : ∀ entry, options.excludes entry = false)
    (hg : ∀ entry, options.gives entry = true) :
    ∃ (es : List Entry) (c : Course) (log : List Deed), c.Under v start log ∧ c.tiers = [] ∧ es.Perm c.given ∧
      (Directory.entries platform.recorded options p).apply (v, []) = (.ok es, (v, log)) := by
  have hfirst := under_first hreach hd
  have hextent : v.entries.size <
      platform.recorded.extent (v, [.opened 0 p]) + 1 + (Course.first v p start).given.length := by
    show v.entries.size < v.entries.size + 1 + 1 + 0
    omega
  have hhandles {c : Course} (htiers : c.tiers = []) : (c.walk options).handles = [] := by
    rw [Course.walk, htiers, List.map_nil]
  have hstart := start_first hf hreach hd
  by_cases hsort : options.sort = .none
  · obtain ⟨es, c, log, hunder, htiers, hgiven, hrun⟩ :=
      drain_course hs (goes_next hs hr hf hx hg) hfirst hextent
    refine ⟨es, c, log, hunder, htiers, .of_eq hgiven.symm, ?_⟩
    rw [if_pos hsort] at hstart
    exact (apply_bind_ok hstart).trans (finish_drained (hhandles htiers) hrun)
  · obtain ⟨es, c, log, hunder, htiers, hgiven, hrun⟩ :=
      drain_course hs (goes_nextUnsorted hs hr hf hx hg) hfirst hextent
    have hperm : (Entry.sorted es options.sort).Perm es := Entry.sorted_perm es options.sort
    refine ⟨_, c, log, hunder, htiers, hperm.trans (.of_eq hgiven.symm), ?_⟩
    rw [if_neg hsort, apply_bind_ok (finish_drained (hhandles htiers) hrun)] at hstart
    have hlength : (Entry.sorted es options.sort).length < platform.recorded.extent (v, log) + 1 := by
      have hle := hunder.length_given hs
      rw [hgiven] at hle
      rw [hperm.length_eq]
      exact Nat.lt_succ_of_le (Nat.le_succ_of_le hle)
    have hyields := Walk.yields_sorted platform.recorded (v, log) ⟨options, [], [start.path], none⟩
      (Entry.sorted es options.sort)
    exact (apply_bind_ok hstart).trans (finish_drained rfl (hyields.drain hlength))

/-- The log does not change what a walk on a volume gives. -/
theorem entries_of_recorded {es : List Entry} (hreach : v.reach true p = .ok start) (hd : v.isDirectory start)
    (hrun : (Directory.entries platform.recorded options p).apply (v, []) = (.ok es, (v, log))) :
    (Directory.entries platform options p).apply v = (.ok es, v) := by
  have hs : ¬ Walk.Stranded platform options p v := by
    rintro ⟨-, handle, s₁, e, s₂, hopen, hreal⟩
    rw [apply_opendir hreach hd, Prod.mk.injEq] at hopen
    rw [← hopen.2, apply_realpath hreach hd, Prod.mk.injEq] at hreal
    exact absurd hreal.1 (by simp)
  have hcustody := custody_recorded platform
  have halike := hcustody.alike_within (t := (v, [])) options p hs ⟨rfl, rfl, Tidy.nil⟩
    fun _ _ => hcustody.alike_all fun _ _ => hcustody.alike_next
  obtain ⟨x, y, s', t', ha, hb, rfl, hend, -⟩ | ⟨e, s', t', ha, hb, -⟩ := halike.cases
  · have he := hb.symm.trans hrun
    rw [Prod.mk.injEq, Except.ok.injEq] at he
    obtain ⟨rfl, rfl⟩ := he
    exact ha.trans (by rw [hend])
  · exact absurd (hb.symm.trans hrun) (by simp)

/-- **A walk that follows links** gives a result, whatever links there are. It opens directories that are
connected, no two paths of them for one place, and gives each entry that stands in one of them once, under a
path that shows it. If the paths of links to directories can be resolved, it opens all that are connected. -/
theorem entries_connected (hs : v.Sound) (hreach : v.reach true p = .ok start) (hd : v.isDirectory start)
    (hr : options.recursive) (hf : options.followSymlinks) (hx : ∀ entry, options.excludes entry = false)
    (hg : ∀ entry, options.gives entry = true) :
    ∃ (es : List Entry) (log : List Deed) (real : List Place),
      ((Directory.entries platform options p).apply v = (.ok es, v) ∧
        (Directory.entries platform.recorded options p).apply (v, []) = (.ok es, (v, log))) ∧
      ((Deed.openings log).map (v.reach true) = real.map .ok ∧ real.Nodup ∧ ∀ d ∈ real, v.Connected start d) ∧
      ((∀ e ∈ es, v.stat false e.path = .ok e) ∧ (es.map v.spot).Nodup ∧
        ∀ w, w ∈ es.map v.spot ↔ ∃ d ∈ real, ∃ name ∈ v.names d, w = d ++ [name]) ∧
      ((∀ e ∈ es, ∀ d, v.Leads v.Vacant true e.path d → v.isDirectory d → ∃ x, v.stat true e.path = .ok x) →
        ∀ d, v.Connected start d → d ∈ real) := by
  obtain ⟨es, ⟨tiers, real, given⟩, log, hunder, rfl, hperm, hrun⟩ := entries_recorded hs hreach hd hr hf hx hg
  have hall : (given.map v.spot).Perm (real.flatMap v.childPlaces) := by
    have hall := hunder.all
    rwa [List.flatMap_nil, List.append_nil] at hall
  have hspots := (hperm.map v.spot).trans hall
  have hmem (w : Place) : w ∈ es.map v.spot ↔ ∃ d ∈ real, ∃ name ∈ v.names d, w = d ++ [name] := by
    simp only [hspots.mem_iff, List.mem_flatMap, mem_childPlaces]
  refine ⟨es, log, real.reverse, ⟨entries_of_recorded hreach hd hrun, hrun⟩,
    ⟨hunder.opened, List.nodup_reverse.mpr hunder.nodup, fun d hmem => ?_⟩, ⟨fun e he => ?_, ?_, fun w => ?_⟩, ?_⟩
  · exact (hunder.connected d (List.mem_reverse.mp hmem)).1
  · obtain ⟨q, d, name, hmet⟩ := hunder.met e (hperm.mem_iff.mp he)
    exact hmet.stat hs
  · exact hspots.nodup_iff.mpr (nodup_children hs hunder.nodup)
  · simp only [List.mem_reverse]
    exact hmem w
  · intro hresolved d hconnected
    rw [List.mem_reverse]
    induction hconnected with
    | start => exact hunder.start
    | @through d w name _ hname hway hdir ih =>
      -- the entry that stands at the name leads to the directory, so the walk has opened it
      obtain ⟨e, he, hspot⟩ := List.mem_map.mp ((hmem (d ++ [name])).mpr ⟨d, ih, name, hname, rfl⟩)
      obtain ⟨q, d', name', hmet⟩ := hunder.met e (hperm.mem_iff.mp he)
      obtain ⟨rfl, hlast⟩ := List.append_inj' ((hmet.spot hs).symm.trans hspot) rfl
      obtain rfl := List.singleton_injective hlast
      have hleads := hmet.leads hs hway
      obtain ⟨x, hstat⟩ := hresolved e he w hleads hdir
      obtain ⟨w', object, hw', -, -⟩ := stat_eq_ok.mp hstat
      obtain rfl := hleads.unique (leads_of_reach hs hw')
      exact hunder.followed e (hperm.mem_iff.mp he) w hw' hdir

/-- A directory with a link to itself, and one in it with a file and a link beside it. -/
def tangled : List (Place × Content) :=
  [(placeOf ["d"], .directory), (placeOf ["d", "l"], .symlink "/d".toList), (placeOf ["d", "e"], .directory),
    (placeOf ["d", "e", "f"], .file [0x66]), (placeOf ["d", "k"], .symlink "e".toList)]

theorem entries_tangled :
    ((grown tangled).Sound ∧ (grown tangled).reach true "/d".toList = .ok (placeOf ["d"]) ∧
      (grown tangled).isDirectory (placeOf ["d"])) ∧
    ∃ es real,
      (Directory.entries platform deepFollowing "/d".toList).apply (grown tangled) = (.ok es, grown tangled) ∧
      es.map (·.path) = ["/d/l".toList, "/d/e".toList, "/d/e/f".toList, "/d/k".toList] ∧
      real = [placeOf ["d"], placeOf ["d", "e"]] ∧
      ∀ d, (grown tangled).Connected (placeOf ["d"]) d ↔ d ∈ real := by
  have hs : (grown tangled).Sound := sound_grown (by decide +kernel)
  have hreach : (grown tangled).reach true "/d".toList = .ok (placeOf ["d"]) := by decide +kernel
  have hd : (grown tangled).isDirectory (placeOf ["d"]) := by decide +kernel
  obtain ⟨es, log, real, ⟨hplain, hrun⟩, ⟨hopen, -, hconnected⟩, -, hall⟩ :=
    @entries_connected _ deepFollowing _ _ hs hreach hd rfl rfl (fun _ => rfl) fun _ => rfl
  have hpaths : es.map (·.path) = ["/d/l".toList, "/d/e".toList, "/d/e/f".toList, "/d/k".toList] := by
    have hgiven : ((Directory.entries platform deepFollowing "/d".toList).apply (grown tangled)).1.map
        (List.map (·.path)) = .ok ["/d/l".toList, "/d/e".toList, "/d/e/f".toList, "/d/k".toList] := by
      decide +kernel
    rw [hplain] at hgiven
    exact Except.ok.inj hgiven
  have hlog : Deed.openings log = ["/d".toList, "/d/e".toList] := by
    have hlog : Deed.openings ((Directory.entries platform.recorded deepFollowing "/d".toList).apply
        (grown tangled, [])).2.2 = ["/d".toList, "/d/e".toList] := by decide +kernel
    rwa [hrun] at hlog
  have hreal : real = [placeOf ["d"], placeOf ["d", "e"]] := by
    refine List.map_injective_iff.mpr (fun _ _ => Except.ok.inj) (hopen.symm.trans ?_)
    rw [hlog]
    decide +kernel
  have hresolved : ∀ path ∈ es.map (·.path), ((grown tangled).stat true path).isOk := by
    rw [hpaths]
    decide +kernel
  refine ⟨⟨hs, hreach, hd⟩, es, real, hplain, hpaths, hreal,
    fun d => ⟨hall (fun e he _ _ _ => ?_) d, hconnected d⟩⟩
  have hok := hresolved _ (List.mem_map_of_mem he)
  match hstat : (grown tangled).stat true e.path with
  | .ok x => exact ⟨x, rfl⟩
  | .error _ =>
    rw [hstat] at hok
    cases hok

end Bytework
