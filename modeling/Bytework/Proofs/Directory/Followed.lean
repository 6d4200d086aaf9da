import Bytework.Proofs.Directory.Answers
import Bytework.Proofs.Directory.Recorded
import Bytework.Proofs.Volume.Connected

/-!
# Walks over links

A walk that follows links, on a volume with a log of what is opened: it enters each real directory once.

* `Course`: what is open, what was opened, and what was given; `Course.Under`: what holds of it.
* `Under.leave`, `Under.pass`, `Under.enter`: what a step does to it.
* `apply_enters`: which entries are entered; **`goes_entry`**: a step that reads an entry.
-/

namespace Bytework

open Bytework.Action Volume

variable {v : Volume} {options : WalkOptions} {p : Path} {start : Place} {log : List Deed} {steps : Nat}

/-- The paths that were opened. -/
def Deed.openings (log : List Deed) : List Path :=
  log.filterMap fun
    | .opened _ p => some p
    | _ => none

/-- An open directory: its number, its path, where it stands, and the names that are still to be read. -/
structure Tier where
  id : Nat
  path : Path
  place : Place
  ahead : List Name

namespace Tier

/-- The directory as it is open. -/
def handle (t : Tier) : Nat × Stream := (t.id, ⟨t.path, t.ahead⟩)

/-- What holds of an open directory. -/
structure Open (v : Volume) (t : Tier) : Prop where
  reach : v.reach true t.path = .ok t.place
  directory : v.isDirectory t.place
  ahead : ∀ name ∈ t.ahead, name ∈ v.names t.place

/-- The places of what is still to be read. -/
def pending (t : Tier) : List Place := t.ahead.map (t.place ++ [·])

end Tier

/-- How far a walk has come: the directories that are open, those that were opened, the last one first, and
the entries that were given. -/
structure Course where
  tiers : List Tier
  real : List Place
  given : List Entry

namespace Course

/-- A walk that has come so far. -/
def walk (options : WalkOptions) (c : Course) : Walk (Nat × Stream) :=
  ⟨options, c.tiers.map Tier.handle, c.real.map Place.path, none⟩

/-- A walk from a directory has come so far, and this is its log. -/
structure Under (v : Volume) (start : Place) (log : List Deed) (c : Course) : Prop where
  tiers : ∀ t ∈ c.tiers, t.Open v
  inner : (c.tiers.map (·.place)).Sublist c.real
  nodup : c.real.Nodup
  connected : ∀ d ∈ c.real, v.Connected start d ∧ v.isDirectory d
  start : start ∈ c.real
  opened : (Deed.openings log).map (v.reach true) = c.real.reverse.map .ok
  met : ∀ entry ∈ c.given, ∃ p d name, v.Met entry p d name
  followed : ∀ entry ∈ c.given, ∀ d, v.reach true entry.path = .ok d → v.isDirectory d → d ∈ c.real
  /-- What was given and what is still to be read is what stands in the directories that were opened. -/
  all : (c.given.map v.spot ++ c.tiers.flatMap Tier.pending).Perm (c.real.flatMap v.childPlaces)

variable {t : Tier} {outer : List Tier} {real : List Place} {given : List Entry} {log' : List Deed} {name : Name}
  {ahead : List Name} {entry : Entry} {d : Place}

/-- A directory that has been read is left. -/
theorem Under.leave (h : Under v start log ⟨t :: outer, real, given⟩) (ht : t.ahead = [])
    (hlog : Deed.openings log' = Deed.openings log) : Under v start log' ⟨outer, real, given⟩ where
  tiers := (List.forall_mem_cons.mp h.tiers).2
  inner := (List.sublist_cons_self _ _).trans h.inner
  nodup := h.nodup
  connected := h.connected
  start := h.start
  opened := by rw [hlog]; exact h.opened
  met := h.met
  followed := h.followed
  all := by
    have hall := h.all
    rwa [List.flatMap_cons, Tier.pending, ht, List.map_nil, List.nil_append] at hall

section Read

variable (hs : v.Sound) (h : Under v start log ⟨{ t with ahead := name :: ahead } :: outer, real, given⟩)
  (hmet : v.Met entry t.path t.place name)

include hs h hmet

/-- An entry that has been read is given. -/
theorem Under.pass (hf : ∀ d, v.reach true entry.path = .ok d → v.isDirectory d → d ∈ real)
    (hlog : Deed.openings log' = Deed.openings log) :
    Under v start log' ⟨{ t with ahead := ahead } :: outer, real, given ++ [entry]⟩ where
  tiers := by
    obtain ⟨ht, houter⟩ := List.forall_mem_cons.mp h.tiers
    exact List.forall_mem_cons.mpr
      ⟨⟨ht.reach, ht.directory, fun name hn => ht.ahead name (List.mem_cons_of_mem _ hn)⟩, houter⟩
  inner := h.inner
  nodup := h.nodup
  connected := h.connected
  start := h.start
  opened := by rw [hlog]; exact h.opened
  met := List.forall_mem_append.mpr ⟨h.met, List.forall_mem_singleton.mpr ⟨_, _, _, hmet⟩⟩
  followed := List.forall_mem_append.mpr ⟨h.followed, List.forall_mem_singleton.mpr hf⟩
  all := by
    have hall := h.all
    rw [List.flatMap_cons, Tier.pending, List.map_cons, List.cons_append] at hall
    rw [List.map_append, List.map_singleton, hmet.spot hs, List.append_assoc, List.singleton_append]
    exact hall

/-- An entry that leads to a directory which was not opened yet is given, and the directory is opened. -/
theorem Under.enter (id : Nat) (hd : v.reach true entry.path = .ok d) (hdir : v.isDirectory d) (hnew : d ∉ real)
    (hlog : Deed.openings log' = Deed.openings log ++ [entry.path]) :
    Under v start log' ⟨⟨id, entry.path, d, v.names d⟩ :: { t with ahead := ahead } :: outer, d :: real,
      given ++ [entry]⟩ where
  tiers := by
    obtain ⟨ht, houter⟩ := List.forall_mem_cons.mp h.tiers
    exact List.forall_mem_cons.mpr ⟨⟨hd, hdir, fun _ hn => hn⟩, List.forall_mem_cons.mpr
      ⟨⟨ht.reach, ht.directory, fun name hn => ht.ahead name (List.mem_cons_of_mem _ hn)⟩, houter⟩⟩
  inner := h.inner.cons_cons d
  nodup := List.nodup_cons.mpr ⟨hnew, h.nodup⟩
  connected := by
    refine List.forall_mem_cons.mpr ⟨⟨?_, hdir⟩, h.connected⟩
    have hmem : t.place ∈ real := h.inner.subset (show t.place ∈ t.place :: _ from List.mem_cons_self)
    exact .through (h.connected _ hmem).1 hmet.mem (hmet.way hs hd) hdir
  start := List.mem_cons_of_mem _ h.start
  opened := by
    rw [hlog, List.map_append, h.opened, List.map_singleton, hd, List.reverse_cons, List.map_append,
      List.map_singleton]
  met := List.forall_mem_append.mpr ⟨h.met, List.forall_mem_singleton.mpr ⟨_, _, _, hmet⟩⟩
  followed := by
    refine List.forall_mem_append.mpr ⟨fun e he d' hd' hdir' => ?_, List.forall_mem_singleton.mpr ?_⟩
    · exact List.mem_cons_of_mem _ (h.followed e he d' hd' hdir')
    · intro d' hd' _
      rw [hd, Except.ok.injEq] at hd'
      exact hd' ▸ List.mem_cons_self
  all := by
    have hall := h.all
    rw [List.flatMap_cons, Tier.pending, List.map_cons, List.cons_append] at hall
    have hmove := List.perm_append_comm_assoc (given.map v.spot ++ [t.place ++ [name]]) (v.childPlaces d)
      (ahead.map (t.place ++ [·]) ++ outer.flatMap Tier.pending)
    rw [List.append_assoc _ _ (_ ++ _), List.append_assoc _ [_]] at hmove
    rw [List.map_append, List.map_singleton, hmet.spot hs, List.flatMap_cons, List.flatMap_cons, List.flatMap_cons,
      List.append_assoc]
    exact hmove.trans (hall.append_left _)

end Read

theorem Under.visited (h : Under v start log ⟨outer, real, given⟩) (hs : v.Sound) (hd : v.isDirectory d) :
    (real.map Place.path).contains d.path ↔ d ∈ real := by
  rw [List.contains_iff_mem, List.mem_map]
  constructor
  · rintro ⟨d', hmem, he⟩
    have hd' := (h.connected d' hmem).2
    have hne {d : Place} (hd : v.isDirectory d) : ¬ v.Vacant d :=
      not_vacant_of_isDirectory hd
    exact path_injective hs (hne hd') (hne hd) he ▸ hmem
  · exact fun hmem => ⟨d, hmem, rfl⟩

end Course

/-! ## What is entered -/

/-- A path leads to a directory. -/
def Volume.Opens (v : Volume) (p : Path) (d : Place) : Prop := v.reach true p = .ok d ∧ v.isDirectory d

section Enters

variable {place d : Place} {name : Name} {object : Object}

theorem isDirectory_entry_iff {q : Path} (hr : v.reach true p = .ok d) (ho : v.object? d = some object) :
    (object.entry q).isDirectory ↔ ∃ d, v.Opens p d := by
  rw [@Directory.isDirectory_of_type _ object rfl]
  constructor
  · exact fun hc => ⟨d, hr, isDirectory_iff.mpr ⟨object, ho, hc⟩⟩
  · rintro ⟨d', hr', hdir⟩
    rw [hr, Except.ok.injEq] at hr'
    subst hr'
    exact passable_of_isDirectory hdir object ho

theorem opens_join (hs : v.Sound) (hr : v.reach true p = .ok place) (hd : v.isDirectory place)
    (ho : v.object? (place ++ [name]) = some object) (hl : ¬ (object.entry (p.join name)).isSymlink) :
    (object.entry (p.join name)).isDirectory ↔ ∃ d, v.Opens (p.join name) d := by
  have hlink : ∀ target, object.content ≠ .symlink target := by
    rintro target hc
    exact hl (by rw [Entry.isSymlink, Object.entry, hc]; rfl)
  exact isDirectory_entry_iff (reach_join_unlinked hs hr hd ho hlink) ho

/-- Whether an entry leads to a directory is found out, and nothing is changed. -/
theorem apply_leads (log : List Deed) (w : Walk (Nat × Stream)) (hs : v.Sound)
    (hr : v.reach true p = .ok place) (hd : v.isDirectory place)
    (ho : v.object? (place ++ [name]) = some object) :
    ∃ leads : Bool, (leads ↔ ∃ d, v.Opens (p.join name) d) ∧
      (if (object.entry (p.join name)).isSymlink then
        Walk.lift ((platform.recorded.stat (p.join name)).succeeds Entry.isDirectory)
        else pure (object.entry (p.join name)).isDirectory).apply ((v, log), w) = (.ok leads, ((v, log), w)) := by
  by_cases hl : (object.entry (p.join name)).isSymlink
  case neg =>
    refine ⟨(object.entry (p.join name)).isDirectory, opens_join hs hr hd ho hl, ?_⟩
    rw [if_neg hl]
    rfl
  rw [if_pos hl]
  have hrun : (platform.recorded.stat (p.join name)).apply (v, log) =
      ((v.stat true (p.join name)).mapError (.system (.stat (p.join name))), (v, log)) :=
    apply_noting (apply_stat (p.join name))
  cases hstat : v.stat true (p.join name) with
  | ok found =>
    obtain ⟨d, object', hreach, ho', rfl⟩ := stat_eq_ok.mp hstat
    rw [hstat] at hrun
    exact ⟨_, isDirectory_entry_iff hreach ho', Walk.apply_lift (Action.apply_succeeds hrun)⟩
  | error e =>
    rw [hstat] at hrun
    refine ⟨false, ?_, Walk.apply_lift (Action.apply_not_succeeds hrun)⟩
    refine ⟨fun h => absurd h Bool.false_ne_true, fun ⟨d, hreach, hdir⟩ => ?_⟩
    obtain ⟨object', ho', -⟩ := isDirectory_iff.mp hdir
    rw [stat_eq_ok.mpr ⟨d, object', hreach, ho', rfl⟩] at hstat
    exact absurd hstat (by simp)

/-- An entry is entered if it leads to a directory that was not visited. -/
theorem apply_enters (log : List Deed) (w : Walk (Nat × Stream)) (hr : options.recursive)
    (hf : options.followSymlinks) (hs : v.Sound)
    (hreach : v.reach true p = .ok place) (hd : v.isDirectory place)
    (ho : v.object? (place ++ [name]) = some object) :
    (∃ d, v.Opens (p.join name) d ∧ ¬ w.visited.contains d.path ∧
      (Walk.enters platform.recorded options (object.entry (p.join name))).apply ((v, log), w) =
        (.ok true, ((v, log), { w with visited := d.path :: w.visited }))) ∨
    (∀ d, v.Opens (p.join name) d → w.visited.contains d.path) ∧
      (Walk.enters platform.recorded options (object.entry (p.join name))).apply ((v, log), w) =
        (.ok false, ((v, log), w)) := by
  obtain ⟨leads, hleads, hrun⟩ := apply_leads log w hs hreach hd ho
  rw [Walk.enters_of_follow hr hf]
  cases leads with
  | false =>
    refine .inr ⟨fun d hopens => absurd (hleads.mpr ⟨d, hopens⟩) Bool.false_ne_true, ?_⟩
    exact apply_bind_ok hrun
  | true =>
    obtain ⟨d, hopens⟩ := hleads.mp rfl
    have hreal : (platform.recorded.realpath (p.join name)).apply (v, log) = (.ok d.path, (v, log)) :=
      apply_noting (apply_realpath hopens.1 hopens.2)
    have hvisit := apply_bind_ok (f := Walk.visit) (Walk.apply_lift (w := w) hreal)
    have hstep := apply_bind_ok (f := fun leads => if !leads then pure false else
      Walk.lift (platform.recorded.realpath (p.join name)) >>= Walk.visit) hrun
    by_cases hin : w.visited.contains d.path
    · refine .inr ⟨fun d' hopens' => ?_, hstep.trans (hvisit.trans (if_pos hin))⟩
      have hd' := hopens.1.symm.trans hopens'.1
      rw [Except.ok.injEq] at hd'
      exact hd' ▸ hin
    · exact .inl ⟨d, hopens, hin, hstep.trans (hvisit.trans (if_neg hin))⟩

end Enters

/-! ## Steps and runs -/

theorem Deed.openings_append (log log' : List Deed) :
    Deed.openings (log ++ log') = Deed.openings log ++ Deed.openings log' := List.filterMap_append

section Steps

/-- A computation gives the next entry, or tells that there is none, and takes a walk from a course to a
further one. -/
def Course.Goes (v : Volume) (options : WalkOptions) (start : Place) (c : Course) (log : List Deed)
    (a : Walking (Volume × List Deed) (Nat × Stream) (Option Entry)) : Prop :=
  ∃ (next? : Option Entry) (c' : Course) (log' : List Deed), c'.Under v start log' ∧
    c'.given = c.given ++ next?.toList ∧ (next? = none → c'.tiers = []) ∧
    a.apply ((v, log), c.walk options) = (.ok next?, ((v, log'), c'.walk options))

variable (hs : v.Sound) (hr : options.recursive) (hf : options.followSymlinks)
  (hx : ∀ entry, options.excludes entry = false) (hg : ∀ entry, options.gives entry = true)

include hs hr hf hx hg

open Course in
/-- An entry is read, given, and entered if it leads to a directory that was not opened yet. -/
theorem goes_entry {id : Nat} {q : Path} {place : Place} {name : Name} {ahead : List Name} {outer : List Tier}
    {real : List Place} {given : List Entry}
    (h : Under v start log ⟨⟨id, q, place, name :: ahead⟩ :: outer, real, given⟩) :
    Goes v options start ⟨⟨id, q, place, name :: ahead⟩ :: outer, real, given⟩ log
      (Walk.advance platform.recorded (steps + 1)) := by
  have ht := h.tiers _ List.mem_cons_self
  have hname : name ∈ v.names place := ht.ahead name List.mem_cons_self
  obtain ⟨object, ho⟩ := hs.isSome_object? (mem_names.mp hname)
  set entry := object.entry (q.join name)
  have hmet : v.Met entry q place name := ⟨ht.reach, ht.directory, object, ho, rfl⟩
  have hread : (platform.recorded.readdir (id, ⟨q, name :: ahead⟩)).apply (v, log) =
      (.ok (some (entry, (id, ⟨q, ahead⟩))), (v, log ++ [.read id])) :=
    apply_bind_ok (apply_noting (apply_readdir hs ht.reach ht.directory ho))
  let before := walk options ⟨⟨id, q, place, name :: ahead⟩ :: outer, real, given⟩
  have hexcludes : ¬ options.excludes entry := by
    rw [hx]
    exact Bool.false_ne_true
  have hlog : Deed.openings (log ++ [.read id]) = Deed.openings log := by
    rw [Deed.openings_append]
    exact List.append_nil _
  obtain ⟨d, hopens, hnew, henters⟩ | ⟨hold, henters⟩ := apply_enters (log ++ [.read id])
    (walk options ⟨⟨id, q, place, ahead⟩ :: outer, real, given⟩) hr hf hs ht.reach ht.directory ho
  · have hopen : (platform.recorded.opendir entry.path).apply (v, log ++ [.read id]) =
        (.ok (Deed.count (log ++ [.read id]), ⟨entry.path, v.names d⟩),
          (v, log ++ [.read id] ++ [.opened (Deed.count (log ++ [.read id])) entry.path])) :=
      apply_opendir_ok (apply_opendir hopens.1 hopens.2)
    have hnew' : d ∉ real := fun hmem => hnew ((h.visited hs hopens.2).mpr hmem)
    have hlog' : Deed.openings (log ++ [.read id] ++ [.opened (Deed.count (log ++ [.read id])) entry.path]) =
        Deed.openings log ++ [entry.path] := by
      rw [Deed.openings_append, hlog]
      rfl
    have hend := Under.enter (t := ⟨id, q, place, ahead⟩) hs h hmet (Deed.count (log ++ [.read id])) hopens.1
      hopens.2 hnew' hlog'
    have hrun := Walk.advance_below (n := steps) (w := before) rfl hread hexcludes henters hopen
    exact ⟨some entry, _, _, hend, rfl, fun h => absurd h (Option.some_ne_none _), hrun.trans (if_pos (hg entry))⟩
  · have hend := Under.pass (t := ⟨id, q, place, ahead⟩) hs h hmet
      (fun d hd hdir => (h.visited hs hdir).mp (hold d ⟨hd, hdir⟩)) hlog
    have hrun := Walk.advance_beside (n := steps) (w := before) rfl hread hexcludes henters
    exact ⟨some entry, _, _, hend, rfl, fun h => absurd h (Option.some_ne_none _), hrun.trans (if_pos (hg entry))⟩

end Steps

end Bytework
