import Bytework.Proofs.Directory.Endless
import Bytework.Proofs.Volume.Gained

/-!
# What making a directory makes

A directory is made with all its parents, or nothing is made at all. The parents are looked at from the path
upwards until there is a directory; from there on downwards they are made. Only the first of them can stand in the
way, for what is below a new directory is vacant.

* `Obstructs`: a path that names something and leads to no directory.
* `Made`: a volume after the directories of a path have been made; `Made.mkdir`: one name more.
* `makeMissing_ends`: the run of all of them.
* **`create_made_or_obstructed`**: all is made, or nothing has changed and an obstruction is named.
-/

namespace Bytework

open Bytework.Action Directory

namespace Volume

variable {v v' : Volume} {follow : Bool} {place w : Place} {name : Name} {p q : Path} {mode : Nat} {e : Errno}

/-! ## Paths to start from -/

/-- A path starts at the root, or at a working directory. -/
def Based (v : Volume) (p : Path) : Prop :=
  p.isAbsolute ∨ ∃ base, v.workingPlace = .ok base ∧ v.isDirectory base

/-- A path without names leads to where it starts. -/
theorem Based.reach (h : v.Based p) (hs : v.Sound) (hp : p ≠ []) (hn : p.names = []) :
    ∃ place, v.reach follow p = .ok place ∧ v.isDirectory place := by
  have hempty := List.isEmpty_eq_false_iff.mpr hp
  have hfrom (base : Place) : v.reachFrom base follow p = .ok (origin base p) := by
    rw [reachFrom_of_asks (asks_of_names_eq_nil hn), along, hempty, hn]
    simp [travel, stride, Stop.arrival]
  cases ha : p.isAbsolute with
  | true =>
    refine ⟨[], ?_, hs.root⟩
    rw [reach_eq, baseOf, ha, Bool.true_or, if_pos rfl]
    exact (hfrom []).trans (by rw [origin, if_pos ha])
  | false =>
    obtain ⟨base, hwork, hd⟩ := h.resolve_left (by simp [ha])
    refine ⟨base, ?_, hd⟩
    rw [reach_eq, baseOf, ha, hempty, Bool.or_false, if_neg Bool.false_ne_true, hwork]
    exact (hfrom base).trans (by rw [origin, ha, if_neg Bool.false_ne_true])

theorem mkdir_congr (hnames : q.names = p.names) (ha : q.isAbsolute = p.isAbsolute) (he : q.isEmpty = p.isEmpty)
    (hq : v.asks q → q.endsInDot = false) (hp : v.asks p → p.endsInDot = false) :
    v.mkdir q mode = v.mkdir p mode := by
  rw [Volume.mkdir, Volume.mkdir, Volume.vacant, Volume.vacant, seat_congr hnames ha he hq hp, endsInName_eq hq,
    endsInName_eq hp, Path.hasLastName, Path.hasLastName, hnames]

/-- No directory is made behind a dot. -/
theorem mkdir_of_endsInDot (ha : v.asks p) (hdot : p.endsInDot) (hstat : v.stat true p = .error e) (mode : Nat) :
    ∃ e, v.mkdir p mode = .error e := by
  have hseat : v.seat p = v.reach false p := if_pos (by rw [ha, hdot]; rfl)
  cases hreach : v.reach false p with
  | error e' =>
    refine ⟨e', ?_⟩
    rw [Volume.mkdir, Volume.vacant, hseat, hreach]
    rfl
  | ok place =>
    -- a path that asks for a directory is followed in either way
    obtain ⟨base, hbase, halong, hsettles⟩ := reach_eq_ok.mp hreach
    have hfollows : v.follows false p = v.follows true p := by rw [follows, ha, follows_true, Bool.or_true]
    have hreach' : v.reach true p = .ok place := reach_eq_ok.mpr ⟨base, hbase, hfollows ▸ halong, hsettles⟩
    have hd := (hsettles ha).resolve_right fun hnone => by simp [hdot] at hnone
    obtain ⟨object, ho, -⟩ := isDirectory_iff.mp hd
    rw [stat_eq_ok.mpr ⟨place, object, hreach', ho, rfl⟩] at hstat
    exact absurd hstat (by simp)

theorem mkdir_join_stands (hs : v.Sound) (hr : v.reach true p = .ok place) (hd : v.isDirectory place)
    (hstands : ¬ v.Vacant (place ++ [name])) (mode : Nat) : v.mkdir (p.join name) mode = .error .entryExists := by
  obtain ⟨object, ho⟩ := hs.isSome_object? (Option.isSome_iff_ne_none.mpr hstands)
  rw [Volume.mkdir, Volume.vacant, seat_join (hs.plain (Option.isSome_iff_ne_none.mpr hstands)), reach_join hs hr hd ho]
  simp [ho, bind, Except.bind, throw, throwThe, MonadExceptOf.throw]

/-! ## What stands in the way -/

/-- A path names something, and leads to no directory. -/
def Obstructs (v : Volume) (p : Path) : Prop :=
  v.Found p ∧ ∀ place, v.reach true p = .ok place → ¬ v.isDirectory place

theorem obstructs_of_stat {entry : Entry} (h : v.stat true p = .ok entry) (hd : ¬ entry.isDirectory) (hs : v.Sound) :
    v.Obstructs p := by
  obtain ⟨goal, object, hr, ho, rfl⟩ := stat_eq_ok.mp h
  obtain ⟨place, hr'⟩ := reach_unfollowed hr
  have hstands : ¬ v.Vacant place := by
    intro hv
    have hr'' := reach_followed hs hr' fun _ hl => hl.not_passable (hs.passable_iff.mpr (.inl hv))
    obtain rfl := Except.ok.inj (hr.symm.trans hr'')
    exact not_vacant_of_object? ho hv
  obtain ⟨object', ho'⟩ := hs.isSome_object? (Option.isSome_iff_ne_none.mpr hstands)
  refine ⟨found_iff.mpr ⟨place, object', hr', ho'⟩, fun place' hr'' hd' => hd ?_⟩
  obtain rfl := Except.ok.inj (hr.symm.trans hr'')
  exact (isDirectory_of_type rfl).mpr (passable_of_isDirectory hd' object ho)

/-- A path has the names of another one, and one more. -/
structure Follows (p : Path) (name : Name) (q : Path) : Prop where
  names : q.names = p.names ++ [name]
  isAbsolute : q.isAbsolute = p.isAbsolute
  plain : Path.IsPlain name

namespace Follows

variable (h : Follows p name q)

include h

theorem isEmpty : q.isEmpty = (p.join name).isEmpty := by
  rw [Path.isEmpty_join h.plain, List.isEmpty_eq_false_iff]
  rintro rfl
  exact absurd h.names (by simp [Path.names_nil])

theorem names_eq_join : q.names = (p.join name).names := h.names.trans (Path.names_join h.plain).symm

theorem isAbsolute_eq_join : q.isAbsolute = (p.join name).isAbsolute :=
  h.isAbsolute.trans (Path.isAbsolute_join h.plain).symm

theorem reach_iff_join (hd : v.isDirectory place) :
    v.reach true q = .ok place ↔ v.reach true (p.join name) = .ok place :=
  ⟨fun hr => reach_congr_of_isDirectory h.names_eq_join.symm h.isAbsolute_eq_join.symm h.isEmpty.symm hr hd,
    fun hr => reach_congr_of_isDirectory h.names_eq_join h.isAbsolute_eq_join h.isEmpty hr hd⟩

theorem mkdir_eq_join (hq : v.asks q → q.endsInDot = false) : v.mkdir q mode = v.mkdir (p.join name) mode :=
  mkdir_congr h.names_eq_join h.isAbsolute_eq_join h.isEmpty hq fun _ => Path.endsInDot_join h.plain

theorem found_join (hs : v.Sound) (hq : v.Found q) : v.Found (p.join name) := by
  obtain ⟨goal, object, hr, ho⟩ := found_iff.mp hq
  obtain ⟨place, hr', hstands⟩ := exists_reach_of_names hs h.names_eq_join.symm h.isAbsolute_eq_join.symm
    h.isEmpty.symm (asks_join h.plain) hr (not_vacant_of_object? ho)
  obtain ⟨object', ho'⟩ := hs.isSome_object? (Option.isSome_iff_ne_none.mpr hstands)
  exact found_iff.mpr ⟨place, object', hr', ho'⟩

theorem trimmed : Follows p name q.trimmed :=
  ⟨(Path.names_trimmed q).trans h.names, (Path.isAbsolute_trimmed q).trans h.isAbsolute, h.plain⟩

theorem leading : Leading p q := ⟨h.names ▸ List.prefix_append _ _, h.isAbsolute.symm⟩

theorem leading_or {r : Path} (hr : Leading r q) : Follows p name r ∨ Leading r p := by
  rcases List.prefix_concat_iff.mp (h.names ▸ hr.names) with he | hpre
  · exact .inl ⟨he, hr.absolute.trans h.isAbsolute, h.plain⟩
  · exact .inr ⟨hpre, hr.absolute.trans h.isAbsolute⟩

/-- Where something stands and no directory is found, none can be made. -/
theorem obstructs (hs : v.Sound) (hr : v.reach true p = .ok place) (hd : v.isDirectory place)
    (hstands : ¬ v.Vacant (place ++ [name])) (hstat : v.stat true q = .error e) (mode : Nat) :
    v.Obstructs (p.join name) ∧ ∃ e, v.mkdir q mode = .error e ∧ (e = .entryExists ∨ q.endsInDot) := by
  refine ⟨⟨(found_join_iff hs hr hd h.plain).mpr hstands, fun goal hgoal hdir => ?_⟩, ?_⟩
  · obtain ⟨object, ho, -⟩ := isDirectory_iff.mp hdir
    rw [stat_eq_ok.mpr ⟨goal, object, (h.reach_iff_join hdir).mpr hgoal, ho, rfl⟩] at hstat
    exact absurd hstat (by simp)
  · by_cases hdot : v.asks q ∧ q.endsInDot
    · obtain ⟨e', he⟩ := mkdir_of_endsInDot hdot.1 hdot.2 hstat mode
      exact ⟨e', he, .inr hdot.2⟩
    · have hq : v.asks q → q.endsInDot = false := fun ha => by simpa [ha] using hdot
      exact ⟨_, (h.mkdir_eq_join hq).trans (mkdir_join_stands hs hr hd hstands mode), .inl rfl⟩

end Follows

/-! ## What has been made -/

/-- The directory that is made at a place: it has the mode that is asked for without the bits of the mask, and what
the directory around it hands on. -/
def newDirectory (v : Volume) (place : Place) (mode : Nat) : Object :=
  v.adopt place (.new .directory (v.grantedMode mode))

@[simp] theorem content_newDirectory (v : Volume) (place : Place) (mode : Nat) :
    (v.newDirectory place mode).content = .directory := content_adopt v place _

theorem Gains.newDirectory_eq (h : Gains v v') (hw : ¬ v.Vacant w.dropLast) :
    v'.newDirectory w mode = v.newDirectory w mode := by
  rw [newDirectory, newDirectory, adopt, adopt, grantedMode, grantedMode, h.rules, h.object _ hw]

theorem not_vacant_dropLast (hw : ¬ v.Vacant w) : ¬ v.Vacant w.dropLast := fun hv => hw (vacant_of_dropLast hv)

/-- A volume after the directories of a path have been made: the path is a directory, what has come are
directories that the path passes, and the rest is as it was. Nothing stood in the way. -/
structure Made (v : Volume) (p : Path) (place : Place) (v' : Volume) : Prop extends Gains v v' where
  reach : v'.reach true p = .ok place
  directory : v'.isDirectory place
  new : ∀ w, v.Vacant w → v'.Vacant w ∨
    v'.object? w = some (v'.newDirectory w directoryMode) ∧ ∃ q, Leading q p ∧ v'.reach true q = .ok w
  free : ∀ q, Leading q p → ¬ v.Obstructs q

namespace Made

theorem refl (hs : v.Sound) (hr : v.reach true p = .ok place) (hd : v.isDirectory place) : Made v p place v where
  toGains := .refl v
  reach := hr
  directory := hd
  new _ hv := .inl hv
  free q hq hobstructs := by
    obtain ⟨⟨more, hmore⟩, ha⟩ := hq
    obtain ⟨_, _, hreach, -⟩ := found_iff.mp hobstructs.1
    have hne : q ≠ [] := by
      rintro rfl
      exact absurd (isEmpty_of_reach hreach) (by simp)
    obtain ⟨goal, hgoal, hdir⟩ := reach_initial hs hmore.symm ha hne hr hd
    exact hobstructs.2 goal hgoal hdir

theorem congr (h : Made v p place v') (hnames : q.names = p.names) (ha : q.isAbsolute = p.isAbsolute)
    (he : q.isEmpty = p.isEmpty) : Made v q place v' where
  toGains := h.toGains
  reach := reach_congr_of_isDirectory hnames ha he h.reach h.directory
  directory := h.directory
  new w hv := (h.new w hv).imp_right fun ⟨ho, r, hr, hreach⟩ =>
    ⟨ho, r, ⟨hnames ▸ hr.names, hr.absolute.trans ha.symm⟩, hreach⟩
  free r hr := h.free r ⟨hnames ▸ hr.names, hr.absolute.trans ha⟩

/-- In a directory that has been made, one more is made under a name at which nothing stands; nothing is in it. -/
theorem mkdir (h : Made v p place v') (hs : v.Sound) (hq : Follows p name q) (hdot : v'.asks q → q.endsInDot = false)
    (hv : v'.Vacant (place ++ [name])) :
    ∃ v'', v'.mkdir q directoryMode = .ok v'' ∧ Made v q (place ++ [name]) v'' ∧
      ∀ next, v''.Vacant (place ++ [name] ++ [next]) := by
  have hs' := h.sound hs
  have hstands := isSome_number?_of_isDirectory h.directory
  obtain ⟨v'', hv''⟩ : ∃ v'', v'' = v'.create (place ++ [name]) (v'.newDirectory (place ++ [name]) directoryMode) :=
    ⟨_, rfl⟩
  have hmk : v'.mkdir q directoryMode = .ok v'' := by
    rw [hq.mkdir_eq_join hdot, mkdir_join_vacant hs' h.reach h.directory hq.plain hv, hv'', newDirectory]
  have hnumber (w : Place) : v''.number? w =
      if w = place ++ [name] then some v'.objects.size else v'.number? w := by
    rw [hv'', number?_create hstands hv w]
  have hobject (w : Place) : v''.object? w =
      if w = place ++ [name] then some (v'.newDirectory (place ++ [name]) directoryMode) else v'.object? w := by
    rw [hv'', object?_create hs' hstands hv w]
  have hgains : Gains v' v'' := hv'' ▸ gains_create hs' h.directory hv hq.plain
  have ho : v''.object? (place ++ [name]) = some (v''.newDirectory (place ++ [name]) directoryMode) := by
    rw [hobject, if_pos rfl, hgains.newDirectory_eq]
    rw [List.dropLast_concat]
    exact not_vacant_of_isDirectory h.directory
  have hd : v''.isDirectory (place ++ [name]) := isDirectory_iff.mpr ⟨_, ho, content_newDirectory _ _ _⟩
  have hreach : v''.reach true q = .ok (place ++ [name]) := by
    refine (hq.reach_iff_join hd).mpr (reach_join_unlinked (hgains.sound hs') ?_ (hgains.isDirectory h.directory) ho
      fun target => by simp)
    exact hgains.reach hs' h.reach (not_vacant_of_isDirectory h.directory)
  refine ⟨v'', hmk, ⟨h.toGains.trans hgains, hreach, hd, fun w hw => ?_, fun r hr => ?_⟩, fun next => ?_⟩
  · by_cases he : w = place ++ [name]
    · subst he
      exact .inr ⟨ho, q, .refl q, hreach⟩
    · rcases h.new w hw with hv' | ⟨ho', r, hr, hreach'⟩
      · exact .inl ((hnumber w).trans ((if_neg he).trans hv'))
      · have hw' := not_vacant_of_object? ho'
        rw [← hgains.newDirectory_eq (not_vacant_dropLast hw')] at ho'
        exact .inr ⟨(hobject w).trans ((if_neg he).trans ho'), r, hr.trans hq.leading, hgains.reach hs' hreach' hw'⟩
  -- the new name is no obstruction, for nothing was found there before
  · rcases hq.leading_or hr with hr | hr
    · intro hobstructs
      have hfound := hr.found_join hs' (h.found hs hobstructs.1)
      exact (found_join_iff hs' h.reach h.directory hq.plain).mp hfound hv
    · exact h.free r hr
  · rw [Vacant, hnumber, if_neg fun he => by simpa using congrArg List.length he]
    exact number?_append_eq_none [next] hv

end Made

end Volume

namespace Directory

open Volume

variable {v v' : Volume} {place : Place} {name : Name} {p q : Path} {e : Errno} {n : Nat}

/-! ## One directory -/

theorem apply_mkdir (p : Path) (mode : Nat) : (platform.mkdir p mode).apply v =
    match v.mkdir p mode with
    | .ok v' => (.ok (), v')
    | .error e => (.error (.system (.mkdir p) e), v) := by
  show (update (.mkdir p) fun v => v.mkdir p mode).apply v = _
  rw [update, perform, apply_of]
  cases v.mkdir p mode <;> rfl

theorem apply_makeOne_ok (h : v.mkdir p directoryMode = .ok v') :
    (makeOne platform p).apply v = (.ok (), v') := by
  have hmk : (platform.mkdir p directoryMode).apply v = (.ok (), v') := by rw [apply_mkdir, h]
  exact (apply_bind_ok (apply_outcome hmk)).trans rfl

theorem apply_makeOne_error {e' : Errno} (h : v.mkdir p directoryMode = .error e) (hstat : v.stat true p = .error e') :
    (makeOne platform p).apply v = (.error (.system (.mkdir p) e), v) := by
  have hmk : (platform.mkdir p directoryMode).apply v = (.error (.system (.mkdir p) e), v) := by rw [apply_mkdir, h]
  have hfound : (platform.stat p).apply v = (.error (.system (.stat p) e'), v) := by
    rw [apply_stat, hstat]
    rfl
  have hno : (isDirectory platform p).apply v = (.ok false, v) := apply_not_succeeds hfound
  rw [makeOne, apply_bind_ok (apply_outcome hmk)]
  exact (apply_bind_ok hno).trans rfl

/-! ## All of them -/

/-- Makes the directories that are missing at a path, of which there are at most `n`. -/
def makeMissing (n : Nat) (p : Path) : Action Volume Unit := do
  let ps ← missing platform n p
  makeAll platform ps.reverse

/-- What is missing at a path is made after what is missing at its parent. -/
theorem apply_makeMissing_succ (hp : p ≠ []) (hstat : v.stat true p = .error e) (hparent : p.parent? = some q) :
    (makeMissing (n + 1) p).apply v = (makeMissing n q >>= fun _ => makeOne platform p).apply v := by
  have hfound : (platform.stat p).apply v = (.error (.system (.stat p) e), v) := by
    rw [apply_stat, hstat]
    rfl
  have hmissing : (missing platform (n + 1) p).apply v =
      (missing platform n q >>= fun ps => pure (p :: ps)).apply v := by
    rw [missing, List.isEmpty_eq_false_iff.mpr hp, if_neg Bool.false_ne_true, apply_bind_ok (apply_outcome hfound)]
    simp only [hparent]
  cases hrun : (missing platform n q).apply v with
  | mk r s =>
    cases r with
    | error failure =>
      have hparents : (makeMissing n q).apply v = (.error failure, s) := apply_bind_error hrun
      rw [apply_bind_error hparents]
      exact apply_bind_error (hmissing.trans (apply_bind_error hrun))
    | ok ps =>
      have hall : (makeMissing (n + 1) p).apply v = (makeAll platform (p :: ps).reverse).apply s :=
        apply_bind_ok (hmissing.trans ((apply_bind_ok hrun).trans rfl))
      have hparents : makeMissing n q >>= (fun _ => makeOne platform p) =
          missing platform n q >>= fun ps => makeAll platform ps.reverse >>= fun _ => makeOne platform p :=
        bind_assoc ..
      rw [hall, hparents, apply_bind_ok hrun, makeAll, makeAll, List.reverse_cons, List.forM_eq_forM, List.forM_append]
      simp

/-- A failure names a path at which something stands, by its names at least: that there is no directory, or that
none can be made there. -/
def Names (failure : Failure) (q : Path) : Prop :=
  ∃ r : Path, r.names = q.names ∧ r.isAbsolute = q.isAbsolute ∧
    (failure = .occupied r ∨ ∃ e, failure = .system (.mkdir r) e ∧ (e = .entryExists ∨ r.endsInDot))

/-- The directories of a path could not be made: something stands in the way, and nothing has changed. -/
def Halts (v : Volume) (p : Path) (a : Action Volume Unit) : Prop :=
  ∃ q failure, a.apply v = (.error failure, v) ∧ Leading q p ∧ v.Obstructs q ∧ Names failure q

/-- The directories of a path are there: none was missing, or the last one of them is new and empty. -/
def Completes (v : Volume) (p : Path) (a : Action Volume Unit) : Prop :=
  ∃ place v', a.apply v = (.ok (), v') ∧ (v' = v ∨ ∀ name, v'.Vacant (place ++ [name])) ∧
    ∀ q : Path, q ≠ [] → q.names = p.names → q.isAbsolute = p.isAbsolute → Made v q place v'

theorem completes_of_reach {a : Action Volume Unit} (hs : v.Sound) (hr : v.reach true p = .ok place)
    (hd : v.isDirectory place) (hrun : a.apply v = (.ok (), v)) : Completes v p a := by
  refine ⟨place, v, hrun, .inl rfl, fun q hq hnames ha => ?_⟩
  have hempty : q.isEmpty = p.isEmpty := (List.isEmpty_eq_false_iff.mpr hq).trans (isEmpty_of_reach hr).symm
  exact Made.refl hs (reach_congr_of_isDirectory hnames ha hempty hr hd) hd

/-- Nothing is missing of a path without names. -/
theorem completes_of_nameless {a : Action Volume Unit} (hs : v.Sound) (hb : v.Based p) (hn : p.names = [])
    (hrun : a.apply v = (.ok (), v)) : Completes v p a := by
  have hstart : v.Based (if p.isAbsolute then ['/'] else ['.']) := by
    refine hb.imp_left fun ha => ?_
    rw [if_pos ha]
    rfl
  obtain ⟨place, hreach, hd⟩ := hstart.reach hs (by split <;> simp) (by split <;> rfl)
  obtain ⟨place', v', hrun', hnew, hmade⟩ := completes_of_reach hs hreach hd hrun
  refine ⟨place', v', hrun', hnew, fun q hq hnames ha => hmade q hq (hnames.trans ?_) (ha.trans ?_)⟩
  · rw [hn]
    split <;> rfl
  · split <;> simp_all [Path.isAbsolute]

/-- One name more is made, or is an obstruction. -/
theorem Completes.makeOne {a b : Action Volume Unit} (h : Completes v q a) (hs : v.Sound) (hp : Follows q name p)
    (hdot : v.asks p → p.endsInDot → v.Found p.trimmed) (hstat : v.stat true p = .error e)
    (hrun : b.apply v = (a >>= fun _ => Directory.makeOne platform p).apply v) :
    Halts v p b ∨ Completes v p b := by
  obtain ⟨place, v', ha, hnew, hmade⟩ := h
  obtain ⟨r, hr, hnames, habsolute⟩ : ∃ r : Path, r ≠ [] ∧ r.names = q.names ∧ r.isAbsolute = q.isAbsolute := by
    by_cases hq : q = []
    · subst hq
      exact ⟨['.'], by simp, rfl, rfl⟩
    · exact ⟨q, hq, rfl, rfl⟩
  have hmade := hmade r hr hnames habsolute
  have hp : Follows r name p := ⟨hp.names.trans (by rw [hnames]), hp.isAbsolute.trans habsolute.symm, hp.plain⟩
  rw [apply_bind_ok ha] at hrun
  by_cases hv : v'.Vacant (place ++ [name])
  · have hdot' : v'.asks p → p.endsInDot = false := by
      intro hasks
      rw [Bool.eq_false_iff]
      intro hends
      have hasks' : v.asks p := by rwa [asks, hmade.rules, ← asks] at hasks
      have hfound := hp.trimmed.found_join (hmade.sound hs) (hmade.found hs (hdot hasks' hends))
      exact (found_join_iff (hmade.sound hs) hmade.reach hmade.directory hp.plain).mp hfound hv
    obtain ⟨v'', hmk, hmade', hempty⟩ := hmade.mkdir hs hp hdot' hv
    refine .inr ⟨_, v'', hrun.trans (apply_makeOne_ok hmk), .inr hempty, fun p' hp' hnames' ha' => ?_⟩
    exact hmade'.congr hnames' ha' ((List.isEmpty_eq_false_iff.mpr hp').trans (isEmpty_of_reach hmade'.reach).symm)
  · obtain rfl := hnew.resolve_right fun hall => hv (hall name)
    obtain ⟨hobstructs, e', hmk, he'⟩ := hp.obstructs hs hmade.reach hmade.directory hv hstat directoryMode
    refine .inl ⟨r.join name, _, hrun.trans (apply_makeOne_error hmk hstat), ?_, hobstructs, p, hp.names_eq_join,
      hp.isAbsolute_eq_join, .inr ⟨e', rfl, he'⟩⟩
    exact ⟨hp.names_eq_join ▸ List.prefix_refl _, hp.isAbsolute_eq_join.symm⟩

/-- The directories of a path are made from the first missing one on, or that one is an obstruction. -/
theorem makeMissing_ends (hs : v.Sound) (hb : v.Based p) (hup : Path.up ∉ p.names)
    (hdot : v.asks p → p.endsInDot → v.Found p.trimmed) (hn : p.names.length ≤ n) :
    Halts v p (makeMissing n p) ∨ Completes v p (makeMissing n p) := by
  induction n generalizing p with
  | zero => exact .inr (completes_of_nameless hs hb (List.length_eq_zero_iff.mp (Nat.le_zero.mp hn)) rfl)
  | succ n ih =>
    by_cases hp : p = []
    · subst hp
      exact .inr (completes_of_nameless hs hb rfl rfl)
    · have hempty := List.isEmpty_eq_false_iff.mpr hp
      cases hstat : v.stat true p with
      | ok entry =>
        by_cases hd : entry.isDirectory
        case pos =>
          obtain ⟨goal, object, hreach, ho, rfl⟩ := stat_eq_ok.mp hstat
          have hdir := isDirectory_iff.mpr ⟨object, ho, (isDirectory_of_type rfl).mp hd⟩
          exact .inr (completes_of_reach hs hreach hdir (apply_bind_ok (apply_missing hreach hdir _)))
        case neg =>
          have hfound : (platform.stat p).apply v = (.ok entry, v) := by
            rw [apply_stat, hstat]
            rfl
          have hmissing : (missing platform (n + 1) p).apply v = (.error (.occupied p), v) := by
            rw [missing, hempty, if_neg Bool.false_ne_true, apply_bind_ok (apply_outcome hfound)]
            simp only [hd]
            rfl
          exact .inl ⟨p, _, apply_bind_error hmissing, .refl p, obstructs_of_stat hstat hd hs, p, rfl, rfl, .inl rfl⟩
      | error e =>
        have hnames : p.names ≠ [] := by
          intro he
          obtain ⟨place, hreach, hd⟩ := hb.reach hs hp he
          obtain ⟨object, ho, -⟩ := isDirectory_iff.mp hd
          rw [stat_eq_ok.mpr ⟨place, object, hreach, ho, rfl⟩] at hstat
          exact absurd hstat (by simp)
        cases hparent : p.parent? with
        | none => exact absurd (Path.names_eq_nil_of_parent? hparent) hnames
        | some q =>
          obtain ⟨init, name, hconcat⟩ := (List.eq_nil_or_concat p.names).resolve_left hnames
          rw [List.concat_eq_append] at hconcat
          have hq := Path.names_eq_of_parent? hparent
          rw [hconcat, List.dropLast_concat] at hq
          have habsolute := (Path.names_of_parent? hparent).2
          have hfollows : Follows q name p := by
            refine ⟨by rw [hconcat, hq], habsolute.symm, Path.isPlain_of_mem_names (p := p) (by simp [hconcat]) ?_⟩
            rintro rfl
            exact hup (by simp [hconcat])
          have hrun := apply_makeMissing_succ (n := n) hp hstat hparent
          have hup' : Path.up ∉ q.names := fun hmem => hup (by rw [hconcat]; exact List.mem_append_left _ (hq ▸ hmem))
          have hlength : q.names.length ≤ n := by
            rw [hconcat, ← hq, List.length_append] at hn
            simpa using hn
          have hbased : v.Based q := by rwa [Based, habsolute]
          have hasks : ¬ v.asks q := by rw [asks, Path.asksDirectory_of_parent? hparent, Bool.and_false]; simp
          rcases ih hbased hup' (fun ha => absurd ha hasks) hlength with hhalts | hcompletes
          · obtain ⟨r, failure, herror, hr, hobstructs, hfailure⟩ := hhalts
            exact .inl ⟨r, failure, hrun.trans (apply_bind_error herror), hr.trans hfollows.leading, hobstructs,
              hfailure⟩
          · exact hcompletes.makeOne hs hfollows hdot hstat hrun

/-- A path without double dots becomes a directory with all its parents, and then nothing more is to be made; or one
of the paths to it exists, leads to no directory and is named by the failure, and nothing has changed. By the POSIX
rules a path may end in a dot only behind a name that is there. -/
theorem create_made_or_obstructed (hs : v.Sound) (hp : p ≠ []) (hup : Path.up ∉ p.names) (hb : v.Based p)
    (hdot : v.asks p → p.endsInDot → v.Found p.trimmed) :
    (∃ place v', (create platform p).apply v = (.ok (), v') ∧ Made v p place v' ∧
        (isDirectory platform p).apply v' = (.ok true, v') ∧ (create platform p).apply v' = (.ok (), v')) ∨
      Halts v p (create platform p) := by
  have hcreate : create platform p = makeMissing p.length p := by
    rw [create, List.isEmpty_eq_false_iff.mpr hp, if_neg Bool.false_ne_true]
    rfl
  rw [hcreate]
  rcases makeMissing_ends hs hb hup hdot (Path.length_names_le p) with hhalts | ⟨place, v', hrun, -, hmade⟩
  · exact .inr hhalts
  · have hmade := hmade p hp rfl rfl
    obtain ⟨entry, hdir, hstat⟩ := apply_stat_directory hmade.reach hmade.directory
    refine .inl ⟨place, v', hrun, hmade, ?_, ?_⟩
    · rw [← hdir]
      exact apply_succeeds hstat
    · rw [← hcreate]
      exact apply_create hmade.reach hmade.directory

/-- A directory with the setgid bit, and a link that leads nowhere. -/
def furnished : Volume :=
  (grown [(placeOf ["a"], .directory), (placeOf ["l"], .symlink "/gone".toList)]).alter (placeOf ["a"])
    fun object => { object with attributes := { object.attributes with mode := 0o2755 } }

theorem sound_furnished : furnished.Sound := (sound_grown (by decide +kernel)).alter fun _ => rfl

theorem create_made_or_obstructed_furnished :
    (∃ place v', (create platform "/a/b//c/".toList).apply furnished = (.ok (), v') ∧
        Made furnished "/a/b//c/".toList place v' ∧
        (isDirectory platform "/a/b//c/".toList).apply v' = (.ok true, v') ∧
        (create platform "/a/b//c/".toList).apply v' = (.ok (), v')) ∧
      Halts furnished "l/x".toList (create platform "l/x".toList) := by
  have hbased : furnished.Based "l/x".toList := .inr ⟨[], by decide +kernel, sound_furnished.root⟩
  have hmade := create_made_or_obstructed (p := "/a/b//c/".toList) sound_furnished (by decide) (by decide +kernel)
    (.inl (by decide)) fun _ hdot => absurd hdot (by decide)
  have hhalts := create_made_or_obstructed sound_furnished (by decide) (by decide +kernel) hbased
    fun _ hdot => absurd hdot (by decide)
  refine ⟨hmade.resolve_right ?_, hhalts.resolve_left ?_⟩
  · rintro ⟨q, failure, hrun, -⟩
    have hok : ((create platform "/a/b//c/".toList).apply furnished).1 = .ok () := by decide +kernel
    rw [hrun] at hok
    exact absurd hok (by simp)
  · rintro ⟨place, v', hrun, -⟩
    have herror : ((create platform "l/x".toList).apply furnished).1 =
        .error (.system (.mkdir "l".toList) .entryExists) := by decide +kernel
    rw [hrun] at herror
    exact absurd herror (by simp)

/-- The same with a mask that leaves all to the owner. -/
def masked : Volume := { furnished with rules := .posix 0o077 }

/-- The bit of the directory around it and the bits of the mask tell in the mode of a new directory; and where a dot
stands behind a name that is missing, nothing is made though nothing stands in the way. -/
theorem create_furnished_modes :
    (((create platform "/a/b".toList).apply furnished).1 = .ok () ∧
      (((create platform "/a/b".toList).apply furnished).2.object? (placeOf ["a", "b"])).map (·.attributes.mode) =
        some 0o2755) ∧
    (((create platform "/b".toList).apply masked).1 = .ok () ∧
      (((create platform "/b".toList).apply masked).2.object? (placeOf ["b"])).map (·.attributes.mode) =
        some 0o700) ∧
    furnished.isDirectory (placeOf ["a"]) ∧ furnished.number? (placeOf ["a", "b"]) = none ∧
      (create platform "/a/b/.".toList).apply furnished =
        (.error (.system (.mkdir "/a/b/.".toList) .noEntry), furnished) := by
  decide +kernel

end Directory

end Bytework
