import Bytework.Proofs.Directory.Confined
import Bytework.Proofs.Directory.Pruned

/-!
# Directories brought up to date

What `sync` and `mirror` come to when the two directories are apart, and what a failed `sync` leaves.

* `Copyable`: a directory and a place for its copy, with paths that do not lead through the copy.
* **`sync_prunesLast`**: nothing without a counterpart is taken away before all has been copied.
* **`contents_sync_mirror`**: in the end the copy holds what the directory holds.
-/

namespace Bytework

open Bytework.Action Directory

namespace Volume

variable {v v' : Volume} {source target : Path} {origin top w : Place}

/-- A directory, and a place apart from it for its copy, which may be a directory by now. Neither path
leads through the copy, no missing parent of it is to be made in the directory, and both hold only
files, directories and links. -/
structure Copyable (v : Volume) (source : Path) (origin : Place) (target : Path) (top : Place) : Prop where
  sound : v.Sound
  sourceLeads : v.Leads (top <+: ·) false source origin
  targetLeads : v.Leads (top <+: ·) false target top
  directory : v.isDirectory origin
  passable : v.Passable top
  notBelow : ¬ top <+: origin
  notAbove : ¬ origin <+: top
  parents : ∀ w, v.IsParent target w → v.Vacant w → ¬ origin <+: w
  ordinary : ∀ w object, origin <+: w ∨ top <+: w → v.object? w = some object → object.content.Ordinary

/-- No directory stands where something else is to be copied to. -/
def Clashless (v : Volume) (origin top : Place) : Prop :=
  ∀ below, v.isDirectory (top ++ below) → ¬ v.Vacant (origin ++ below) → v.isDirectory (origin ++ below)

theorem Copyable.separate (hc : v.Copyable source origin target top) : v.Separate source origin target top :=
  ⟨hc.sound, hc.sourceLeads, hc.targetLeads, .inl hc.passable, hc.notBelow, hc.notAbove, hc.parents⟩

theorem clashless_of_grown {entries : List (Place × Content)} (h : bare.CanGrow entries)
    (hall : ∀ w ∈ [] :: entries.map (·.1), top <+: w → (grown entries).isDirectory w →
      (grown entries).number? (origin ++ w.drop top.length) = none ∨
        (grown entries).isDirectory (origin ++ w.drop top.length)) : (grown entries).Clashless origin top := by
  intro below hd hstands
  have hmem := mem_of_not_vacant_grown h (not_vacant_of_isDirectory hd)
  have hdir := hall _ hmem (List.prefix_append _ _) hd
  rw [List.drop_left] at hdir
  exact hdir.resolve_left hstands

/-- Two directories under the paths of their places, of which neither is below the other. -/
theorem copyable_of_names {inner inner' : Place} {name name' : Name} (hs : v.Sound)
    (hd : v.isDirectory (inner ++ [name])) (hsource : source.isAbsolute ∧ source.names = inner ++ [name])
    (hd' : v.isDirectory (inner' ++ [name'])) (htarget : target.isAbsolute ∧ target.names = inner' ++ [name'])
    (hup : ∀ n ∈ (inner ++ [name]) ++ (inner' ++ [name']), n ≠ Path.up)
    (hbelow : ¬ inner' ++ [name'] <+: inner ++ [name]) (habove : ¬ inner ++ [name] <+: inner' ++ [name'])
    (hreach : v.reach false target = .ok (inner' ++ [name']))
    (hordinary : ∀ object ∈ v.objects.toList, object.content.Ordinary) :
    v.Copyable source (inner ++ [name]) target (inner' ++ [name']) := by
  have hinner := hs.enclosed (isSome_number?_of_isDirectory hd)
  have hinner' := hs.enclosed (isSome_number?_of_isDirectory hd')
  have hleads : v.Leads (inner' ++ [name'] <+: ·) false target (inner' ++ [name']) := by
    refine leads_of_names hs hinner' htarget.1 (fun _ => hd') htarget.2
      (fun n hn => hup n (List.mem_append_right _ hn)) ?_
    exact fun w hw hshut => not_concat_isPrefix inner' name' (hshut.trans hw)
  have hfirm : Foothold v (fun _ => False) target (inner' ++ [name']) :=
    (Foothold.of_leads (List.concat_ne_nil _ _) hleads).firm hs hreach
  refine ⟨hs, ?_, hleads, hd, passable_of_isDirectory hd', hbelow, habove, fun w hw hv => ?_, fun w object _ ho => ?_⟩
  · refine leads_of_names hs hinner hsource.1 (fun _ => hd) hsource.2 (fun n hn => hup n (List.mem_append_left _ hn)) ?_
    exact fun w hw hshut => hbelow (hshut.trans (hw.trans (List.prefix_append _ _)))
  · exact ((hfirm.of_isParent hw).2 hv).elim
  · exact ordinary_of_objects hordinary ho

end Volume

namespace Directory

open Volume

variable {σ η : Type} {platform : Platform σ η} {view : Reading σ η} {s s' : σ} {made : Place → Prop}
  {full : Bool} {calm : Prop} {top origin : Place} {p source : Path}

theorem Pair.of_copyable (view : Reading σ η) {s : σ} (hc : (view.volume s).Copyable source origin p top)
    (hw : Watched view s p top) (halone : full → (view.volume s).Alone top)
    (hcalm : calm → (view.volume s).Clashless origin top) :
    Pair view s ((view.volume s).IsParent p) full calm top source origin p top :=
  .of_separate hc.separate hw (Plain.suited hc.ordinary)
    (not_vacant_of_isDirectory hc.directory) halone fun h => hcalm h

/-! ## The copy pass -/

theorem Pair.grounds (hp : Pair view s made full calm top source origin p top)
    (hc : Copies view full calm made origin top s s') (hf : Foothold (view.volume s') (fun _ => False) p top) :
    Grounds view s' top source origin p top := by
  have hw : ∀ w, Counterparts calm (view.volume s) origin top w → top <+: w := fun _ => Counterparts.isPrefix
  refine ⟨hp.toBeside.of_bounded hp.sound hc.changes.bounded hw fun _ => False.elim,
    hc.changes.bounded.sound hp.sound, hf, fun below hd hstands => ?_⟩
  have hsame := hp.seen_origin hc.changes hw below
  have hcopied := hc.copied below fun hv => hstands ((hp.vacant_origin hc.changes hw below).mpr hv)
  exact (isDirectory_congr (hsame.trans hcopied.symm)).mpr hd

theorem ends_sync_copy (h : Falters platform view) (hp : Pair view s made full calm top source origin p top)
    (ho : (view.volume s).isDirectory origin) (hu : Unlinked (view.volume s) p top) :
    (sync platform source p false).Ends s
      (fun _ s' => Copies view full calm made origin top s s' ∧ Grounds view s' top source origin p top ∧
        (view.volume s').isDirectory top)
      fun _ s' => view.Changes (Counterparts calm (view.volume s) origin top) made s s' := by
  refine (ends_requireDirectory h s source).andThen (fun _ _ hstill => hstill.changes) ?_
  rintro - s₁ ⟨hstill, -⟩
  have hp₁ := hp.of_still hstill
  have hnone : ∀ w, False → Counterparts calm (view.volume s) origin top w := fun _ => False.elim
  have hstart : view.Changes (fun _ => False) made s s₁ := hstill.changes
  rw [← hstill.1] at ho hu
  refine Ends.bind (ends_withLevels fun levels =>
    ((ends_syncTree_pair h levels hp₁ ho hu).and (ends_syncTree h levels hp₁.toTarget hu)).mono
      (fun _ _ hend => hend) fun _ _ hend => ?_) ?_
  · exact hp.changes_trans hstart hnone hend.1 fun _ hm => hm
  · rintro - s₂ ⟨hcopies, -, hd, hf⟩
    have hcopies' := hp.copies_trans hstart hnone hcopies fun _ hm => hm
    exact Ends.pure ⟨hcopies', hp.grounds hcopies' hf, hd⟩

theorem sync_true (platform : Platform σ η) (source p : Path) :
    sync platform source p true = (do
      sync platform source p false
      withLevels platform p fun levels => prune platform levels source p) := by
  simp [sync]

theorem not_counterparts {v : Volume} {below : Place} (hv : v.Vacant (origin ++ below)) :
    ¬ Counterparts True v origin top (top ++ below) := by
  rintro ⟨below', he, hstands⟩
  obtain rfl := List.append_cancel_left he
  exact hstands trivial hv

theorem not_extras {v : Volume} {below : Place} (hv : ¬ v.Vacant (origin ++ below)) :
    ¬ v.Extras origin top (top ++ below) := by
  rintro ⟨below', he, hvacant⟩
  obtain rfl := List.append_cancel_left he
  exact hv hvacant

theorem Pair.number?_extra (hp : Pair view s made full True top source origin p top)
    (hc : view.Changes (Counterparts True (view.volume s) origin top) made s s') {below : Place}
    (hv : (view.volume s).Vacant (origin ++ below)) :
    (view.volume s').number? (top ++ below) = (view.volume s).number? (top ++ below) :=
  (hc.bounded.outside _ (not_counterparts hv)).resolve_right fun hnew =>
    (hp.unmade _ hnew.2.1).1 (List.prefix_append _ _)

/-- What a `sync` that prunes has to do with its copy pass, which is the `sync` that does not. An entry is
the same as long as it has the same number, for what is made has a new one. -/
structure PrunesLast (platform : Platform σ η) (view : Reading σ η) (source : Path) (origin : Place)
    (p : Path) (top : Place) (s : σ) (copying all : Except Failure Unit × σ) : Prop where
  /-- However the copy pass ends, what has no counterpart is still there. -/
  extras : ∀ below, (view.volume s).Vacant (origin ++ below) →
    (view.volume copying.2).number? (top ++ below) = (view.volume s).number? (top ++ below)
  /-- If the copy pass fails, that is the end. -/
  failed : ∀ e, copying.1 = .error e → all = copying
  /-- If it does not, pruning follows. -/
  pruned : copying.1 = .ok () →
    all = (withLevels platform p fun levels => prune platform levels source p).apply copying.2
  /-- By then all has been copied. -/
  copied : copying.1 = .ok () → Copied false (view.volume s) origin top (view.volume copying.2) ∧
    ((view.volume s).Alone top → Copied true (view.volume s) origin top (view.volume copying.2))
  /-- However the pruning ends, what has a counterpart is still there. -/
  kept : copying.1 = .ok () → ∀ below, ¬ (view.volume s).Vacant (origin ++ below) →
    (view.volume all.2).number? (top ++ below) = (view.volume copying.2).number? (top ++ below)

/-- A `sync` takes away what has no counterpart after all else, whichever calls fail. -/
theorem sync_prunesLast (h : Falters platform view) (hc : (view.volume s).Copyable source origin p top)
    (hclash : (view.volume s).Clashless origin top) (hw : Watched view s p top) :
    PrunesLast platform view source origin p top s ((sync platform source p false).apply s)
      ((sync platform source p true).apply s) := by
  have hu : Unlinked (view.volume s) p top := unlinked_of_passable hc.passable
  have hpair (full : Bool) (hfull : full → (view.volume s).Alone top) :=
    Pair.of_copyable view hc hw hfull fun (_ : True) => hclash
  have hends (full : Bool) (hfull : full → (view.volume s).Alone top) :=
    ends_sync_copy h (hpair full hfull) hc.directory hu
  have hoff : false = true → (view.volume s).Alone top := fun hf => absurd hf Bool.false_ne_true
  constructor
  · intro below hv
    have hchanges := ((hends false hoff).mono (fun _ _ hend => hend.1.changes) fun _ _ hend => hend).always
    exact (hpair false hoff).number?_extra hchanges hv
  · intro e he
    rw [sync_true, apply_bind_error (Prod.ext he rfl), ← he]
  · intro hok
    rw [sync_true, apply_bind_ok (Prod.ext hok rfl)]
  · intro hok
    exact ⟨((hends false hoff).ok hok).1.copied, fun ha => ((hends true fun _ => ha).ok hok).1.copied⟩
  · intro hok below hstands
    obtain ⟨hcopies, hg, hd⟩ := (hends false hoff).ok hok
    have hw' : ∀ w, Counterparts True (view.volume s) origin top w → top <+: w := fun _ => Counterparts.isPrefix
    have hrun : (sync platform source p false).apply s = (.ok (), ((sync platform source p false).apply s).2) :=
      Prod.ext hok rfl
    rw [sync_true, apply_bind_ok hrun]
    generalize ((sync platform source p false).apply s).2 = s₁ at hcopies hg hd ⊢
    have ho₁ : (view.volume s₁).isDirectory origin := by
      rw [isDirectory_iff_type?, (hpair false hoff).type?_origin hcopies.changes hw', ← isDirectory_iff_type?]
      exact hc.directory
    have hpruned : (withLevels platform p fun levels => prune platform levels source p).Ends s₁
        (fun _ => view.Changes ((view.volume s₁).Extras origin top) (fun _ => False) s₁)
        fun _ => view.Changes ((view.volume s₁).Extras origin top) (fun _ => False) s₁ :=
      ends_withLevels fun levels =>
        (ends_prune_grounds h levels hg ho₁ hd).mono (fun _ _ hend => hend.1) fun _ _ hend => hend
    have hstands₁ : ¬ (view.volume s₁).Vacant (origin ++ below) := fun hv =>
      hstands (((hpair false hoff).vacant_origin hcopies.changes hw' below).mp hv)
    exact (hpruned.always.bounded.outside _ (not_extras hstands₁)).resolve_right fun hnew => hnew.2.1

theorem watched_withFaults {v : Volume} {plan : List Fault} (h : ∀ fault ∈ plan, fault.call ≠ "lstat") :
    Watched reading.withFaults (v, plan) p top := by
  rintro more target - (hb | ⟨fault, hmem, hmeets⟩)
  · exact hb
  · exact h fault hmem (beq_iff_eq.mp (Bool.and_eq_true_iff.mp hmeets).1)

/-- Two directories of which the second one is behind the first one, and holds a directory more. -/
def lagging : List (Place × Content) :=
  [(placeOf ["src"], .directory), (placeOf ["src", "x"], .file [0x78]), (placeOf ["src", "d"], .directory),
    (placeOf ["src", "d", "y"], .file [0x79]), (placeOf ["dst"], .directory), (placeOf ["dst", "x"], .file []),
    (placeOf ["dst", "old"], .directory), (placeOf ["dst", "old", "z"], .file [0x7a])]

/-- No file has room for a copy. -/
def noRoom : Fault := ⟨"copy_file", none, .errno .noSpace, 0, none⟩

theorem copyable_lagging :
    (grown lagging).Copyable "/src".toList (placeOf ["src"]) "/dst".toList (placeOf ["dst"]) := by
  have hs : (grown lagging).Sound := sound_grown (by decide +kernel)
  have hreach : (grown lagging).reach false "/dst".toList = .ok (placeOf ["dst"]) := by decide +kernel
  show (grown lagging).Copyable _ ([] ++ ["src".toList]) _ ([] ++ ["dst".toList])
  exact copyable_of_names hs (by decide +kernel) (by decide +kernel)
    (by decide +kernel) (by decide +kernel) (by decide) (by decide) (by decide) hreach (by decide +kernel)

theorem prunesLast_lagging :
    ((grown lagging).Copyable "/src".toList (placeOf ["src"]) "/dst".toList (placeOf ["dst"]) ∧
      (grown lagging).Clashless (placeOf ["src"]) (placeOf ["dst"]) ∧
      Watched reading.withFaults (grown lagging, [noRoom]) "/dst".toList (placeOf ["dst"])) ∧
    PrunesLast Volume.platform.withFaults reading.withFaults "/src".toList (placeOf ["src"]) "/dst".toList
      (placeOf ["dst"]) (grown lagging, [noRoom])
      ((sync Volume.platform.withFaults "/src".toList "/dst".toList false).apply (grown lagging, [noRoom]))
      ((sync Volume.platform.withFaults "/src".toList "/dst".toList true).apply (grown lagging, [noRoom])) := by
  have hc := copyable_lagging
  have hclash : (grown lagging).Clashless (placeOf ["src"]) (placeOf ["dst"]) :=
    clashless_of_grown (by decide +kernel) (by decide +kernel)
  have hw : Watched reading.withFaults (grown lagging, [noRoom]) "/dst".toList (placeOf ["dst"]) :=
    watched_withFaults (by decide)
  exact ⟨⟨hc, hclash, hw⟩, sync_prunesLast (s := (grown lagging, [noRoom])) falters_platform.withFaults hc hclash hw⟩

/-- Two directories, of which the second one holds a file. -/
def detoured : List (Place × Content) :=
  [(placeOf ["src"], .directory), (placeOf ["src", "a"], .file [0x78]), (placeOf ["dst"], .directory),
    (placeOf ["dst", "new"], .file [0x7a])]

/-- There is no room for a directory in the second one. -/
def fullDisk : Fault := ⟨"mkdir", some "/src/new/../../dst/new".toList, .errno .noSpace, 0, none⟩

/-- Two directories, the first one under a path through a link in the second one. -/
def roundabout : List (Place × Content) :=
  [(placeOf ["p"], .directory), (placeOf ["p", "src"], .directory), (placeOf ["p", "src", "f"], .file [0x66]),
    (placeOf ["p", "src", "x"], .symlink "/q/r".toList), (placeOf ["p", "r"], .directory),
    (placeOf ["q"], .directory), (placeOf ["q", "src"], .directory), (placeOf ["q", "r"], .directory),
    (placeOf ["dst"], .directory), (placeOf ["dst", "x"], .symlink "/p/r".toList)]

/-- The link cannot be looked at once. -/
def blink : Fault := ⟨"lstat", some "/dst/x".toList, .errno .inputOutput, 1, some 1⟩

/-- Each call finds its paths anew. A parent of the copy that is made in the directory has a counterpart in the copy
taken away before all has been copied; and after a link has been replaced that could not be looked at, pruning looks
for counterparts in another directory. -/
theorem sync_astray :
    ((grown detoured).isDirectory (placeOf ["src"]) ∧ (grown detoured).isDirectory (placeOf ["dst"]) ∧
      (grown detoured).Clashless (placeOf ["src"]) (placeOf ["dst"]) ∧
      (grown detoured).Clashless (placeOf ["dst"]) (placeOf ["src"]) ∧
      (grown detoured).number? (placeOf ["src", "new"]) = none ∧
      (grown detoured).number? (placeOf ["dst", "new"]) ≠ none ∧
      let run := (sync Volume.platform.withFaults "/src".toList "/src/new/../../dst".toList true).apply
        (grown detoured, [fullDisk])
      run.1 = .error (.system (.mkdir "/src/new/../../dst/new".toList) .noSpace) ∧
        run.2.1.number? (placeOf ["dst", "new"]) = none) ∧
    (grown roundabout).reach true "/dst/x/../src".toList = .ok (placeOf ["p", "src"]) ∧
      (grown roundabout).Clashless (placeOf ["p", "src"]) (placeOf ["dst"]) ∧
      (grown roundabout).Clashless (placeOf ["dst"]) (placeOf ["p", "src"]) ∧
      (grown roundabout).number? (placeOf ["p", "src", "f"]) ≠ none ∧
      let copying := (sync Volume.platform.withFaults "/dst/x/../src".toList "/dst".toList false).apply
        (grown roundabout, [blink])
      let all := (sync Volume.platform.withFaults "/dst/x/../src".toList "/dst".toList true).apply
        (grown roundabout, [blink])
      copying.1 = .ok () ∧ copying.2.1.number? (placeOf ["dst", "f"]) ≠ none ∧
        all.1 = .ok () ∧ all.2.1.number? (placeOf ["dst", "f"]) = none := by
  refine ⟨⟨by decide +kernel, by decide +kernel, ?_, ?_, by decide +kernel⟩, by decide +kernel, ?_, ?_,
    by decide +kernel⟩
  all_goals exact clashless_of_grown (by decide +kernel) (by decide +kernel)

/-! ## What comes of it -/

/-- A directory to be copied in full keeps what it holds. -/
theorem Pair.object?_origin {within : Place → Prop} {place : Place}
    (hp : Pair view s made true calm top source origin p place) (hc : view.Changes within made s s')
    (hw : ∀ w, within w → top <+: w) (below : Place) :
    (view.volume s').object? (origin ++ below) = (view.volume s).object? (origin ++ below) := by
  cases ho : (view.volume s).object? (origin ++ below) with
  | none =>
    have hv := (hp.vacant_origin hc hw below).mpr (hp.sound.object?_eq_none.mp ho)
    exact (hc.bounded.sound hp.sound).object?_eq_none.mpr hv
  | some object =>
    refine hc.bounded.object?_eq (fun hin => hp.apart below (hw _ hin)) ho fun hwrite w hin hn => ?_
    have ho' : (view.volume s).object? w = some object := by
      rw [Volume.object?, hn, ← Volume.object?, ho]
    have hne : w ≠ origin ++ below := fun he => hp.apart below (he ▸ hw w hin)
    exact hp.alone rfl w _ object (hw w hin) hne hn ho'
      (Content.type_eq_file (hp.ordinary below object ho) hwrite.1)

/-- In the end the same is seen below both places. -/
def Alike (view : Reading σ η) (full : Bool) (origin top : Place) (s s' : σ) : Prop :=
  ∀ below, (view.volume s').seen full (top ++ below) = (view.volume s).seen full (origin ++ below)

theorem ends_sync_alike (h : Falters platform view) (hp : Pair view s made full calm top source origin p top)
    (ho : (view.volume s).isDirectory origin) (hu : Unlinked (view.volume s) p top) :
    (sync platform source p true).Ends s
      (fun _ s' => view.Changes (top <+: ·) made s s' ∧ Alike view full origin top s s' ∧
        Foothold (view.volume s') (fun _ => False) p top)
      fun _ _ => True := by
  rw [sync_true]
  refine (ends_sync_copy h hp ho hu).andThen (fun _ _ _ => trivial) ?_
  rintro - s₁ ⟨hcopies, hg, hd⟩
  have hw : ∀ w, Counterparts calm (view.volume s) origin top w → top <+: w := fun _ => Counterparts.isPrefix
  have ho₁ : (view.volume s₁).isDirectory origin := by
    rw [isDirectory_iff_type?, hp.type?_origin hcopies.changes hw, ← isDirectory_iff_type?]
    exact ho
  refine ends_withLevels fun levels => (ends_prune_grounds h levels hg ho₁ hd).mono (fun _ s₂ hend => ?_)
    fun _ _ _ => trivial
  obtain ⟨hpruned, hmatched⟩ := hend
  have hc : view.Changes (top <+: ·) made s s₂ :=
    (hcopies.changes.mono hw fun _ hm => hm).trans (hpruned.mono (fun _ => Extras.isPrefix) fun _ => False.elim)
  refine ⟨hc, fun below => ?_, ?_⟩
  · have hvacant := hp.vacant_origin hcopies.changes hw below
    -- what has no counterpart is pruned; what has one has been copied, and pruning leaves it
    by_cases hv : (view.volume s).Vacant (origin ++ below)
    · have hgone : (view.volume s₂).Vacant (top ++ below) := by
        by_contra hstands
        exact hmatched below hstands (hvacant.mpr hv)
      rw [(seen_eq_none (hc.bounded.sound hp.sound)).mpr hgone, (seen_eq_none hp.sound).mpr hv]
    · have hkept : (view.volume s₂).seen full (top ++ below) = (view.volume s₁).seen full (top ++ below) :=
        hpruned.bounded.seen_eq hg.sound (not_extras fun hv' => hv (hvacant.mp hv')) (fun _ => id)
          (fun hf => (hp.alone hf).of_bounded hp.sound hcopies.changes.bounded) fun _ => Extras.isPrefix
      exact hkept.trans (hcopies.copied below hv)
  · have hout : ¬ (view.volume s₁).Extras origin top top := by
      have hstands := not_vacant_of_isDirectory ho₁
      have hnot : ¬ (view.volume s₁).Extras origin top (top ++ []) := not_extras (by rwa [List.append_nil])
      rwa [List.append_nil] at hnot
    exact hg.foothold.of_bounded hg.sound hpruned.bounded (fun _ => Extras.isPrefix) fun _ =>
      hpruned.bounded.links_of_links hg.sound hout

theorem ends_mirror_alike (h : Falters platform view) (hp : Pair view s made full calm top source origin p top)
    (hb : ¬ view.blind s p) (hd : (view.volume s).Vacant top ∨ (view.volume s).reach false p = .ok top) :
    (mirror platform source p).Ends s
      (fun _ s' => view.Changes (top <+: ·) made s s' ∧ Alike view full origin top s s')
      fun _ _ => True := by
  refine (ends_requireDirectory h s source).andThen (fun _ _ _ => trivial) ?_
  rintro - s₁ ⟨hstill, -⟩
  have hp₁ := hp.of_still hstill
  rw [← hstill.1] at hd
  refine (Directory.ends_removeRecursive h hp₁.sound hp₁.foothold).andThen (fun _ _ _ => trivial) ?_
  rintro - s₂ ⟨hremoves, hcleared⟩
  have hgone := hcleared.vacant (fun hb' => hb (hstill.2 _ hb')) hremoves.thinned hd
  have hp₂ := hp₁.of_thinned hremoves.toChanges (fun _ hw => hw) hremoves.thinned
  have hvacant (below : Place) : (view.volume s₂).Vacant (top ++ below) := number?_append_eq_none below hgone
  -- where nothing is left, nothing is in the way
  have hp₃ : Pair view s₂ made full True top source origin p top := by
    refine ⟨hp₂.toTarget, hp₂.toBeside, hp₂.stands, hp₂.alone, hp₂.ordinary, fun below object ho => ?_⟩
    exact absurd (hvacant below) (not_vacant_of_object? ho)
  have hc₂ : view.Changes (top <+: ·) made s s₂ := hstill.changes.trans hremoves.toChanges
  refine ends_copyRecursive_of h (fun _ _ _ => trivial) fun entry s₃ levels hstill₃ hstat => ?_
  obtain ⟨goal, object, hreach, ho, rfl⟩ := stat_eq_ok.mp hstat
  obtain rfl := hp₂.toBeside.eq_of_reach hp₂.sound (fun hf => absurd hf Bool.false_ne_true) hreach
  have hp₄ := hp₃.of_still hstill₃
  have htype : (view.volume s₃).type? goal = some (object.entry source).type := by
    rw [hstill₃.1]
    exact type?_eq_some.mpr ⟨object, ho, rfl⟩
  refine (ends_copyEntry_pair h levels hp₄ htype).mono (fun _ s₅ hcopies => ?_) fun _ _ _ => trivial
  have hc : view.Changes (top <+: ·) made s s₅ :=
    (hc₂.trans hstill₃.changes).trans (hcopies.changes.mono (fun _ => Counterparts.isPrefix) fun _ hm => hm)
  have hbefore := hp.seen_origin (hc₂.trans hstill₃.changes) fun _ hw => hw
  refine ⟨hc, fun below => ?_⟩
  by_cases hv : (view.volume s₃).Vacant (goal ++ below)
  · have hkept := hp₄.number?_extra hcopies.changes hv
    rw [hstill₃.1] at hkept
    have hgone : (view.volume s₅).Vacant (top ++ below) := hkept.trans (hvacant below)
    rw [← hbefore below, (seen_eq_none (hc.bounded.sound hp.sound)).mpr hgone, (seen_eq_none hp₄.sound).mpr hv]
  · exact (hcopies.copied below hv).trans (hbefore below)

end Directory

/-! ## Volumes -/

namespace Volume

variable {v v' : Volume} {source target : Path} {origin top : Place}

/-- What is in a tree: a content for each place in it, by the names from its top down. -/
def contents (v : Volume) (top : Place) : Place → Option Content :=
  fun below => (v.object? (top ++ below)).map (·.content)

/-- In one directory is what is in another one, which is as it was. -/
structure Reproduces (v : Volume) (origin top : Place) (v' : Volume) : Prop where
  contents : v'.contents top = v.contents origin
  origin : ∀ below, v'.object? (origin ++ below) = v.object? (origin ++ below)

theorem Copyable.pair {calm : Prop} (hc : v.Copyable source origin target top) (ha : v.Alone top)
    (hcalm : calm → v.Clashless origin top) :
    Pair reading v (v.IsParent target) true calm top source origin target top :=
  Pair.of_copyable reading hc (fun _ _ _ hb => hb) (fun _ => ha) hcalm

theorem reproduces_of_alike {made : Place → Prop} {calm : Prop}
    (hp : Pair reading v made true calm top source origin target top)
    (hc : reading.Changes (top <+: ·) made v v') (ha : Alike reading true origin top v v') :
    v.Reproduces origin top v' :=
  ⟨funext ha, hp.object?_origin hc fun _ hw => hw⟩

/-- After a `sync` the same can be done again. -/
theorem Copyable.again (hc : v.Copyable source origin target top) (ha : v.Alone top)
    (hchanges : reading.Changes (top <+: ·) (v.IsParent target) v v') (hv : v.Reproduces origin top v')
    (hf : Foothold v' (fun _ => False) target top) :
    v'.Copyable source origin target top ∧ v'.Alone top := by
  have hp : Pair reading v (v.IsParent target) true False top source origin target top := hc.pair ha False.elim
  have hs' := hchanges.bounded.sound hc.sound
  have hbeside := hp.toBeside.of_bounded hc.sound hchanges.bounded (fun _ hw => hw) fun _ hm => hm
  have horigin := hp.type?_origin hchanges fun _ hw => hw
  have hd : v'.isDirectory origin := by
    rw [isDirectory_iff_type?]
    exact horigin.trans (isDirectory_iff_type?.mp hc.directory)
  have htop : v'.seen true top = v.seen true origin := by
    have hcontents : v'.seen true (top ++ []) = v.seen true (origin ++ []) := congrFun hv.contents []
    rwa [List.append_nil, List.append_nil] at hcontents
  refine ⟨⟨hs', hbeside.leads, hf.leads, hd, ?_, hc.notBelow, hc.notAbove, fun w hw hvacant => ?_,
    fun w object hw ho => ?_⟩, ha.of_bounded hc.sound hchanges.bounded⟩
  · exact passable_of_isDirectory ((isDirectory_congr htop).mpr hc.directory)
  · exact ((hf.of_isParent hw).2 hvacant).elim
  · rcases hw with ⟨below, rfl⟩ | ⟨below, rfl⟩
    · rw [hv.origin] at ho
      exact hc.ordinary _ object (.inl (List.prefix_append _ _)) ho
    · have hcontents := congrFun hv.contents below
      rw [contents, contents, ho] at hcontents
      obtain ⟨object', ho', hcontent⟩ := Option.map_eq_some_iff.mp hcontents.symm
      have hcontent : object'.content = object.content := hcontent
      rw [← hcontent]
      exact hc.ordinary _ object' (.inl (List.prefix_append _ _)) ho'

theorem reproduces_of_sync (hc : v.Copyable source origin target top) (ha : v.Alone top)
    (hrun : (sync platform source target true).apply v = (.ok (), v')) :
    v.Reproduces origin top v' ∧ v'.Copyable source origin target top ∧ v'.Alone top := by
  have hp : Pair reading v (v.IsParent target) true False top source origin target top := hc.pair ha False.elim
  have hends := ends_sync_alike falters_platform hp hc.directory (unlinked_of_passable hc.passable)
  have hend := hends.ok (x := ()) (by rw [hrun])
  rw [hrun] at hend
  obtain ⟨hchanges, halike, hf⟩ := hend
  have hv := reproduces_of_alike hp hchanges halike
  exact ⟨hv, hc.again ha hchanges hv hf⟩

theorem reproduces_of_mirror (hc : v.Copyable source origin target top) (ha : v.Alone top)
    (hd : v.Vacant top ∨ v.reach false target = .ok top)
    (hrun : (mirror platform source target).apply v = (.ok (), v')) : v.Reproduces origin top v' := by
  have hp : Pair reading v (v.IsParent target) true False top source origin target top := hc.pair ha False.elim
  have hend := (ends_mirror_alike falters_platform hp id hd).ok (x := ()) (by rw [hrun])
  rw [hrun] at hend
  exact reproduces_of_alike hp hend.1 hend.2

/-- After a `sync` that prunes, and after a `mirror`, the copy holds what the directory holds, which is as
it was. So the two agree, and the `sync` can be repeated and leaves all the contents as they are. -/
theorem contents_sync_mirror (hc : v.Copyable source origin target top) (ha : v.Alone top) :
    (∀ v', (sync platform source target true).apply v = (.ok (), v') → v.Reproduces origin top v' ∧
      ∀ v'', (sync platform source target true).apply v' = (.ok (), v'') → v''.contents top = v'.contents top) ∧
    (v.Vacant top ∨ v.reach false target = .ok top →
      ∀ v', (mirror platform source target).apply v = (.ok (), v') → v.Reproduces origin top v' ∧
        ∀ v'', (sync platform source target true).apply v = (.ok (), v'') → v''.contents top = v'.contents top) := by
  constructor
  · intro v' hrun
    obtain ⟨hv, hc', ha'⟩ := reproduces_of_sync hc ha hrun
    refine ⟨hv, fun v'' hrun' => ?_⟩
    have hv' := (reproduces_of_sync hc' ha' hrun').1
    calc v''.contents top = v'.contents origin := hv'.contents
      _ = v.contents origin := funext fun below => congrArg _ (hv.origin below)
      _ = v'.contents top := hv.contents.symm
  · intro hd v' hrun
    have hv := reproduces_of_mirror hc ha hd hrun
    refine ⟨hv, fun v'' hrun' => ?_⟩
    have hv'' := (reproduces_of_sync hc ha hrun').1
    exact hv''.contents.trans hv.contents.symm

theorem copyable_crossed :
    crossed.Copyable "/src".toList (placeOf ["src"]) "/a/dst".toList (placeOf ["a", "dst"]) := by
  have hreach : crossed.reach false "/a/dst".toList = .ok (placeOf ["a", "dst"]) := by decide +kernel
  show crossed.Copyable _ ([] ++ ["src".toList]) _ (placeOf ["a"] ++ ["dst".toList])
  exact copyable_of_names sound_crossed (by decide +kernel) (by decide +kernel)
    (by decide +kernel) (by decide +kernel) (by decide) (by decide) (by decide) hreach (by decide +kernel)

theorem reproduces_crossed :
    (crossed.Copyable "/src".toList (placeOf ["src"]) "/a/dst".toList (placeOf ["a", "dst"]) ∧
      crossed.Alone (placeOf ["a", "dst"])) ∧
    crossed.Reproduces (placeOf ["src"]) (placeOf ["a", "dst"])
      ((sync platform "/src".toList "/a/dst".toList true).apply crossed).2 := by
  have ha := unshared_crossed.alone (placeOf ["a", "dst"])
  have hok : ((sync platform "/src".toList "/a/dst".toList true).apply crossed).1 = .ok () := by decide +kernel
  have hrun {r : Except Failure Unit × Volume} (h : r.1 = .ok ()) : r = (.ok (), r.2) := by rw [← h]
  exact ⟨⟨copyable_crossed, ha⟩, ((contents_sync_mirror copyable_crossed ha).1 _ (hrun hok)).1⟩

/-- Through a path that leads through its own place, work goes on elsewhere, and the copy lacks what has
been copied there. -/
theorem sync_through_lacks :
    (crossed.Copyable "/src".toList (placeOf ["src"]) "/a/dst".toList (placeOf ["a", "dst"]) ∧
      crossed.Alone (placeOf ["a", "dst"])) ∧
    crossed.reach true "/a/dst/l/../../a/dst".toList = .ok (placeOf ["a", "dst"]) ∧
    ((sync platform "/src".toList "/a/dst/l/../../a/dst".toList true).apply crossed).1 = .ok () ∧
    crossed.contents (placeOf ["src"]) (placeOf ["l", "a"]) = some (.file [0x78]) ∧
    ((sync platform "/src".toList "/a/dst/l/../../a/dst".toList true).apply crossed).2.contents
      (placeOf ["a", "dst"]) (placeOf ["l", "a"]) = none := by
  refine ⟨⟨copyable_crossed, unshared_crossed.alone _⟩, ?_⟩
  decide +kernel

end Volume

end Bytework
