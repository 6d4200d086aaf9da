import Bytework.Proofs.Directory.Synced
import Bytework.Proofs.Volume.Carried
import Bytework.Proofs.Volume.Resolved

/-!
# Moved trees

What `moveTo` leaves, whichever calls fail. Where a tree cannot be carried in one step it is copied and then
taken away, and both can stop anywhere.

* `Carries`: a platform that falters and whose `rename` does so too.
* `Kept`: nothing of a tree is lost; `Moves`: what `moveTo` comes to.
* `ends_copyRecursive_separate`: a copy of what a path names, and what is left if it fails.
* **`moveTo_moves`**: nothing of a tree without special files is lost, and in the end it has gone.
-/

namespace Bytework

open Bytework.Action Directory

/-! ## Platforms that carry -/

section Carries

variable {σ η : Type} {platform : Platform σ η} {view : Reading σ η}

/-- The calls of a platform, with `rename`, answer as those of a volume, or fail without effect. -/
structure Carries (platform : Platform σ η) (view : Reading σ η) : Prop extends Falters platform view where
  rename : ∀ s source target, (platform.rename source target).Ends s
    (fun _ s' => ∃ v, (view.volume s).rename source target = .ok v ∧ view.Becomes s v s') fun _ => view.Still s

theorem Volume.carries_platform : Carries Volume.platform Volume.reading where
  toFalters := falters_platform
  rename s _ _ := (ends_update _ _ s).mono (fun _ v' h => ⟨v', h, rfl, fun _ => id⟩) fun _ _ => still_reading

theorem Carries.withFaults (h : Carries platform view) : Carries platform.withFaults view.withFaults where
  toFalters := h.toFalters.withFaults
  rename s source target := ends_guarded_change _ (h.rename s.1 source target)

end Carries

namespace Directory

open Volume

variable {σ η : Type} {platform : Platform σ η} {view : Reading σ η} {s s' s'' : σ} {origin top : Place}
  {p source : Path}

/-! ## Nothing is lost -/

/-- Whatever stood in a tree has its content in the same tree or in another one. -/
def Kept (view : Reading σ η) (origin top : Place) (s s' : σ) : Prop :=
  ∀ below, ¬ (view.volume s).Vacant (origin ++ below) →
    (view.volume s').contents origin below = (view.volume s).contents origin below ∨
      (view.volume s').contents top below = (view.volume s).contents origin below

theorem kept_of_origin
    (h : ∀ below, (view.volume s').object? (origin ++ below) = (view.volume s).object? (origin ++ below)) :
    Kept view origin top s s' :=
  fun below _ => .inl (congrArg _ (h below))

theorem kept_of_copied (h : Copied true (view.volume s) origin top (view.volume s')) :
    Kept view origin top s s' :=
  fun below hstands => .inr (h below hstands)

theorem copied_of_carried {v v' : Volume} (h : v.Carried origin top v') : Copied true v origin top v' :=
  fun below _ => congrArg _ (h.object below)

/-- What a move of what a path names from one place to another comes to. Two names of one object are one to
`rename`, which leaves both of them. -/
structure Moves (view : Reading σ η) (source : Path) (origin top : Place) (s : σ)
    (r : Except Failure Unit × σ) : Prop where
  /-- However it ends, nothing is lost. -/
  kept : Kept view origin top s r.2
  /-- If it succeeds, all is at the other place. -/
  copied : r.1 = .ok () → (view.volume s).number? origin ≠ (view.volume s).number? top →
    Copied true (view.volume s) origin top (view.volume r.2)
  /-- If it succeeds, nothing is left, unless an `lstat` that fails may hide what is there. -/
  gone : r.1 = .ok () → (view.volume s).number? origin ≠ (view.volume s).number? top → ¬ view.blind s source →
    (view.volume r.2).Vacant origin

/-! ## Copied and then taken away -/

/-- What a copy needs to be true: no file that is written to has another name, no link in its place is hidden
by an `lstat` that fails, and all is of a kind that is copied. -/
structure Faithful (view : Reading σ η) (s : σ) (origin : Place) (p : Path) (top : Place) : Prop where
  alone : (view.volume s).Alone top
  watched : Watched view s p top
  plain : (view.volume s).Plain origin top

theorem Faithful.of_still (h : Faithful view s origin p top) (hs : view.Still s s') :
    Faithful view s' origin p top := by
  refine ⟨hs.1 ▸ h.alone, fun more target hl hb => ?_, hs.1 ▸ h.plain⟩
  rw [hs.1] at hl
  exact h.watched more target hl (hs.2 _ hb)

/-- What a path names has been copied: it stood, the path could be resolved, and the copy has all of it. -/
structure Doubled (view : Reading σ η) (source : Path) (origin : Place) (p : Path) (top : Place)
    (s s' : σ) : Prop extends Copies view true False ((view.volume s).IsParent p) origin top s s' where
  stands : ¬ (view.volume s).Vacant origin
  reach : (view.volume s).reach false source = .ok origin

theorem ends_copyRecursive_separate (h : Falters platform view)
    (hsep : (view.volume s).Separate source origin p top) (hf : Faithful view s origin p top) :
    (copyRecursive platform source p).Ends s (fun _ s' => Doubled view source origin p top s s')
      fun _ s' => Kept view origin top s s' := by
  refine ends_copyRecursive_of h (fun _ s' hstill => kept_of_origin fun below => by rw [hstill.1]) ?_
  intro entry s₁ levels hstill hstat
  obtain ⟨goal, object, hreach, ho, rfl⟩ := stat_eq_ok.mp hstat
  obtain rfl := hsep.beside.eq_of_reach hsep.sound (fun hf => absurd hf Bool.false_ne_true) hreach
  have hstands := not_vacant_of_object? ho
  have hp : Pair view s ((view.volume s).IsParent p) true False top source goal p top :=
    .of_separate hsep hf.watched hf.plain.suited hstands (fun _ => hf.alone) False.elim
  have htype : (view.volume s₁).type? goal = some (object.entry source).type := by
    rw [hstill.1]
    exact type?_eq_some.mpr ⟨object, ho, rfl⟩
  have hnone : ∀ w, False → Counterparts False (view.volume s) goal top w := fun _ => False.elim
  refine (hp.ends_after hstill.changes hnone (fun _ hm => hm)
    (ends_copyEntry_pair h levels (hp.of_still hstill) htype)).mono
      (fun _ s₂ hend => ⟨hend, hstands, hreach⟩) ?_
  exact fun _ s₂ hend => kept_of_origin (hp.object?_origin hend fun _ => Counterparts.isPrefix)

namespace Doubled

variable (hd : Doubled view source origin p top s s')

include hd

theorem reach_again (hsep : (view.volume s).Separate source origin p top) :
    (view.volume s').reach false source = .ok origin := by
  have hb := hd.changes.bounded
  have hagrees : Agrees (top <+: ·) (view.volume s) (view.volume s') :=
    hb.agrees hsep.sound fun _ hw => hw.isPrefix
  have hroot : ¬ top <+: [] := fun hpre => hsep.ne_nil (List.prefix_nil.mp hpre)
  exact reach_agrees hagrees hsep.sound (hb.sound hsep.sound) (fun w hpre => hpre.trans w.dropLast_prefix) hroot
    hsep.notBelow hd.stands hsep.sourceLeads hd.reach

/-- Then all of it can be taken away, with nothing lost. -/
theorem ends_removeRecursive (hsep : (view.volume s).Separate source origin p top) (h : Falters platform view) :
    (removeRecursive platform source).Ends s'
      (fun _ s'' => Copied true (view.volume s) origin top (view.volume s'') ∧
        (¬ view.blind s source → (view.volume s'').Vacant origin))
      fun _ s'' => Kept view origin top s s'' := by
  have hs' := hd.changes.bounded.sound hsep.sound
  have hb := hsep.beside.of_bounded hsep.sound hd.changes.bounded (fun _ hw => hw.isPrefix) fun _ hm => hm
  have hcopied {s'' : σ} (hr : view.Removes origin (fun _ => False) s' s'') :
      Copied true (view.volume s) origin top (view.volume s'') := by
    intro below hstands
    have hout : ¬ origin <+: top ++ below := fun hpre =>
      (List.prefix_or_prefix_of_prefix hpre (List.prefix_append top below)).elim hsep.notAbove hsep.notBelow
    have hnumber := (hr.bounded.outside _ hout).resolve_right fun hnew => hnew.2.1
    have hsame : (view.volume s'').seen true (top ++ below) = (view.volume s').seen true (top ++ below) := by
      rw [seen, hr.thinned.object?_eq hnumber, ← seen]
    exact hsame.trans (hd.copied below hstands)
  refine (ends_removeRecursive_of_leads h hs' hb.leads).mono
    (fun _ s'' hend => ⟨hcopied hend.1, fun hblind => ?_⟩) fun _ _ hend => kept_of_copied (hcopied hend)
  have hblind' : ¬ view.blind s' source := fun hb' => hblind (hd.changes.blind _ hb')
  exact hend.2.vacant hblind' hend.1.thinned (.inr (hd.reach_again hsep))

end Doubled

/-! ## Moves -/

theorem ends_moveTo (h : Carries platform view) (hsep : (view.volume s).Separate source origin p top)
    (hf : ∀ e s', (platform.rename source p).apply s = (.error e, s') → Faithful view s origin p top) :
    (moveTo platform source p).Ends s
      (fun _ s' => Kept view origin top s s' ∧ ((view.volume s).number? origin ≠ (view.volume s).number? top →
        Copied true (view.volume s) origin top (view.volume s') ∧
          (¬ view.blind s source → (view.volume s').Vacant origin)))
      fun _ s' => Kept view origin top s s' := by
  refine Ends.bind_outcome (h.rename s source p).known ?_ ?_
  · rintro - s₁ ⟨⟨v, hrename, rfl, -⟩, -⟩
    refine Ends.pure ?_
    rcases carried_of_rename hsep.sound hsep.sourceLeads hsep.targetLeads hsep.notBelow hsep.notAbove hrename
      with hcarried | ⟨hsame, hnumber⟩
    · have hcopied := copied_of_carried hcarried
      exact ⟨kept_of_copied hcopied, fun _ => ⟨hcopied, fun _ => hcarried.vacant⟩⟩
    · exact ⟨kept_of_origin fun below => by rw [hsame], fun hne => absurd hnumber hne⟩
  · rintro e s₁ ⟨hstill, hrun⟩
    have hsep₁ : (view.volume s₁).Separate source origin p top := hstill.1 ▸ hsep
    have hf₁ := (hf e s₁ hrun).of_still hstill
    refine (ends_copyRecursive_separate h.toFalters hsep₁ hf₁).andThen (fun _ s' hk => ?_) ?_
    · rwa [Kept, hstill.1] at hk
    · rintro - s₂ hdoubled
      refine (hdoubled.ends_removeRecursive hsep₁ h.toFalters).mono (fun _ s₃ hend => ?_) fun _ s₃ hk => ?_
      · obtain ⟨hcopied, hgone⟩ := hend
        rw [hstill.1] at hcopied
        exact ⟨kept_of_copied hcopied, fun _ => ⟨hcopied, fun hb => hgone fun hb' => hb (hstill.2 _ hb')⟩⟩
      · rwa [Kept, hstill.1] at hk

/-- A move between separate places loses nothing, whichever calls fail and however it ends. If the tree cannot
be carried in one step, it has to be one of which a copy is true. -/
theorem moveTo_moves (h : Carries platform view) (hsep : (view.volume s).Separate source origin p top)
    (hf : ∀ e s', (platform.rename source p).apply s = (.error e, s') → Faithful view s origin p top) :
    Moves view source origin top s ((moveTo platform source p).apply s) := by
  have hends := ends_moveTo h hsep hf
  refine ⟨(hends.mono (fun _ _ hend => hend.1) fun _ _ hend => hend).always, fun hok hne => ?_,
    fun hok hne => ?_⟩
  · exact ((hends.ok hok).2 hne).1
  · exact ((hends.ok hok).2 hne).2

/-- Nothing is carried in one step. -/
def crossing : Fault := ⟨"rename", none, .errno .crossDevice, 0, none⟩

/-- A move from `/src` to `/dst` that has to copy. -/
def moved (entries : List (Place × Content)) : Except Failure Unit × Volume × List Fault :=
  (moveTo Volume.platform.withFaults "/src".toList "/dst".toList).apply (grown entries, [crossing])

theorem moves_lagging :
    ((grown lagging).Separate "/src".toList (placeOf ["src"]) "/dst".toList (placeOf ["dst"]) ∧
      ((Volume.platform.withFaults.rename "/src".toList "/dst".toList).apply (grown lagging, [crossing])).1 =
        .error (.system (.rename "/src".toList "/dst".toList) .crossDevice) ∧
      Faithful reading.withFaults (grown lagging, [crossing]) (placeOf ["src"]) "/dst".toList
        (placeOf ["dst"])) ∧
    Moves reading.withFaults "/src".toList (placeOf ["src"]) (placeOf ["dst"]) (grown lagging, [crossing])
      (moved lagging) ∧
    (moved lagging).1 = .ok () := by
  have hc := copyable_lagging
  have hf : Faithful reading.withFaults (grown lagging, [crossing]) (placeOf ["src"]) "/dst".toList
      (placeOf ["dst"]) :=
    ⟨(unshared_grown (by decide +kernel)).alone _, watched_withFaults (by decide), hc.ordinary⟩
  refine ⟨⟨hc.separate, by decide +kernel, hf⟩, ?_, by decide +kernel⟩
  exact moveTo_moves (s := (grown lagging, [crossing])) carries_platform.withFaults hc.separate fun _ _ _ => hf

/-- A directory with a special file. -/
def piped : List (Place × Content) :=
  [(placeOf ["src"], .directory), (placeOf ["src", "p"], .special .fifo)]

/-- A special file is not copied, and yet it is taken away. -/
theorem moveTo_loses_special :
    (grown piped).reach false "/src".toList = .ok (placeOf ["src"]) ∧
    (grown piped).reach false "/dst".toList = .ok (placeOf ["dst"]) ∧
    (grown piped).contents (placeOf ["src"]) (placeOf ["p"]) = some (.special .fifo) ∧
    (moved piped).1 = .ok () ∧
    (moved piped).2.1.contents (placeOf ["src"]) (placeOf ["p"]) = none ∧
    (moved piped).2.1.contents (placeOf ["dst"]) (placeOf ["p"]) = none := by
  decide +kernel

end Directory

end Bytework
