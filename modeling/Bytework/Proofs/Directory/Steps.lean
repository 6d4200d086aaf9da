import Bytework.Proofs.Directory.Children

/-!
# Steps of copying

What the operations that copying is made of do on a platform that falters, at a path that is a foothold
for a place. Whatever fails, they touch that place and what is below it.

* `Reading.Changes`, `Reading.Removes`: how far a state has changed.
* `ends_unlinkSymlink`, `ends_removeRecursive`: taking away; `ends_create`: making a directory.
-/

namespace Bytework

open Bytework.Action Volume

namespace Reading

variable {σ η : Type} {view : Reading σ η} {s s' s'' : σ} {within within' made made' : Place → Prop}
  {place : Place}

/-- A state has changed within bounds, and no more paths are blind. -/
structure Changes (view : Reading σ η) (within made : Place → Prop) (s s' : σ) : Prop where
  bounded : Bounded within made (view.volume s) (view.volume s')
  blind : ∀ p, view.blind s' p → view.blind s p

/-- A state has lost entries at a place and below. -/
structure Removes (view : Reading σ η) (place : Place) (made : Place → Prop) (s s' : σ) : Prop
    extends view.Changes (place <+: ·) made s s' where
  thinned : Thinned (view.volume s) (view.volume s')

theorem Changes.refl (s : σ) : view.Changes within made s s := ⟨.refl _, fun _ => id⟩

theorem Changes.trans (h : view.Changes within made s s') (h' : view.Changes within made s' s'') :
    view.Changes within made s s'' :=
  ⟨h.bounded.trans h'.bounded, fun p hp => h.blind p (h'.blind p hp)⟩

theorem Changes.mono (h : view.Changes within made s s') (hw : ∀ w, within w → within' w)
    (hm : ∀ w, made w → made' w) : view.Changes within' made' s s' :=
  ⟨h.bounded.mono hw fun w _ => hm w, h.blind⟩

theorem Changes.downward (h : view.Changes (· = place) made s s') : view.Changes (place <+: ·) made s s' :=
  h.mono (fun _ he => he ▸ List.prefix_refl _) fun _ hm => hm

theorem Becomes.changes {v : Volume} (h : view.Becomes s v s')
    (hb : Bounded within made (view.volume s) v) : view.Changes within made s s' :=
  ⟨h.1 ▸ hb, h.2⟩

theorem Still.changes (h : view.Still s s') : view.Changes within made s s' :=
  Becomes.changes h (.refl _)

theorem Removes.refl (s : σ) : view.Removes place made s s := ⟨.refl s, .refl _⟩

theorem Removes.trans (h : view.Removes place made s s') (h' : view.Removes place made s' s'') :
    view.Removes place made s s'' :=
  ⟨h.toChanges.trans h'.toChanges, h.thinned.trans h'.thinned⟩

theorem Removes.mono {below : Place} (h : view.Removes below made s s') (hp : place <+: below)
    (hm : ∀ w, made w → made' w) : view.Removes place made' s s' :=
  ⟨h.toChanges.mono (fun _ hw => hp.trans hw) hm, h.thinned⟩

theorem Becomes.removes (h : view.Becomes s ((view.volume s).drop place) s') (hne : place ≠ []) :
    view.Removes place made s s' ∧ (view.volume s').Vacant place := by
  obtain ⟨hbounded, hthin, hv⟩ := bounded_drop_of_ne_nil (v := view.volume s) hne
  rw [← h.1] at hthin hv
  exact ⟨⟨h.changes hbounded, hthin⟩, hv⟩

theorem Still.removes (h : view.Still s s') : view.Removes place made s s' :=
  ⟨h.changes, h.1 ▸ .refl _⟩

theorem Removes.after (h : view.Removes [] made s s') (h' : view.Removes place made s' s'') :
    view.Removes [] made s s'' :=
  h.trans (h'.mono List.nil_prefix fun _ hm => hm)

theorem Removes.eq_of_reach {follow : Bool} {p : Path} {goal goal' : Place} (h : view.Removes place made s s')
    (hs : (view.volume s).Sound) (hl : (view.volume s).Leads (fun _ => False) follow p goal)
    (hr : (view.volume s').reach follow p = .ok goal') (hstands : ¬ (view.volume s').Vacant goal') :
    goal' = goal :=
  (h.thinned.leads (h.bounded.sound hs) h.bounded.cwd h.bounded.rules hr hstands).unique hl

end Reading

namespace Directory

variable {σ η : Type} {platform : Platform σ η} {view : Reading σ η} {s : σ} {made shut : Place → Prop}
  {place : Place} {p q : Path} {entry : Entry} {levels : Nat}

theorem ends_withLevels {α : Type} {body : Nat → Action σ α} {good : α → σ → Prop}
    {bad : Failure → σ → Prop} (hb : ∀ levels, (body levels).Ends s good bad) :
    (withLevels platform p body).Ends s good bad :=
  Ends.of (hb _)

/-! ## Links -/

/-- No link is at a place, or the path to it cannot be resolved. -/
def Unlinked (v : Volume) (p : Path) (place : Place) : Prop :=
  ∀ target goal, v.Links place target → v.reach false p ≠ .ok goal

theorem unlinked_of_passable {v : Volume} (hp : v.Passable place) : Unlinked v p place :=
  fun _ _ hl => absurd hp hl.not_passable

/-- What `lstat` says of a place that a path leads to. -/
theorem ends_lstat (h : Falters platform view) (hs : (view.volume s).Sound)
    (hl : (view.volume s).Leads shut false p place) :
    (platform.lstat p).Ends s
      (fun entry s' => view.Still s s' ∧ entry.path = p ∧
        ∃ object, (view.volume s).object? place = some object ∧ entry.type = object.content.type)
      fun _ s' => view.Still s s' ∧
        (¬ view.blind s p → (view.volume s).Vacant place ∨ ∀ goal, (view.volume s).reach false p ≠ .ok goal) := by
  refine (h.lstat s p).mono (fun entry s' hend => ⟨hend.1, ?_⟩) fun e s' hend => ⟨hend.1, fun hb => ?_⟩
  · obtain ⟨goal, object, hr, ho, rfl⟩ := stat_eq_ok.mp hend.2
    obtain rfl := (leads_of_reach hs hr).unique hl
    exact ⟨rfl, object, ho, rfl⟩
  · by_contra hnot
    rw [not_or] at hnot
    obtain ⟨hstands, hreach⟩ := hnot
    rw [not_forall] at hreach
    obtain ⟨goal, hr⟩ := hreach
    rw [not_not] at hr
    obtain rfl := (leads_of_reach hs hr).unique hl
    obtain ⟨object, ho⟩ := hs.isSome_object? (Option.isSome_iff_ne_none.mpr hstands)
    exact hend.2 hb _ (stat_eq_ok.mpr ⟨goal, object, hr, ho, rfl⟩)

theorem exists_links_iff {v : Volume} {object : Object} (ho : v.object? place = some object)
    (ht : entry.type = object.content.type) : (∃ target, v.Links place target) ↔ entry.isSymlink := by
  simp only [Links, ho, Option.some.injEq, exists_eq_left', Entry.isSymlink, ht]
  cases object.content <;> simp [Content.type]

theorem ends_isSymlink (h : Falters platform view) (hs : (view.volume s).Sound)
    (hf : Foothold (view.volume s) made p place)
    (hb : ∀ target, (view.volume s).Links place target → ¬ view.blind s p) {bad : Failure → σ → Prop} :
    (isSymlink platform p).Ends s (fun linked s' => view.Still s s' ∧
      if linked then ∃ target, (view.volume s).Links place target
      else Unlinked (view.volume s) p place) bad := by
  refine (ends_lstat h hs hf.leads).succeeds ?_ ?_
  · rintro entry s' ⟨hstill, -, object, ho, ht⟩
    have hlink := exists_links_iff ho ht
    refine ⟨hstill, ?_⟩
    split
    case isTrue hl => exact hlink.mpr hl
    case isFalse hl => exact fun target _ hl' => absurd (hlink.mp ⟨target, hl'⟩) hl
  · rintro e s' ⟨hstill, hnot⟩
    refine ⟨hstill, fun target goal hl => ?_⟩
    rcases hnot (hb target hl) with hv | hr
    · exact absurd (hs.passable_iff.mpr (.inl hv)) hl.not_passable
    · exact hr goal

theorem ends_unlinkSymlink (h : Falters platform view) (hs : (view.volume s).Sound)
    (hf : Foothold (view.volume s) made p place)
    (hb : ∀ target, (view.volume s).Links place target → ¬ view.blind s p) :
    (unlinkSymlink platform p).Ends s
      (fun _ s' => view.Changes (· = place) made s s' ∧ Thinned (view.volume s) (view.volume s') ∧
        Unlinked (view.volume s') p place)
      fun _ s' => view.Changes (· = place) made s s' := by
  refine (ends_isSymlink h hs hf hb).bind fun linked s' hend => ?_
  obtain ⟨hstill, hlinked⟩ := hend
  cases linked with
  | false =>
    refine Ends.pure ⟨hstill.changes, hstill.1 ▸ .refl _, ?_⟩
    rw [hstill.1]
    exact hlinked
  | true =>
    obtain ⟨target, hl⟩ := hlinked
    refine (h.unlink s' p).mono (fun _ s'' hun => ?_) fun _ _ hun => (hstill.trans hun).changes
    obtain ⟨v, hun, hbecomes⟩ := hun
    rw [hstill.1] at hun
    obtain ⟨hbounded, hthin, hv⟩ := hf.bounded_of_removes hs (removes_of_unlink hs hun)
    have hd : ¬ (view.volume s).isDirectory place :=
      fun hd => hl.not_passable (passable_of_isDirectory hd)
    have hchanges : view.Changes (· = place) made s s'' :=
      Reading.Becomes.changes ⟨hbecomes.1, fun p hp => hstill.2 p (hbecomes.2 p hp)⟩
        (hbounded.of_thinned hs hthin hd)
    rw [hbecomes.1]
    exact ⟨hchanges, hthin, unlinked_of_passable ((hbounded.sound hs).passable_iff.mpr (.inl hv))⟩

/-! ## Taking away -/

/-- Taking away from the children of a directory leaves the directory. -/
theorem ends_forM_removes (hs : (view.volume s).Sound) (hf : Foothold (view.volume s) made p place)
    (hd : (view.volume s).isDirectory place) {entries : List Entry} {names : List Name}
    {body : Entry → Action σ Unit}
    (hall : List.Forall₂ (IsChild (view.volume s) p place) entries names)
    (step : ∀ child name s', IsChild (view.volume s) p place child name → (view.volume s').Sound →
      Foothold (view.volume s') made child.path (place ++ [name]) →
      (child.isDirectory → (view.volume s').Passable (place ++ [name])) →
      (body child).Ends s' (fun _ s'' => view.Removes (place ++ [name]) made s' s'')
        fun _ s'' => view.Removes (place ++ [name]) made s' s'') :
    (entries.forM body).Ends s
      (fun _ s' => view.Removes place made s s' ∧ (view.volume s').isDirectory place)
      fun _ s' => view.Removes place made s s' := by
  refine Ends.forM₂ (fun _ s' => view.Removes place made s s' ∧ (view.volume s').isDirectory place) hall
    ⟨.refl s, hd⟩ ?_
  rintro done child name rest s' - hchild ⟨hremoves, hd'⟩
  have hf' := (hf.of_bounded hs hremoves.bounded (fun _ h => h)
    fun _ => hremoves.thinned.links).join hd' hchild.plain
  rw [← hchild.path] at hf'
  have hp' (hc : child.isDirectory) : (view.volume s').Passable (place ++ [name]) :=
    hremoves.thinned.passable (passable_of_isDirectory (hchild.isDirectory_iff.mp hc))
  have hbelow : place <+: place ++ [name] := List.prefix_append _ _
  refine (step child name s' hchild (hremoves.bounded.sound hs) hf' hp').mono
    (fun _ s'' hend => ⟨?_, ?_⟩) fun _ s'' hend => ?_
  · exact hremoves.trans (hend.mono hbelow fun _ h => h)
  · exact hend.bounded.isDirectory (not_concat_isPrefix place name) hd'
  · exact hremoves.trans (hend.mono hbelow fun _ h => h)

/-- What taking away an entry does: it is gone, or some of what is below it. The path of the entry may lead
through what is taken away; then it leads nowhere else than at the start. -/
theorem ends_removeEntry_of_leads (h : Falters platform view) {start : σ} (hs : (view.volume start).Sound)
    (hr : view.Removes [] made start s) (hl : (view.volume start).Leads (fun _ => False) false entry.path place)
    (hd : entry.isDirectory → (view.volume start).Passable place) :
    (removeEntry platform levels entry).Ends s
      (fun _ s' => view.Removes place made s s' ∧ (view.volume s').Vacant place)
      fun _ s' => view.Removes place made s s' := by
  induction levels generalizing s place entry with
  | zero => exact Ends.throw (.refl s)
  | succ levels ih =>
    rw [removeEntry]
    split
    case isTrue hdir =>
      have hpass := hd hdir
      have hfollow : (view.volume start).Leads (fun _ => False) true entry.path place :=
        hl.followed fun _ hlink => hlink.not_passable hpass
      refine (ends_children h (hr.bounded.sound hs)).andThen (fun _ _ h => h.removes) ?_
      rintro entries s₁ ⟨hstill, directory, hreach, hdirectory, hall⟩
      have hstands := not_vacant_of_isDirectory hdirectory
      obtain rfl := hr.eq_of_reach hs hfollow hreach hstands
      refine (Ends.forM₂ (fun _ s' => view.Removes directory made s s') hall hstill.removes ?_).andThen
        (fun _ _ hend => hend) ?_
      · rintro done child name rest s' - hchild hremoves
        have hchildLeads : (view.volume start).Leads (fun _ => False) false child.path (directory ++ [name]) := by
          rw [hchild.path]
          exact hfollow.join (fun _ hw => hw) id hpass hchild.plain fun hf => absurd hf Bool.false_ne_true
        have hchildPass (hc : child.isDirectory) : (view.volume start).Passable (directory ++ [name]) :=
          passable_of_isDirectory (hr.thinned.isDirectory (hchild.isDirectory_iff.mp hc))
        have hup {s'' : σ} (hend : view.Removes (directory ++ [name]) made s' s'') :
            view.Removes directory made s s'' :=
          hremoves.trans (hend.mono (List.prefix_append _ _) fun _ hm => hm)
        exact (ih (hr.after hremoves) hchildLeads hchildPass).mono
          (fun _ _ hend => hup hend.1) fun _ _ => hup
      · rintro - s₂ hremoves
        refine (h.rmdir s₂ entry.path).mono (fun _ s' hrm => ?_) fun _ _ hrm => hremoves.trans hrm.removes
        obtain ⟨v, hrm, hbecomes⟩ := hrm
        have hsound := (hr.after hremoves).bounded.sound hs
        obtain ⟨goal, hreach', hne, hstands', rfl⟩ := removes_of_rmdir hsound hrm
        obtain rfl := (hr.after hremoves).eq_of_reach hs hl hreach' hstands'
        exact (hbecomes.removes hne).imp_left hremoves.trans
    case isFalse =>
      refine (h.unlink s entry.path).mono (fun _ s' hun => ?_) fun _ _ hun => hun.removes
      obtain ⟨v, hun, hbecomes⟩ := hun
      obtain ⟨goal, hreach, hne, hstands, rfl⟩ := removes_of_unlink (hr.bounded.sound hs) hun
      obtain rfl := hr.eq_of_reach hs hl hreach hstands
      exact hbecomes.removes hne

theorem ends_removeEntry (h : Falters platform view) (hs : (view.volume s).Sound)
    (hf : Foothold (view.volume s) made entry.path place)
    (hd : entry.isDirectory → (view.volume s).Passable place) :
    (removeEntry platform levels entry).Ends s
      (fun _ s' => view.Removes place made s s' ∧ (view.volume s').Vacant place)
      fun _ s' => view.Removes place made s s' :=
  ends_removeEntry_of_leads h hs (.refl s) (hf.leads.mono fun _ => False.elim) hd

/-- All that stood at a place is gone, or nothing has changed, for the path could not be resolved. -/
def Cleared (view : Reading σ η) (p : Path) (place : Place) (s s' : σ) : Prop :=
  ¬ view.blind s p → (view.volume s').Vacant place ∨
    view.volume s' = view.volume s ∧ ∀ goal, (view.volume s).reach false p ≠ .ok goal

theorem Cleared.vacant {s' : σ} (h : Cleared view p place s s') (hb : ¬ view.blind s p)
    (hthin : Thinned (view.volume s) (view.volume s'))
    (hd : (view.volume s).Vacant place ∨ (view.volume s).reach false p = .ok place) :
    (view.volume s').Vacant place := by
  rcases h hb with hv | ⟨-, hr⟩
  · exact hv
  · exact hthin.vacant (hd.resolve_right (hr place))

theorem ends_removeRecursive_of_leads (h : Falters platform view) (hs : (view.volume s).Sound)
    (hl : (view.volume s).Leads shut false p place) :
    (removeRecursive platform p).Ends s
      (fun _ s' => view.Removes place made s s' ∧ Cleared view p place s s')
      fun _ s' => view.Removes place made s s' := by
  refine (ends_lstat h hs hl).bind_outcome (fun entry s' hend => ?_) fun e s' hend => ?_
  · obtain ⟨hstill, rfl, object, ho, ht⟩ := hend
    have hd : entry.isDirectory → (view.volume s).Passable place := by
      intro hdir object' ho'
      obtain rfl := Option.some.inj (ho.symm.trans ho')
      exact (isDirectory_of_type ht).mp hdir
    have hl' : (view.volume s).Leads (fun _ => False) false entry.path place := hl.mono fun _ => False.elim
    refine ends_withLevels fun levels => (ends_removeEntry_of_leads h hs hstill.removes hl' hd).mono
      (fun _ s'' hend => ?_) fun _ _ hend => hstill.removes.trans hend
    exact ⟨hstill.removes.trans hend.1, fun _ => .inl hend.2⟩
  · obtain ⟨hstill, hr⟩ := hend
    dsimp only
    split
    · exact Ends.throw hstill.removes
    · refine Ends.pure ⟨hstill.removes, fun hb => ?_⟩
      rw [hstill.1]
      exact (hr hb).imp_right fun hreach => ⟨rfl, hreach⟩

theorem ends_removeRecursive (h : Falters platform view) (hs : (view.volume s).Sound)
    (hf : Foothold (view.volume s) made p place) :
    (removeRecursive platform p).Ends s
      (fun _ s' => view.Removes place made s s' ∧ Cleared view p place s s')
      fun _ s' => view.Removes place made s s' :=
  ends_removeRecursive_of_leads h hs hf.leads

/-! ## Making a directory -/

/-- A path at which a directory can be made: where it leads is no link, unless the path cannot be
resolved though nothing is missing on the way. -/
structure Ready (v : Volume) (made : Place → Prop) (p : Path) (place : Place) : Prop where
  foothold : Foothold v made p place
  unlinked : Unlinked v p place
  firm : ∀ target, v.Links place target → Foothold v (fun _ => False) p place

/-- A path has the first names of another one, and starts where it starts. -/
structure Leading (p q : Path) : Prop where
  names : p.names <+: q.names
  absolute : p.isAbsolute = q.isAbsolute

theorem Leading.refl (p : Path) : Leading p p := ⟨List.prefix_refl _, rfl⟩

theorem Leading.trans {r : Path} (h : Leading p q) (h' : Leading q r) : Leading p r :=
  ⟨h.names.trans h'.names, h.absolute.trans h'.absolute⟩

/-- A path is another one, or leads it and has nothing behind its last name. -/
structure Upward (p q : Path) : Prop extends Leading p q where
  ending : p = q ∨ p.asksDirectory = false

theorem Upward.refl (p : Path) : Upward p p := ⟨.refl p, .inl rfl⟩

theorem Upward.parent (h : Upward p q) {parent : Path} (hp : p.parent? = some parent) : Upward parent q where
  names := (Path.names_of_parent? hp).1.trans h.names
  absolute := (Path.names_of_parent? hp).2.trans h.absolute
  ending := .inr (Path.asksDirectory_of_parent? hp)

namespace Ready

variable {v v' : Volume} {goal : Place} {mode : Nat}

theorem no_links (hr : Ready v made p place) (h : v.reach true p = .ok goal) :
    ∀ target, ¬ v.Links place target := by
  intro target hl
  obtain ⟨goal', h'⟩ := reach_unfollowed h
  exact hr.unlinked target goal' hl h'

theorem eq_of_reach (hr : Ready v made p place) (hs : v.Sound) (h : v.reach true p = .ok goal) :
    goal = place :=
  hr.foothold.eq_of_reach_true hs (hr.no_links h) h

/-- Where a parent can be made, or the path itself, no link is at the place, and none comes. -/
theorem of_mkdir (hr : Ready v made q place) (hs : v.Sound) (hl : Upward p q) (h : v.mkdir p mode = .ok v') :
    Bounded (· = place) made v v' ∧ Ready v' made q place ∧
      (p = q → v'.isDirectory place ∧ Foothold v' (fun _ => False) q place) := by
  obtain ⟨new, hcontent, hcreates⟩ := creates_of_mkdir hs h
  have hbounded : Bounded (· = place) made v v' := by
    refine hcreates.bounded hs fun goal hreach hv => ?_
    rcases hr.foothold.of_reach_parent hs hl.names hl.absolute hl.ending hreach hv with rfl | hm
    · exact .inl rfl
    · exact .inr ⟨hm, hcontent⟩
  obtain ⟨directory, name, hreach, hdir, hv, hn, hv'⟩ := hcreates
  have hobject : v'.object? place = if place = directory ++ [name]
      then some new else v.object? place := by
    rw [hv']
    exact object?_create hs (isSome_number?_of_isDirectory hdir) hv place
  have hnone : ∀ target, ¬ v'.Links place target := by
    rintro target ⟨object, ho, hc⟩
    rw [hobject] at ho
    split at ho
    case isTrue =>
      obtain rfl := Option.some.inj ho
      simp [hcontent] at hc
    case isFalse hne =>
      have hfirm := hr.firm target ⟨object, ho, hc⟩
      rcases hfirm.of_reach_parent hs hl.names hl.absolute hl.ending hreach hv with he | hf
      · exact hne he.symm
      · exact hf
  have hfoothold {made' : Place → Prop} (hf : Foothold v made' q place) :
      Foothold v' made' q place :=
    hf.of_bounded hs hbounded (fun _ he => he ▸ List.prefix_refl _) fun target hl => absurd hl (hnone target)
  refine ⟨hbounded, ⟨hfoothold hr.foothold, fun target _ hl => absurd hl (hnone target),
    fun target hl => absurd hl (hnone target)⟩, ?_⟩
  rintro rfl
  have hplace := hr.foothold.eq_of_reach hs hreach
  rw [if_pos hplace.symm] at hobject
  exact ⟨isDirectory_iff.mpr ⟨_, hobject, hcontent⟩, hfoothold (hr.foothold.firm hs hreach)⟩

end Ready

theorem ends_isDirectory (h : Falters platform view) (s : σ) (p : Path) {bad : Failure → σ → Prop} :
    (isDirectory platform p).Ends s (fun is s' => view.Still s s' ∧
      (is → ∃ goal, (view.volume s).reach true p = .ok goal ∧ (view.volume s).isDirectory goal)) bad := by
  refine (h.stat s p).succeeds ?_ fun _ _ hend => ⟨hend, fun hf => absurd hf (by simp)⟩
  rintro entry s' ⟨hstill, hstat⟩
  obtain ⟨goal, object, hreach, ho, rfl⟩ := stat_eq_ok.mp hstat
  exact ⟨hstill, fun hd => ⟨goal, hreach, isDirectory_iff.mpr ⟨object, ho, (isDirectory_of_type rfl).mp hd⟩⟩⟩

theorem ends_makeOne (h : Falters platform view) (hs : (view.volume s).Sound)
    (hr : Ready (view.volume s) made q place) (hl : Upward p q) :
    (makeOne platform p).Ends s
      (fun _ s' => view.Changes (· = place) made s s' ∧ Ready (view.volume s') made q place ∧
        (p = q → (view.volume s').isDirectory place ∧ Foothold (view.volume s') (fun _ => False) q place))
      fun _ s' => view.Changes (· = place) made s s' := by
  refine Ends.bind_outcome (h.mkdir s p directoryMode) ?_ fun e s' hstill => ?_
  · rintro - s' ⟨v, hmk, hbecomes⟩
    obtain ⟨hbounded, hr', hq⟩ := hr.of_mkdir hs hl hmk
    refine Ends.pure ⟨hbecomes.changes hbounded, ?_⟩
    rw [hbecomes.1]
    exact ⟨hr', hq⟩
  -- where nothing can be made, a directory that stands there already will do
  · refine (ends_isDirectory h s' p).bind ?_
    rintro (_ | _) s'' ⟨hstill', hdir⟩
    · exact Ends.throw (hstill.trans hstill').changes
    · refine Ends.pure ⟨(hstill.trans hstill').changes, ?_⟩
      rw [hstill'.1, hstill.1]
      rw [hstill.1] at hdir
      refine ⟨hr, ?_⟩
      rintro rfl
      obtain ⟨goal, hreach, hdir⟩ := hdir rfl
      obtain rfl := hr.eq_of_reach hs hreach
      exact ⟨hdir, hr.foothold.firm hs hreach⟩

theorem ends_missing (h : Falters platform view) (n : Nat) (s : σ) (hl : Upward p q) :
    (missing platform n p).Ends s
      (fun ps s' => view.Still s s' ∧ (∀ p' ∈ ps, Upward p' q) ∧
        (p ≠ [] → n ≠ 0 → (∃ rest, ps = p :: rest) ∨
          ps = [] ∧ ∃ goal, (view.volume s).reach true p = .ok goal ∧ (view.volume s).isDirectory goal))
      fun _ => view.Still s := by
  induction n generalizing p s with
  | zero => exact Ends.pure ⟨.refl s, by simp, fun _ h => absurd rfl h⟩
  | succ n ih =>
    rw [missing]
    split
    case isTrue hempty =>
      exact Ends.pure ⟨.refl s, by simp, fun hne => absurd (List.isEmpty_iff.mp hempty) hne⟩
    case isFalse hempty =>
      refine Ends.bind_outcome (h.stat s p) (fun entry s' hend => ?_) fun e s' hstill => ?_
      · obtain ⟨hstill, hstat⟩ := hend
        dsimp only
        split
        case isTrue hd =>
          obtain ⟨goal, object, hreach, ho, rfl⟩ := stat_eq_ok.mp hstat
          have hdir := isDirectory_iff.mpr ⟨object, ho, (isDirectory_of_type rfl).mp hd⟩
          exact Ends.pure ⟨hstill, by simp, fun _ _ => .inr ⟨rfl, goal, hreach, hdir⟩⟩
        case isFalse => exact Ends.throw hstill
      · dsimp only
        split
        case h_1 => exact Ends.pure ⟨hstill, by simpa using hl, fun _ _ => .inl ⟨[], rfl⟩⟩
        case h_2 parent hparent =>
          have hparent := ih s' (hl.parent hparent)
          refine hparent.andThen (fun _ _ h => hstill.trans h) ?_
          rintro ps s'' ⟨hstill', hps, -⟩
          refine Ends.pure ⟨hstill.trans hstill', List.forall_mem_cons.mpr ⟨hl, hps⟩, fun _ _ => .inl ⟨ps, rfl⟩⟩

theorem ends_create (h : Falters platform view) (hs : (view.volume s).Sound)
    (hr : Ready (view.volume s) made p place) :
    (create platform p).Ends s
      (fun _ s' => view.Changes (· = place) made s s' ∧ (view.volume s').isDirectory place ∧
        Foothold (view.volume s') (fun _ => False) p place)
      fun _ s' => view.Changes (· = place) made s s' := by
  rw [create]
  split
  case isTrue => exact Ends.throw (.refl s)
  case isFalse hempty =>
    have hne : p ≠ [] := fun he => hempty (List.isEmpty_iff.mpr he)
    have hmissing := ends_missing h p.length s (.refl p)
    refine hmissing.andThen (fun _ _ h => h.changes) ?_
    rintro ps s' ⟨hstill, hps, hfirst⟩
    have hr' : Ready (view.volume s') made p place := hstill.1 ▸ hr
    -- the path itself comes last, after those of its parents that are missing
    have hall : ∀ ps : List Path, (∀ p' ∈ ps, Upward p' p) → (makeAll platform ps).Ends s'
        (fun _ s'' => view.Changes (· = place) made s s'' ∧ Ready (view.volume s'') made p place)
        fun _ s'' => view.Changes (· = place) made s s'' := by
      intro ps hps
      refine Ends.forM (fun s'' => view.Changes (· = place) made s s'' ∧
        Ready (view.volume s'') made p place) ⟨hstill.changes, hr'⟩ fun p' hp' s'' hinv => ?_
      obtain ⟨hchanges, hr''⟩ := hinv
      refine (ends_makeOne h (hchanges.bounded.sound hs) hr'' (hps p' hp')).mono (fun _ _ hend => ?_)
        fun _ _ hend => hchanges.trans hend
      exact ⟨hchanges.trans hend.1, hend.2.1⟩
    rcases hfirst hne (by simpa using hne) with ⟨rest, rfl⟩ | ⟨rfl, goal, hreach, hdir⟩
    · obtain ⟨hp, hrest⟩ := List.forall_mem_cons.mp hps
      rw [List.reverse_cons, makeAll, List.forM_eq_forM, List.forM_append]
      refine (hall rest.reverse fun p' hp' => hrest p' (List.mem_reverse.mp hp')).bind ?_
      rintro - s'' ⟨hchanges, hr''⟩
      refine (ends_makeOne h (hchanges.bounded.sound hs) hr'' hp).andThen (fun _ _ => hchanges.trans) ?_
      rintro - s''' ⟨hchanges', -, hmade⟩
      exact Ends.pure ⟨hchanges.trans hchanges', hmade rfl⟩
    · obtain rfl := hr.eq_of_reach hs hreach
      refine Ends.pure ⟨hstill.changes, ?_⟩
      rw [hstill.1]
      exact ⟨hdir, hr.foothold.firm hs hreach⟩

/-! ## Making a directory anywhere -/

/-- A path leads over what exists to a directory. -/
structure Admits (v : Volume) (p : Path) (place : Place) : Prop where
  directory : v.isDirectory place
  leads : v.Leads v.Vacant true p place

theorem admits_of_reach {v : Volume} (hs : v.Sound) (hr : v.reach true p = .ok place) (hd : v.isDirectory place) :
    Admits v p place :=
  ⟨hd, leads_of_reach hs hr⟩

/-- A path at which a directory has been made leads to it. -/
theorem admits_of_mkdir {v v' : Volume} {mode : Nat} (hs : v.Sound) (h : v.mkdir p mode = .ok v') :
    Bounded (fun _ => False) (fun _ => True) v v' ∧ ∃ place, Admits v' p place := by
  obtain ⟨new, hcontent, hcreates⟩ := creates_of_mkdir hs h
  have hbounded : Bounded (fun _ => False) (fun _ => True) v v' :=
    hcreates.bounded hs fun _ _ _ => .inr ⟨trivial, hcontent⟩
  refine ⟨hbounded, ?_⟩
  obtain ⟨place, hreach, hv, ho⟩ := hcreates.object? hs
  have hd : v'.isDirectory place := isDirectory_iff.mpr ⟨_, ho, hcontent⟩
  have hno : ∀ target, ¬ v'.Links place target := fun _ hl => hl.not_passable (passable_of_isDirectory hd)
  have hleads : v'.Leads v.Vacant false p place :=
    hbounded.leads hs (fun _ => False.elim) (fun target hl => absurd hl (hno target)) (leads_of_reach hs hreach)
  refine ⟨place, hd, (hleads.followed hno).mono fun w hw => ?_⟩
  by_contra hstands
  exact hbounded.not_vacant id hstands hw

theorem ends_makeOne_any (h : Falters platform view) (hs : (view.volume s).Sound) :
    (makeOne platform p).Ends s
      (fun _ s' => view.Changes (fun _ => False) (fun _ => True) s s' ∧ ∃ place, Admits (view.volume s') p place)
      fun _ s' => view.Changes (fun _ => False) (fun _ => True) s s' := by
  refine Ends.bind_outcome (h.mkdir s p directoryMode) ?_ fun e s' hstill => ?_
  · rintro - s' ⟨v, hmk, hbecomes⟩
    obtain ⟨hbounded, hadmits⟩ := admits_of_mkdir hs hmk
    refine Ends.pure ⟨hbecomes.changes hbounded, ?_⟩
    rwa [hbecomes.1]
  · refine (ends_isDirectory h s' p).bind ?_
    rintro (_ | _) s'' ⟨hstill', hdir⟩
    · exact Ends.throw (hstill.trans hstill').changes
    · obtain ⟨goal, hreach, hd⟩ := hdir rfl
      refine Ends.pure ⟨(hstill.trans hstill').changes, goal, ?_⟩
      rw [hstill.1] at hreach hd
      rw [hstill'.1, hstill.1]
      exact admits_of_reach hs hreach hd

/-- Wherever a path leads, making a directory there makes directories and does nothing else. -/
theorem ends_create_any (h : Falters platform view) (hs : (view.volume s).Sound) :
    (create platform p).Ends s
      (fun _ s' => view.Changes (fun _ => False) (fun _ => True) s s' ∧ ∃ place, Admits (view.volume s') p place)
      fun _ s' => view.Changes (fun _ => False) (fun _ => True) s s' := by
  rw [create]
  split
  case isTrue => exact Ends.throw (.refl s)
  case isFalse hempty =>
    have hne : p ≠ [] := fun he => hempty (List.isEmpty_iff.mpr he)
    refine (ends_missing h p.length s (.refl p)).andThen (fun _ _ h => h.changes) ?_
    rintro ps s' ⟨hstill, -, hfirst⟩
    rcases hfirst hne (by simpa using hne) with ⟨rest, rfl⟩ | ⟨rfl, goal, hreach, hd⟩
    · rw [List.reverse_cons, makeAll, List.forM_eq_forM, List.forM_append]
      have hparents : (makeAll platform rest.reverse).Ends s'
          (fun _ s'' => view.Changes (fun _ => False) (fun _ => True) s s'')
          fun _ s'' => view.Changes (fun _ => False) (fun _ => True) s s'' := by
        refine Ends.forM _ hstill.changes fun p' _ s'' hc => ?_
        exact (ends_makeOne_any h (hc.bounded.sound hs)).mono (fun _ _ hend => hc.trans hend.1) fun _ _ => hc.trans
      refine hparents.bind fun _ s'' hc => ?_
      refine (ends_makeOne_any h (hc.bounded.sound hs)).andThen (fun _ _ => hc.trans) ?_
      rintro - s''' ⟨hc', hadmits⟩
      exact Ends.pure ⟨hc.trans hc', hadmits⟩
    · refine Ends.pure ⟨hstill.changes, goal, ?_⟩
      rw [hstill.1]
      exact admits_of_reach hs hreach hd

end Directory

end Bytework
