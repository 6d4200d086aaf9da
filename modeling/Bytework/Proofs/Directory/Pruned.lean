import Bytework.Proofs.Directory.Pairs

/-!
# Trees pruned

What pruning takes away. It goes down two trees side by side, and what has no counterpart is taken away
from one of them.

* `Grounds`: two trees such that directories of the one have directories of the other as counterparts.
* **`ends_prune_grounds`**: whatever fails, only what has no counterpart is taken away, and if nothing
  fails, all of it.
-/

namespace Bytework

open Bytework.Action

namespace Volume

variable {v v' : Volume} {origin place w : Place} {name : Name}

/-- The places below one place that answer to nothing below another one. -/
def Extras (v : Volume) (origin place w : Place) : Prop :=
  ∃ below, w = place ++ below ∧ v.Vacant (origin ++ below)

/-- The extras of a name in a directory and of what is below it. -/
def ExtrasOf (v : Volume) (origin place : Place) (name : Name) : Place → Prop :=
  v.Extras (origin ++ [name]) (place ++ [name])

/-- What stands below one place has had a counterpart below another one. -/
def Matched (v : Volume) (origin place : Place) (v' : Volume) : Prop :=
  ∀ below, ¬ v'.Vacant (place ++ below) → ¬ v.Vacant (origin ++ below)

theorem Extras.isPrefix (h : v.Extras origin place w) : place <+: w := by
  obtain ⟨below, rfl, -⟩ := h
  exact List.prefix_append _ _

theorem ExtrasOf.outward (h : v.ExtrasOf origin place name w) : v.Extras origin place w := by
  obtain ⟨below, rfl, hv⟩ := h
  exact ⟨name :: below, by simp, by simpa using hv⟩

theorem Extras.congr (hv : ∀ below, v'.Vacant (origin ++ below) → v.Vacant (origin ++ below))
    (h : v'.Extras origin place w) : v.Extras origin place w := by
  obtain ⟨below, rfl, hvacant⟩ := h
  exact ⟨below, rfl, hv below hvacant⟩

theorem extras_of_vacant (hv : v.Vacant origin) (hw : place <+: w) : v.Extras origin place w := by
  obtain ⟨below, rfl⟩ := hw
  exact ⟨below, rfl, number?_append_eq_none below hv⟩

theorem matched_of_vacant (hv : v'.Vacant place) : Matched v origin place v' :=
  fun below hstands => absurd (number?_append_eq_none below hv) hstands

end Volume

namespace Directory

open Volume

variable {σ η : Type} {platform : Platform σ η} {view : Reading σ η} {s s' : σ} {top origin place : Place}
  {p source : Path} {name : Name} {names : List Name}

/-- Two trees, with a path to each. A directory of the second one has a directory as its counterpart in
the first one, or nothing. -/
structure Grounds (view : Reading σ η) (s : σ) (top : Place) (source : Path) (origin : Place) (p : Path)
    (place : Place) : Prop extends Beside (view.volume s) (fun _ => False) top source origin place where
  sound : (view.volume s).Sound
  foothold : Foothold (view.volume s) (fun _ => False) p place
  agree : ∀ below, (view.volume s).isDirectory (place ++ below) → ¬ (view.volume s).Vacant (origin ++ below) →
    (view.volume s).isDirectory (origin ++ below)

namespace Grounds

theorem of_still (hg : Grounds view s top source origin p place) (h : view.Still s s') :
    Grounds view s' top source origin p place := by
  obtain ⟨hbeside, hs, hf, ha⟩ := hg
  rw [← h.1] at hbeside hs hf ha
  exact ⟨hbeside, hs, hf, ha⟩

theorem top_of_others (hg : Grounds view s top source origin p place) {w : Place}
    (hw : Others (below place) names name w) : top <+: w :=
  hg.inside.trans (prefix_of_others hw)

/-- A name in both trees, while other names are worked on. -/
theorem child (hg : Grounds view s top source origin p place) (ho : (view.volume s).isDirectory origin)
    (hd : (view.volume s).isDirectory place) (hn : Path.IsPlain name)
    (hc : view.Changes (Others (below place) names name) (fun _ => False) s s') :
    Grounds view s' top (source.join name) (origin ++ [name]) (p.join name) (place ++ [name]) := by
  have hw : ∀ w, Others (below place) names name w → top <+: w := fun _ => hg.top_of_others
  have hf := hg.foothold.of_bounded hg.sound hc.bounded (fun _ => prefix_of_others) fun target =>
    hc.bounded.links_of_links hg.sound not_others_self
  refine ⟨(hg.toBeside.child ho hn).of_bounded hg.sound hc.bounded hw fun _ h => h, hc.bounded.sound hg.sound,
    hf.join (hc.bounded.isDirectory not_others_self hd) hn, fun more hdir hstands => ?_⟩
  have hseen : (view.volume s').seen false (place ++ [name] ++ more) =
      (view.volume s).seen false (place ++ [name] ++ more) :=
    hc.bounded.outline_eq hg.sound (not_below_others (List.prefix_append _ _)) fun _ => id
  have hseen' := hg.toBeside.outline_origin hg.sound hc.bounded hw ([name] ++ more)
  have hvacant := hg.toBeside.vacant_origin hg.sound hc.bounded hw ([name] ++ more)
  rw [← List.append_assoc] at hseen' hvacant
  rw [isDirectory_congr hseen, List.append_assoc] at hdir
  rw [isDirectory_congr hseen', List.append_assoc]
  rw [hvacant, List.append_assoc] at hstands
  exact hg.agree _ hdir hstands

end Grounds

theorem filterMap_fileName? {v : Volume} {directory : Place} {entries : List Entry}
    (h : List.Forall₂ (IsChild v source directory) entries names) :
    entries.filterMap (·.path.fileName?) = names := by
  induction h with
  | nil => rfl
  | cons hchild _ ih => rw [List.filterMap_cons, hchild.fileName?, ih]

/-- What a body does with a name in a directory that is pruned, if it knows the names in the other one:
it takes away what has no counterpart. -/
def PrunesChild (view : Reading σ η) (top origin : Place) (source p : Path) (place : Place)
    (known : List Name) (body : Entry → Action σ Unit) : Prop :=
  ∀ extra name s, extra.path = p.join name → extra.path.fileName? = some name →
    Grounds view s top (source.join name) (origin ++ [name]) (p.join name) (place ++ [name]) →
    (name ∈ known ↔ ¬ (view.volume s).Vacant (origin ++ [name])) →
    (extra.isDirectory ↔ (view.volume s).isDirectory (place ++ [name])) →
    (body extra).Ends s
      (fun _ s' => view.Changes ((view.volume s).ExtrasOf origin place name) (fun _ => False) s s' ∧
        Matched (view.volume s) (origin ++ [name]) (place ++ [name]) (view.volume s'))
      fun _ s' => view.Changes ((view.volume s).ExtrasOf origin place name) (fun _ => False) s s'

theorem extras_others {made : Place → Prop}
    (hc : view.Changes (Others ((view.volume s).ExtrasOf origin place) names name) made s s') :
    view.Changes (Others (below place) names name) made s s' :=
  hc.mono (fun _ hw => hw.mono fun _ _ => Extras.isPrefix) fun _ hm => hm

/-- If what has no counterpart is taken away under each name in a directory, all of it is taken away. -/
theorem ends_forM_grounds (hg : Grounds view s top source origin p place)
    (ho : (view.volume s).isDirectory origin) (hd : (view.volume s).isDirectory place)
    {extras : List Entry} {body : Entry → Action σ Unit}
    (hall : List.Forall₂ (IsChild (view.volume s) p place) extras ((view.volume s).names place))
    (hbody : PrunesChild view top origin source p place ((view.volume s).names origin) body) :
    (extras.forM body).Ends s
      (fun _ s' => view.Changes ((view.volume s).Extras origin place) (fun _ => False) s s' ∧
        Matched (view.volume s) origin place (view.volume s'))
      fun _ s' => view.Changes ((view.volume s).Extras origin place) (fun _ => False) s s' := by
  have hwide {s' : σ} (hc : view.Changes (fun w => ∃ name ∈ (view.volume s).names place,
      (view.volume s).ExtrasOf origin place name w) (fun _ => False) s s') :
      view.Changes ((view.volume s).Extras origin place) (fun _ => False) s s' :=
    hc.mono (fun _ ⟨_, _, hw⟩ => hw.outward) fun _ hm => hm
  have hvacant {name : Name} {s' : σ}
      (hc : view.Changes (Others (below place) ((view.volume s).names place) name) (fun _ => False) s s')
      (more : Place) : (view.volume s').Vacant (origin ++ [name] ++ more) ↔
        (view.volume s).Vacant (origin ++ [name] ++ more) := by
    rw [List.append_assoc]
    exact hg.toBeside.vacant_origin hg.sound hc.bounded (fun _ => hg.top_of_others) _
  refine (ends_forM_children ((view.volume s).ExtrasOf origin place)
    (fun name s₁ s₂ => Matched (view.volume s₁) (origin ++ [name]) (place ++ [name]) (view.volume s₂))
    hall (hg.sound.distinct place) ?_).mono (fun _ s' hend => ⟨hwide hend.1, ?_⟩) fun _ _ => hwide
  · intro extra name s' hextra hname hc
    have hc := extras_others hc
    have hknown : name ∈ (view.volume s).names origin ↔ ¬ (view.volume s').Vacant (origin ++ [name]) := by
      have hv := hvacant hc []
      rw [List.append_nil] at hv
      rw [mem_names, hv]
      exact Option.isSome_iff_ne_none
    have hseen : (view.volume s').seen false (place ++ [name]) = (view.volume s).seen false (place ++ [name]) :=
      hc.bounded.outline_eq hg.sound (not_below_others (List.prefix_refl _)) fun _ => id
    have hdir : extra.isDirectory ↔ (view.volume s').isDirectory (place ++ [name]) := by
      rw [hextra.isDirectory_iff, isDirectory_congr hseen]
    have hback {w : Place} (hw : (view.volume s').ExtrasOf origin place name w) :
        (view.volume s).ExtrasOf origin place name w := hw.congr fun more => (hvacant hc more).mp
    refine (hbody extra name s' hextra.path hextra.fileName? (hg.child ho hd hextra.plain hc) hknown hdir).mono
      (fun _ s'' hend => ⟨?_, hend.2⟩) fun _ s'' hend => hend.mono (fun _ => hback) fun _ hm => hm
    exact hend.1.mono (fun _ => hback) fun _ hm => hm
  · intro more hstands
    rcases more with _ | ⟨name, more⟩
    · rw [List.append_nil]
      exact not_vacant_of_isDirectory ho
    · have hassoc (w : Place) : w ++ name :: more = w ++ [name] ++ more := by simp
      rw [hassoc] at hstands ⊢
      -- no name is new, for pruning makes nothing
      have hname : name ∈ (view.volume s).names place := by
        by_contra hnot
        have hout : ¬ ∃ other ∈ (view.volume s).names place, (view.volume s).ExtrasOf origin place other
            (place ++ [name] ++ more) := by
          rintro ⟨other, ho, hw⟩
          have hothers : Others (below place) ((view.volume s).names place) name (place ++ [name] ++ more) :=
            ⟨other, ho, fun he => hnot (he ▸ ho), hw.isPrefix⟩
          exact not_below_others (List.prefix_append _ _) hothers
        have hnumber := (hend.1.bounded.outside _ hout).resolve_right fun hnew => hnew.2.1
        rw [Vacant, hnumber] at hstands
        exact hnot (mem_names.mpr (isSome_number?_of_isPrefix (List.prefix_append _ more)
          (Option.isSome_iff_ne_none.mpr hstands)))
      obtain ⟨s₁, s₂, hc₁, hc₂, hmatched, hc₃⟩ := hend.2 name hname
      have hout : ¬ Others ((view.volume s).ExtrasOf origin place) ((view.volume s).names place) name
          (place ++ [name] ++ more) := fun hw =>
        not_below_others (List.prefix_append _ _) (hw.mono fun _ _ => Extras.isPrefix)
      have hnumber := (hc₃.bounded.outside _ hout).resolve_right fun hnew => hnew.2.1
      rw [Vacant, hnumber] at hstands
      exact fun hv => hmatched more hstands ((hvacant (extras_others hc₁) more).mpr hv)

/-- Pruning takes away what has no counterpart, and all of that if nothing fails. -/
theorem ends_prune_grounds (h : Falters platform view) (levels : Nat)
    (hg : Grounds view s top source origin p place) (ho : (view.volume s).isDirectory origin)
    (hd : (view.volume s).isDirectory place) :
    (prune platform levels source p).Ends s
      (fun _ s' => view.Changes ((view.volume s).Extras origin place) (fun _ => False) s s' ∧
        Matched (view.volume s) origin place (view.volume s'))
      fun _ s' => view.Changes ((view.volume s).Extras origin place) (fun _ => False) s s' := by
  induction levels generalizing s p origin place source with
  | zero => exact Ends.throw (.refl s)
  | succ levels ih =>
    have hlink {v : Volume} {w : Place} (hd : v.isDirectory w) : ∀ target, ¬ v.Links w target :=
      fun _ hl => hl.not_passable (passable_of_isDirectory hd)
    rw [prune]
    refine (ends_children h hg.sound).andThen (fun _ _ h => h.changes) ?_
    rintro entries s₁ ⟨hstill₁, directory, hreach, -, hentries⟩
    obtain rfl := hg.toBeside.eq_of_reach hg.sound (fun _ => hlink ho) hreach
    have hg₁ := hg.of_still hstill₁
    refine (ends_children h hg₁.sound).andThen (fun _ _ hend => (hstill₁.trans hend).changes) ?_
    rintro extras s₂ ⟨hstill₂, directory', hreach', -, hextras⟩
    have hstill := hstill₁.trans hstill₂
    have hg₂ := hg.of_still hstill
    rw [← hstill₁.1] at hd
    obtain rfl := hg₁.foothold.eq_of_reach_true hg₁.sound (hlink hd) hreach'
    rw [← hstill₂.1] at hd hextras
    rw [filterMap_fileName? hentries]
    rw [← hstill.1] at ho ⊢
    refine (ends_forM_grounds hg₂ ho hd hextras ?_).mono (fun _ _ hend => ⟨?_, hend.2⟩) fun _ _ hend => ?_
    · intro extra name s₃ hpath hname hg₃ hknown hdir
      dsimp only
      rw [hname]
      dsimp only
      split
      case isTrue hunknown =>
        have hv : (view.volume s₃).Vacant (directory ++ [name]) := by
          by_contra hstands
          exact absurd (hknown.mpr hstands) (by simpa using hunknown)
        have hf : Foothold (view.volume s₃) (fun _ => False) extra.path (directory' ++ [name]) := hpath ▸ hg₃.foothold
        refine ends_withLevels fun levels => (ends_removeEntry h hg₃.sound hf fun hd =>
          passable_of_isDirectory (hdir.mp hd)).mono (fun _ s₄ hend => ⟨?_, matched_of_vacant hend.2⟩)
            fun _ s₄ hend => ?_
        · exact hend.1.toChanges.mono (fun _ => extras_of_vacant hv) fun _ hm => hm
        · exact hend.toChanges.mono (fun _ => extras_of_vacant hv) fun _ hm => hm
      case isFalse hunknown =>
        have hstands : ¬ (view.volume s₃).Vacant (directory ++ [name]) := hknown.mp (by simpa using hunknown)
        split
        case isTrue hd =>
          have hplace := hdir.mp hd
          have horigin := hg₃.agree []
          rw [List.append_nil, List.append_nil] at horigin
          rw [hpath]
          exact ih hg₃ (horigin hplace hstands) hplace
        case isFalse hd =>
          refine Ends.pure ⟨.refl s₃, fun more hmore => ?_⟩
          obtain rfl : more = [] := by
            by_contra hne
            exact hd (hdir.mpr (hg₃.sound.isDirectory_of_append hne (Option.isSome_iff_ne_none.mpr hmore)))
          rwa [List.append_nil]
    · exact hstill.changes.trans hend.1
    · exact hstill.changes.trans hend

end Directory

end Bytework
