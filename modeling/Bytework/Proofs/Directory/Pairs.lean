import Bytework.Proofs.Directory.Frames
import Bytework.Proofs.Volume.Seen

/-!
# Copies of trees

What a copy holds when it has been made. A copy is made from what stands below one place to the same
names below another one, and the first is not touched by it.

* `Pair`: a path to copy from beside a path to copy to; it lasts while work goes on elsewhere.
* `Copies`: what a copy does from start to end.
* **`ends_copyEntry_pair`**, **`ends_syncTree_pair`**: all that stands below the origin is copied, and if
  no directory is in the way of something else, nothing but the counterparts is touched on the way.
-/

namespace Bytework.Directory

open Bytework.Action Volume

variable {σ η : Type} {platform : Platform σ η} {view : Reading σ η} {s s' : σ}
  {within made made' : Place → Prop} {full : Bool} {calm : Prop} {top origin place w : Place}
  {p source : Path} {entry : Entry} {name : Name} {object : Object}

/-- A path to copy from and a path to copy to. The copy is to stand at `top` or below. If the work is
`calm`, no directory stands where something else is to be copied to. -/
structure Pair (view : Reading σ η) (s : σ) (made : Place → Prop) (full : Bool) (calm : Prop) (top : Place)
    (source : Path) (origin : Place) (p : Path) (place : Place) : Prop
    extends Target view s made p place, Beside (view.volume s) made top source origin place where
  stands : ¬ (view.volume s).Vacant origin
  alone : full → (view.volume s).Alone top
  ordinary : ∀ below object, (view.volume s).object? (origin ++ below) = some object →
    object.content.Ordinary
  tame : ∀ below object, (view.volume s).object? (place ++ below) = some object →
    ((view.volume s).type? (origin ++ below) = some .file → object.content.Ordinary) ∧
    (calm → object.content = .directory →
      ¬ (view.volume s).Vacant (origin ++ below) → (view.volume s).isDirectory (origin ++ below))

/-- What a copy does: at most the counterparts of what stands below the origin are touched, and in the
end all of it is seen there too. -/
structure Copies (view : Reading σ η) (full : Bool) (calm : Prop) (made : Place → Prop)
    (origin place : Place) (s s' : σ) : Prop where
  changes : view.Changes (Counterparts calm (view.volume s) origin place) made s s'
  copied : Copied full (view.volume s) origin place (view.volume s')

namespace Pair

theorem seen_origin (hp : Pair view s made full calm top source origin p place)
    (hc : view.Changes within made s s') (hw : ∀ w, within w → top <+: w) (below : Place) :
    (view.volume s').seen full (origin ++ below) = (view.volume s).seen full (origin ++ below) :=
  hp.toBeside.seen_origin hp.sound hc.bounded hw hp.alone below

theorem vacant_origin (hp : Pair view s made full calm top source origin p place)
    (hc : view.Changes within made s s') (hw : ∀ w, within w → top <+: w) (below : Place) :
    (view.volume s').Vacant (origin ++ below) ↔ (view.volume s).Vacant (origin ++ below) :=
  hp.toBeside.vacant_origin hp.sound hc.bounded hw below

theorem type?_origin (hp : Pair view s made full calm top source origin p place)
    (hc : view.Changes within made s s') (hw : ∀ w, within w → top <+: w) :
    (view.volume s').type? origin = (view.volume s).type? origin := by
  have hseen := hp.seen_origin hc hw []
  rw [List.append_nil] at hseen
  exact type?_congr hseen

theorem changes_trans {s₁ : σ} (hp : Pair view s made full calm top source origin p place)
    (hc : view.Changes within made s s₁)
    (hw : ∀ w, within w → Counterparts calm (view.volume s) origin place w)
    (hc' : view.Changes (Counterparts calm (view.volume s₁) origin place) made' s₁ s')
    (hm : ∀ w, made' w → made w) :
    view.Changes (Counterparts calm (view.volume s) origin place) made s s' := by
  have htop : ∀ w, within w → top <+: w := fun w h => hp.inside.trans (hw w h).isPrefix
  refine (hc.mono hw fun _ h => h).trans (hc'.mono (fun w h => h.congr fun below => ?_) hm)
  exact (hp.vacant_origin hc htop below).mpr

theorem copies_trans {s₁ : σ} (hp : Pair view s made full calm top source origin p place)
    (hc : view.Changes within made s s₁)
    (hw : ∀ w, within w → Counterparts calm (view.volume s) origin place w)
    (h : Copies view full calm made' origin place s₁ s') (hm : ∀ w, made' w → made w) :
    Copies view full calm made origin place s s' := by
  have htop : ∀ w, within w → top <+: w := fun w h => hp.inside.trans (hw w h).isPrefix
  refine ⟨hp.changes_trans hc hw h.changes hm, fun below hstands => ?_⟩
  have hcopied := h.copied below fun hv => hstands ((hp.vacant_origin hc htop below).mp hv)
  exact hcopied.trans (hp.seen_origin hc htop below)

theorem ends_after {s₁ s₂ : σ} {a : Action σ Unit} (hp : Pair view s made full calm top source origin p place)
    (hc : view.Changes within made s s₁)
    (hw : ∀ w, within w → Counterparts calm (view.volume s) origin place w) (hm : ∀ w, made' w → made w)
    (hends : a.Ends s₂ (fun _ s' => Copies view full calm made' origin place s₁ s')
      fun _ s' => view.Changes (Counterparts calm (view.volume s₁) origin place) made' s₁ s') :
    a.Ends s₂ (fun _ s' => Copies view full calm made origin place s s')
      fun _ s' => view.Changes (Counterparts calm (view.volume s) origin place) made s s' :=
  hends.mono (fun _ _ hend => hp.copies_trans hc hw hend hm) fun _ _ hend => hp.changes_trans hc hw hend hm

theorem of_changes (hp : Pair view s made full calm top source origin p place)
    (hc : view.Changes within made s s') (hw : ∀ w, within w → top <+: w)
    (ht : Target view s' made' p place) (hm : ∀ w, made' w → made w)
    (htame : ∀ below object, (view.volume s').object? (place ++ below) = some object →
      (view.volume s).seen false (place ++ below) = some object.content.outline ∨
        object.content = .directory ∧ (view.volume s).isDirectory (origin ++ below)) :
    Pair view s' made' full calm top source origin p place where
  toTarget := ht
  toBeside := hp.toBeside.of_bounded hp.sound hc.bounded hw hm
  stands hv := by
    have hsame := hp.vacant_origin hc hw []
    rw [List.append_nil] at hsame
    exact hp.stands (hsame.mp hv)
  alone hf := (hp.alone hf).of_bounded hp.sound hc.bounded
  ordinary below object ho := by
    have hseen := seen_false_of_seen (hp.seen_origin hc hw below)
    rw [seen_of_object? ho] at hseen
    obtain ⟨old, ho', hout⟩ := Option.map_eq_some_iff.mp hseen.symm
    exact (hp.ordinary below old ho').of_outline hout.symm
  tame below object ho := by
    have hdir (hd : (view.volume s).isDirectory (origin ++ below)) :
        (view.volume s').isDirectory (origin ++ below) :=
      (isDirectory_congr (hp.seen_origin hc hw below)).mpr hd
    rcases htame below object ho with hseen | ⟨hd, ho'⟩
    · obtain ⟨old, hold, hout⟩ := Option.map_eq_some_iff.mp hseen
      obtain ⟨hordinary, hclash⟩ := hp.tame below old hold
      refine ⟨fun hfile => (hordinary ?_).of_outline hout.symm, fun hcalm hd hstands => hdir (hclash hcalm ?_ ?_)⟩
      · rwa [← type?_congr (hp.seen_origin hc hw below)]
      · rw [hd] at hout
        exact Content.outline_eq_directory.mp hout
      · exact fun hv => hstands ((hp.vacant_origin hc hw below).mpr hv)
    · exact ⟨fun _ kind he => by simp [hd] at he, fun _ _ _ => hdir ho'⟩

theorem of_still (hp : Pair view s made full calm top source origin p place) (h : view.Still s s') :
    Pair view s' made full calm top source origin p place := by
  have hc : view.Changes (fun _ => False) made s s' := h.changes
  refine hp.of_changes hc (fun _ => False.elim) (hp.toTarget.of_still h) (fun _ hm => hm) fun below object ho => .inl ?_
  rw [h.1] at ho
  exact seen_of_object? ho

theorem of_thinned (hp : Pair view s made full calm top source origin p place)
    (hc : view.Changes within made s s') (hw : ∀ w, within w → place <+: w)
    (hthin : Thinned (view.volume s) (view.volume s')) :
    Pair view s' made full calm top source origin p place :=
  hp.of_changes hc (fun w hin => hp.inside.trans (hw w hin)) (hp.toTarget.of_thinned hc hw hthin)
    (fun _ hm => hm) fun _ _ ho => .inl (hthin.seen_of_object? ho)

/-- A directory that has been made for a directory is one to copy to. -/
theorem of_create (hp : Pair view s made full calm top source origin p place)
    (hc : view.Changes (· = place) made s s') (ht : Target view s' (fun _ => False) p place)
    (ho : (view.volume s).isDirectory origin) (hd : (view.volume s').isDirectory place) :
    Pair view s' (fun _ => False) full calm top source origin p place := by
  have hw : ∀ w, w = place → top <+: w := fun w he => he ▸ hp.inside
  refine hp.of_changes hc hw ht (fun _ => False.elim) fun below object hobject => ?_
  rcases List.eq_nil_or_concat below with rfl | ⟨_, _, hne⟩
  · rw [List.append_nil] at hobject ⊢
    exact .inr ⟨passable_of_isDirectory hd object hobject, by rwa [List.append_nil]⟩
  · have hout : place ++ below ≠ place := by simp [hne]
    have hmade : (view.volume s).Vacant (place ++ below) → ¬ made (place ++ below) := fun _ hm =>
      (hp.unmade _ hm).1 (hp.inside.trans (List.prefix_append _ _))
    have houtline := hc.bounded.outline_eq hp.sound hout hmade
    exact .inl (houtline ▸ seen_of_object? hobject)

/-- A name in a directory that is copied, while other names are worked on. -/
theorem child {names : List Name} (hp : Pair view s (fun _ => False) full calm top source origin p place)
    (ho : (view.volume s).isDirectory origin) (hd : (view.volume s).isDirectory place)
    (hn : Path.IsPlain name) (hstands : ¬ (view.volume s).Vacant (origin ++ [name]))
    (hc : view.Changes (Others (below place) names name) (fun _ => False) s s') :
    Pair view s' (fun _ => False) full calm top (source.join name) (origin ++ [name]) (p.join name)
      (place ++ [name]) := by
  have hw : ∀ w, Others (below place) names name w → top <+: w := fun w hw =>
    hp.inside.trans (prefix_of_others hw)
  have hsame : view.Changes (Others (below place) names name) (fun _ => False) s s := .refl s
  -- the name as it is now, and then after the work on the others
  have hnow : Pair view s (fun _ => False) full calm top (source.join name) (origin ++ [name])
      (p.join name) (place ++ [name]) := by
    refine ⟨hp.toTarget.child hd hn hsame, hp.toBeside.child ho hn, hstands, hp.alone, fun below => ?_,
      fun below => ?_⟩
    · rw [List.append_assoc]
      exact hp.ordinary _
    · rw [List.append_assoc, List.append_assoc]
      exact hp.tame _
  refine hnow.of_changes hc hw (hp.toTarget.child hd hn hc) (fun _ hm => hm) fun more object hobject => .inl ?_
  have hpre : below place name (place ++ [name] ++ more) := List.prefix_append _ _
  have houtline := hc.bounded.outline_eq hp.sound (not_below_others hpre) fun _ => id
  exact houtline ▸ seen_of_object? hobject

theorem changes_of_removes (hp : Pair view s made full calm top source origin p place)
    (hr : view.Removes place made s s') (hd : calm → ¬ (view.volume s).isDirectory place) :
    view.Changes (Counterparts calm (view.volume s) origin place) made s s' := by
  by_cases hcalm : calm
  · refine ⟨(hr.bounded.of_thinned hp.sound hr.thinned (hd hcalm)).mono (fun _ => ?_) fun _ _ hm => hm, hr.blind⟩
    exact counterparts_of_eq hp.stands
  · refine hr.toChanges.mono (fun w hw => ?_) fun _ hm => hm
    obtain ⟨below, rfl⟩ := hw
    exact ⟨below, rfl, fun hc => absurd hc hcalm⟩

end Pair

/-- Separate places make a pair. -/
theorem Pair.of_separate (h : (view.volume s).Separate source origin p top) (hw : Watched view s p top)
    (hsuited : (view.volume s).Suited origin top) (hstands : ¬ (view.volume s).Vacant origin)
    (halone : full → (view.volume s).Alone top)
    (hcalm : calm → ∀ below, (view.volume s).isDirectory (top ++ below) →
      ¬ (view.volume s).Vacant (origin ++ below) → (view.volume s).isDirectory (origin ++ below)) :
    Pair view s ((view.volume s).IsParent p) full calm top source origin p top where
  toTarget := by
    refine ⟨h.sound, h.foothold, fun target hl => ?_, hw⟩
    rcases h.resolved with hp | hr
    · exact absurd hp hl.not_passable
    · exact h.foothold.firm h.sound hr
  toBeside := h.beside
  stands := hstands
  alone := halone
  ordinary := hsuited.ordinary
  tame below object ho := by
    refine ⟨hsuited.regular below object ho, fun hc hd => hcalm hc below ?_⟩
    exact isDirectory_iff.mpr ⟨object, ho, hd⟩

/-! ## Copies of what is in a directory -/

theorem Others.mono {region region' : Name → Place → Prop} {names : List Name}
    (h : ∀ name w, region name w → region' name w) (hw : Others region names name w) :
    Others region' names name w := by
  obtain ⟨other, ho, hne, hin⟩ := hw
  exact ⟨other, ho, hne, h other w hin⟩

section Children

variable {names : List Name}

theorem others_of_counterparts
    (hc : view.Changes (Others (CounterpartsOf calm (view.volume s) origin place) names name) made s s') :
    view.Changes (Others (below place) names name) made s s' :=
  hc.mono (fun _ hw => hw.mono fun _ _ => Counterparts.isPrefix) fun _ hm => hm

theorem Pair.top_of_others (hp : Pair view s made full calm top source origin p place)
    (hw : Others (below place) names name w) : top <+: w :=
  hp.inside.trans (prefix_of_others hw)

/-- A name is still copied after other names have been. -/
theorem Pair.seen_of_others {s₁ s₂ : σ} {more : Place}
    (hp : Pair view s (fun _ => False) full calm top source origin p place)
    (hc₁ : view.Changes (Others (below place) names name) (fun _ => False) s s₁)
    (hc₂ : view.Changes within made s₁ s₂)
    (hcopied : Copied full (view.volume s₁) (origin ++ [name]) (place ++ [name]) (view.volume s₂))
    (hc₃ : view.Changes (Others (below place) names name) (fun _ => False) s₂ s')
    (hstands : ¬ (view.volume s).Vacant (origin ++ name :: more)) :
    (view.volume s').seen full (place ++ name :: more) = (view.volume s).seen full (origin ++ name :: more) := by
  have hs₁ := hc₁.bounded.sound hp.sound
  have hsame := hp.seen_origin hc₁ (fun _ => hp.top_of_others) (name :: more)
  have hassoc (w : Place) : w ++ name :: more = w ++ [name] ++ more := by simp
  rw [hassoc] at hstands hsame
  have hbefore : (view.volume s₂).seen full (place ++ [name] ++ more) =
      (view.volume s₁).seen full (origin ++ [name] ++ more) :=
    hcopied more fun hv => hstands ((seen_congr hp.sound hs₁ hsame).mp hv)
  have halone (hf : full) : (view.volume s₂).Alone top :=
    ((hp.alone hf).of_bounded hp.sound hc₁.bounded).of_bounded hs₁ hc₂.bounded
  have hafter : (view.volume s').seen full (place ++ [name] ++ more) =
      (view.volume s₂).seen full (place ++ [name] ++ more) :=
    hc₃.bounded.seen_eq (hc₂.bounded.sound hs₁) (not_below_others (List.prefix_append _ _)) (fun _ => id)
      halone fun _ => hp.top_of_others
  rw [hassoc, hassoc]
  exact hafter.trans (hbefore.trans hsame)

/-- A name in a directory that is copied, under the path by which it was read, while other names are worked on. -/
theorem Pair.of_isChild {child : Entry} (hp : Pair view s (fun _ => False) full calm top source origin p place)
    (ho : (view.volume s).isDirectory origin) (hd : (view.volume s).isDirectory place)
    (hchild : IsChild (view.volume s) source origin child name)
    (hc : view.Changes (Others (below place) names name) (fun _ => False) s s') :
    Pair view s' (fun _ => False) full calm top child.path (origin ++ [name]) (p.join name) (place ++ [name]) ∧
      (view.volume s').type? (origin ++ [name]) = some child.type := by
  obtain ⟨object, hobject, -⟩ := hchild.object
  have htype := type?_congr (hp.seen_origin hc (fun _ => hp.top_of_others) [name])
  rw [type?_eq_some.mpr hchild.object] at htype
  refine ⟨?_, htype⟩
  rw [hchild.path]
  exact hp.child ho hd hchild.plain (not_vacant_of_object? hobject) hc

end Children

/-- What a body does with a name in a directory that is copied: it copies what has the name. -/
def CopiesChild (view : Reading σ η) (full : Bool) (calm : Prop) (top origin : Place) (p : Path) (place : Place)
    (body : Entry → Action σ Unit) : Prop :=
  ∀ child name s, childOf p child = p.join name →
    Pair view s (fun _ => False) full calm top child.path (origin ++ [name]) (p.join name) (place ++ [name]) →
    (view.volume s).type? (origin ++ [name]) = some child.type →
    (body child).Ends s
      (fun _ s' => Copies view full calm (fun _ => False) (origin ++ [name]) (place ++ [name]) s s')
      fun _ s' => view.Changes (CounterpartsOf calm (view.volume s) origin place name) (fun _ => False) s s'

/-- If each name in a directory is copied, the directory is copied. -/
theorem ends_forM_pair (hp : Pair view s (fun _ => False) full calm top source origin p place)
    (ho : (view.volume s).isDirectory origin) (hd : (view.volume s).isDirectory place)
    {entries : List Entry} {body : Entry → Action σ Unit}
    (hall : List.Forall₂ (IsChild (view.volume s) source origin) entries ((view.volume s).names origin))
    (hbody : CopiesChild view full calm top origin p place body) :
    (entries.forM body).Ends s
      (fun _ s' => Copies view full calm (fun _ => False) origin place s s')
      fun _ s' => view.Changes (Counterparts calm (view.volume s) origin place) (fun _ => False) s s' := by
  have hwide {s' : σ} (hc : view.Changes (fun w => ∃ name ∈ (view.volume s).names origin,
      CounterpartsOf calm (view.volume s) origin place name w) (fun _ => False) s s') :
      view.Changes (Counterparts calm (view.volume s) origin place) (fun _ => False) s s' :=
    hc.mono (fun _ ⟨_, _, hw⟩ => hw.outward) fun _ hm => hm
  refine (ends_forM_children (CounterpartsOf calm (view.volume s) origin place)
    (fun name s₁ s₂ => Copied full (view.volume s₁) (origin ++ [name]) (place ++ [name]) (view.volume s₂))
    hall (hp.sound.distinct origin) ?_).mono (fun _ s' hend => ⟨hwide hend.1, ?_⟩) fun _ _ => hwide
  · intro child name s' hchild _ hc
    have hc := others_of_counterparts hc
    obtain ⟨hp', htype⟩ := hp.of_isChild ho hd hchild hc
    have hback {w : Place} (hw : CounterpartsOf calm (view.volume s') origin place name w) :
        CounterpartsOf calm (view.volume s) origin place name w := by
      refine hw.congr fun more hv => ?_
      rw [List.append_assoc] at hv ⊢
      exact (hp.vacant_origin hc (fun _ => hp.top_of_others) _).mpr hv
    refine (hbody child name s' (hchild.childOf p) hp' htype).mono (fun _ s'' hend => ⟨?_, hend.copied⟩)
      fun _ s'' hend => hend.mono (fun _ => hback) fun _ hm => hm
    exact hend.changes.mono (fun _ => hback) fun _ hm => hm
  · intro more hstands
    rcases more with _ | ⟨name, more⟩
    · have hd' := hend.1.bounded.isDirectory (fun ⟨name, _, hw⟩ =>
        not_concat_isPrefix place name hw.isPrefix) hd
      rw [List.append_nil, List.append_nil, seen_of_isDirectory hd', seen_of_isDirectory ho]
    · have hpre : origin ++ [name] <+: origin ++ name :: more := ⟨more, by simp⟩
      have hname : name ∈ (view.volume s).names origin := mem_names.mpr
        (isSome_number?_of_isPrefix hpre (Option.isSome_iff_ne_none.mpr hstands))
      obtain ⟨s₁, s₂, hc₁, hc₂, hcopied, hc₃⟩ := hend.2 name hname
      have hc₃ : view.Changes (Others (below place) ((view.volume s).names origin) name) (fun _ => False) s₂ s' :=
        hc₃.mono (fun _ hw => hw.mono fun _ _ => Counterparts.isPrefix) fun _ hm => hm
      exact hp.seen_of_others (others_of_counterparts hc₁) hc₂ hcopied hc₃ hstands

/-! ## Copies of entries -/

/-- A directory is made, and what is in the one to be copied is copied into it. -/
theorem Pair.ends_directory (hp : Pair view s made full calm top source origin p place)
    (h : Falters platform view) (ho : (view.volume s).isDirectory origin)
    (hc : view.Changes (· = place) made s s') (hr : Ready (view.volume s') made p place)
    {body : Entry → Action σ Unit} (hbody : CopiesChild view full calm top origin p place body) :
    (do create platform p
        (← children platform source).forM body).Ends s'
      (fun _ s'' => Copies view full calm made origin place s s'')
      fun _ s'' => view.Changes (Counterparts calm (view.volume s) origin place) made s s'' := by
  have hplace : ∀ w, w = place → Counterparts calm (view.volume s) origin place w := fun _ =>
    counterparts_of_eq hp.stands
  refine (hp.ends_create h hc hr).andThen (fun _ _ hc => hc.mono hplace fun _ hm => hm) ?_
  rintro - s₂ ⟨hc₂, hd₂, ht₂⟩
  have hp₂ := hp.of_create hc₂ ht₂ ho hd₂
  have ho₂ : (view.volume s₂).isDirectory origin := by
    rw [isDirectory_iff_type?, hp.type?_origin hc₂ fun w he => he ▸ hp.inside, ← isDirectory_iff_type?]
    exact ho
  refine (ends_children h ht₂.sound).andThen (fun _ _ hstill => ?_) ?_
  · exact (hc₂.trans hstill.changes).mono hplace fun _ hm => hm
  rintro entries s₃ ⟨hstill, directory, hreach, -, hall⟩
  obtain rfl := hp₂.toBeside.eq_of_reach hp₂.sound (fun _ _ hl => hl.not_passable (passable_of_isDirectory ho₂)) hreach
  rw [← hstill.1] at hall hd₂ ho₂
  have hc₃ := hc₂.trans hstill.changes
  exact hp.ends_after hc₃ hplace (fun _ => False.elim) (ends_forM_pair (hp₂.of_still hstill) ho₂ hd₂ hall hbody)

/-- A link is copied to where nothing is left of what was there. -/
theorem Pair.ends_symlink (hp : Pair view s made full calm top source origin p place)
    (h : Falters platform view) (hd : ¬ (view.volume s).isDirectory origin) :
    (do let destination ← platform.readlink source
        removeRecursive platform p
        platform.symlink destination p).Ends s
      (fun _ s' => Copies view full calm made origin place s s')
      fun _ s' => view.Changes (Counterparts calm (view.volume s) origin place) made s s' := by
  refine (h.readlink s source).andThen (fun _ _ hstill => hstill.changes) ?_
  rintro destination s₁ ⟨hstill, hread⟩
  obtain ⟨goal, hreach, hl⟩ := readlink_eq_ok hread
  obtain rfl := hp.toBeside.eq_of_reach hp.sound (fun hf => absurd hf Bool.false_ne_true) hreach
  have ht₁ := hp.toTarget.of_still hstill
  -- no directory is taken away if the work is calm
  have hclash : calm → ¬ (view.volume s).isDirectory place := by
    intro hcalm hplace
    obtain ⟨object, ho, hc⟩ := isDirectory_iff.mp hplace
    have htame := (hp.tame [] object (by rwa [List.append_nil])).2 hcalm hc
    rw [List.append_nil] at htame
    exact hd (htame hp.stands)
  refine ((Directory.ends_removeRecursive h ht₁.sound ht₁.foothold).mono (fun _ _ hend => hend.1)
    fun _ _ hend => ?_).bind ?_
  · exact hp.changes_of_removes (hstill.removes.trans hend) hclash
  · rintro - s₂ hremoves
    have ht₂ := ht₁.of_removes hremoves
    have hc₂ := hp.changes_of_removes (hstill.removes.trans hremoves) hclash
    refine (h.symlink s₂ destination p).mono (fun _ s₃ hlink => ?_) fun _ _ hstill => hc₂.trans hstill.changes
    obtain ⟨v, hlink, hbecomes⟩ := hlink
    obtain ⟨object, hc, hcreates⟩ := creates_of_symlink ht₂.sound hlink
    have hbounded : Bounded (Counterparts calm (view.volume s) goal place) made (view.volume s₂) v :=
      hcreates.bounded ht₂.sound fun goal' hreach' _ =>
        .inl (counterparts_of_eq hp.stands (ht₂.foothold.eq_of_reach ht₂.sound hreach'))
    refine ⟨hc₂.trans (hbecomes.changes hbounded), copied_of_seen hp.sound hd ?_⟩
    obtain ⟨goal', hreach', -, ho⟩ := hcreates.object? ht₂.sound
    obtain rfl := ht₂.foothold.eq_of_reach ht₂.sound hreach'
    rw [hbecomes.1, seen_of_links ⟨object, ho, hc⟩, seen_of_links hl]

/-- Where a file can be copied to, a file is in the way at most. -/
theorem Pair.regular (hp : Pair view s made full calm top source origin p place)
    (hr : Ready (view.volume s) made p place) (hreach : (view.volume s).reach true p = .ok place)
    (hd : ¬ (view.volume s).isDirectory place) (hf : (view.volume s).type? origin = some .file) :
    ∀ old, (view.volume s).object? place = some old → old.content.type = .file := by
  intro old hold
  have hordinary := (hp.tame [] old (by rwa [List.append_nil])).1
  rw [List.append_nil] at hordinary
  refine Content.type_eq_file (hordinary hf) ⟨fun hc => ?_, fun target hc => ?_⟩
  · exact hd (isDirectory_iff.mpr ⟨old, hold, hc⟩)
  · exact hr.no_links hreach target ⟨old, hold, hc⟩

/-- A file is copied over a file, or to where nothing is. -/
theorem Pair.ends_file (hp : Pair view s made full calm top source origin p place)
    (h : Falters platform view) (hr : Ready (view.volume s) made p place)
    (ho : (view.volume s).object? origin = some object) (hf : object.content.type = .file) :
    (do let _ ← platform.copyFile source p).Ends s
      (fun _ s' => Copies view full calm made origin place s s')
      fun _ s' => view.Changes (Counterparts calm (view.volume s) origin place) made s s' := by
  refine Ends.bind ((h.copyFile s source p).mono (fun _ s' hcopy => ?_)
    fun _ _ hstill => hstill.changes) fun _ _ hend => Ends.pure hend
  obtain ⟨v, hcopy, hbecomes⟩ := hcopy
  obtain ⟨goal, data, goal', hreach, hdata, hreach', hcopies⟩ := copies_of_copyFile hp.sound hcopy
  obtain rfl := hr.eq_of_reach hp.sound hreach'
  have hcontent (content : Content) (hc : object.content = content) : content.type = .file := hc ▸ hf
  have hlink : ∀ target, ¬ (view.volume s).Links origin target := by
    rintro target ⟨object', ho', hc⟩
    obtain rfl := Option.some.inj (ho.symm.trans ho')
    exact absurd (hcontent _ hc) (by simp [Content.type])
  have hd : ¬ (view.volume s).isDirectory origin := fun hd =>
    absurd (hcontent _ (passable_of_isDirectory hd object ho)) (by simp [Content.type])
  obtain rfl := hp.toBeside.eq_of_reach hp.sound (fun _ => hlink) hreach
  refine ⟨hbecomes.changes (hcopies.bounded (counterparts_of_eq hp.stands rfl)), copied_of_seen hp.sound hd ?_⟩
  have hregular := hp.regular hr hreach' hcopies.blocked (type?_eq_some.mpr ⟨object, ho, hf.symm⟩)
  obtain ⟨data', hdata', hsame⟩ := hcopies.file hregular
  rw [hbecomes.1, seen_of_content hdata', seen_of_content hdata]
  cases full with
  | false => rfl
  | true =>
    rw [hsame fun hn => ?_]
    -- a file with two names, one to copy from and one to copy to, would be emptied before it is read
    have hne : goal' ≠ goal := by
      rintro rfl
      exact hp.apart_origin hp.inside
    have ho' : (view.volume s).object? goal' = some object := by
      rw [Volume.object?, hn, ← Volume.object?, ho]
    exact hp.alone rfl goal' goal object hp.inside hne hn ho' hf

theorem ends_copyEntry_pair (h : Falters platform view) (levels : Nat)
    (hp : Pair view s made full calm top entry.path origin p place)
    (htype : (view.volume s).type? origin = some entry.type) :
    (copyEntry platform levels entry p).Ends s
      (fun _ s' => Copies view full calm made origin place s s')
      fun _ s' => view.Changes (Counterparts calm (view.volume s) origin place) made s s' := by
  induction levels generalizing s p origin place entry made with
  | zero => exact Ends.throw (.refl s)
  | succ levels ih =>
    have hplace : ∀ w, w = place → Counterparts calm (view.volume s) origin place w := fun _ =>
      counterparts_of_eq hp.stands
    rw [copyEntry]
    refine (hp.ends_unlinkSymlink h).andThen (fun _ _ hc => hc.mono hplace fun _ hm => hm) ?_
    rintro - s₁ ⟨hc₁, hthin₁, hr₁⟩
    have hp₁ := hp.of_thinned hc₁ (fun _ => eq_isPrefix) hthin₁
    have htype₁ := hp.type?_origin hc₁ fun w he => he ▸ hp.inside
    rw [htype] at htype₁
    obtain ⟨object, ho, hobject⟩ := type?_eq_some.mp htype₁
    cases he : entry.type with
    | directory =>
      refine hp.ends_directory h (isDirectory_iff_type?.mpr (he ▸ htype)) hc₁ hr₁ ?_
      intro child name s' hchild hp' htype'
      dsimp only
      rw [hchild]
      exact ih hp' htype'
    | special kind =>
      have hordinary := hp₁.ordinary [] object (by rwa [List.append_nil])
      rw [he] at hobject
      cases hc : object.content with
      | special kind => exact absurd hc (hordinary kind)
      | _ => simp [hc, Content.type] at hobject
    | symlink =>
      have hd : ¬ (view.volume s₁).isDirectory origin := by
        rw [isDirectory_iff_type?, htype₁, he]
        simp
      exact hp.ends_after hc₁ hplace (fun _ hm => hm) (hp₁.ends_symlink h hd)
    | file =>
      exact hp.ends_after hc₁ hplace (fun _ hm => hm) (hp₁.ends_file h hr₁ ho (hobject.symm.trans he))

/-! ## Trees brought up to date -/

/-- What is in the way of a copy is taken away, if it is a directory only in work that is not calm. -/
theorem Pair.ends_removeRecursive (hp : Pair view s made full calm top source origin p place)
    (h : Falters platform view) {dir : Bool} (hd : (view.volume s).isDirectory place = !dir)
    (hdir : dir = (view.volume s).isDirectory origin) :
    (removeRecursive platform p).Ends s
      (fun _ s' => view.Changes (Counterparts calm (view.volume s) origin place) made s s' ∧
        Pair view s' made full calm top source origin p place ∧ Unlinked (view.volume s') p place)
      fun _ s' => view.Changes (Counterparts calm (view.volume s) origin place) made s s' := by
  have hclash : calm → ¬ (view.volume s).isDirectory place := by
    intro hcalm hplace
    obtain ⟨object, ho, hc⟩ := isDirectory_iff.mp hplace
    have htame := (hp.tame [] object (by rwa [List.append_nil])).2 hcalm hc
    rw [List.append_nil] at htame
    rw [hplace, hdir, htame hp.stands] at hd
    exact absurd hd (by simp)
  refine ((hp.toTarget.ends_removeRecursive h).mono (fun _ s' hend => ?_) fun _ _ hend => ?_)
  · exact ⟨hp.changes_of_removes hend.1 hclash, hp.of_thinned hend.1.toChanges (fun _ hw => hw) hend.1.thinned,
      hend.2⟩
  · exact hp.changes_of_removes hend hclash

theorem ends_syncTree_pair (h : Falters platform view) (levels : Nat)
    (hp : Pair view s made full calm top source origin p place) (ho : (view.volume s).isDirectory origin)
    (hu : Unlinked (view.volume s) p place) :
    (syncTree platform levels source p).Ends s
      (fun _ s' => Copies view full calm made origin place s s')
      fun _ s' => view.Changes (Counterparts calm (view.volume s) origin place) made s s' := by
  induction levels generalizing s p origin place source made with
  | zero => exact Ends.throw (.refl s)
  | succ levels ih =>
    rw [syncTree]
    refine hp.ends_directory h ho (.refl s) (hp.ready hu) fun child name s₁ hchild hp₁ htype => ?_
    dsimp only
    rw [hchild]
    have hdir {s₂ : σ} (htype : (view.volume s₂).type? (origin ++ [name]) = some child.type) :
        child.isDirectory = (view.volume s₂).isDirectory (origin ++ [name]) := by
      rw [Bool.eq_iff_iff, isDirectory_iff_type?, htype, Option.some.injEq, Entry.isDirectory, beq_iff_eq]
    have hcopy {s₂ : σ} (hp₂ : Pair view s₂ (fun _ => False) full calm top child.path (origin ++ [name])
        (p.join name) (place ++ [name])) (htype : (view.volume s₂).type? (origin ++ [name]) = some child.type)
        (hu₂ : child.isDirectory → Unlinked (view.volume s₂) (p.join name) (place ++ [name])) :
        (if child.isDirectory then syncTree platform levels child.path (p.join name)
          else withLevels platform (p.join name) fun levels =>
            copyEntry platform levels child (p.join name)).Ends s₂
          (fun _ s₃ => Copies view full calm (fun _ => False) (origin ++ [name]) (place ++ [name]) s₂ s₃)
          fun _ s₃ => view.Changes (CounterpartsOf calm (view.volume s₂) origin place name) (fun _ => False) s₂ s₃ := by
      split
      case isTrue hd => exact ih hp₂ (hdir htype ▸ hd) (hu₂ hd)
      case isFalse => exact ends_withLevels fun levels => ends_copyEntry_pair h levels hp₂ htype
    refine (ends_namesSuch h hp₁.toTarget child.isDirectory).bind ?_
    rintro inTheWay s₂ ⟨hstill, hway⟩
    have hp₂ := hp₁.of_still hstill
    rw [← hstill.1] at hway htype
    have hnone : ∀ w, False → CounterpartsOf calm (view.volume s₁) origin place name w := fun _ => False.elim
    have hstart : view.Changes (fun _ => False) (fun _ => False) s₁ s₂ := hstill.changes
    split
    case isTrue htrue =>
      rw [if_pos htrue] at hway
      refine (hp₂.ends_removeRecursive h hway (hdir htype)).andThen (fun _ _ hend => ?_) ?_
      · exact hp₁.changes_trans hstart hnone hend fun _ hm => hm
      · rintro - s₃ ⟨hc₃, hp₃, hu₃⟩
        have htype₃ := hp₂.type?_origin hc₃ fun _ hw => hp₂.inside.trans hw.isPrefix
        rw [htype] at htype₃
        have hends := hp₂.ends_after hc₃ (fun _ hw => hw) (fun _ hm => hm) (hcopy hp₃ htype₃ fun _ => hu₃)
        exact hp₁.ends_after hstart hnone (fun _ hm => hm) hends
    case isFalse hfalse =>
      rw [if_neg hfalse] at hway
      exact hp₁.ends_after hstart hnone (fun _ hm => hm) (hcopy hp₂ htype hway)

end Bytework.Directory
