import Bytework.Proofs.Volume.Footholds

/-!
# Paths that are tied to their places

Work below a directory may change what a path to another directory passes. What is said here keeps such a path
from leading anywhere else: it leads to its place or it does not lead to a directory at all.

* `Grounded`: a path of a directory that does not pass what is beneath it; it is a foothold for every name.
* `Contained`: a change that brings neither links near a place nor anything deep below it.
* **`Tethered`**: after such changes a path leads to its place at most; `tethered_of_leads`, `Tethered.join`.
-/

namespace Bytework.Volume

variable {v v' v'' : Volume} {within within' : Place → Prop} {origin top place w : Place} {height : Nat}
  {name : Name} {p : Path} {follow : Bool}

/-- A place is below another one. -/
def Beneath (place w : Place) : Prop := place <+: w ∧ w ≠ place

theorem not_beneath_self : ¬ Beneath place place := fun h => h.2 rfl

theorem beneath_of_name (h : place ++ [name] <+: w) : Beneath place w := by
  refine ⟨(List.prefix_append _ _).trans h, ?_⟩
  rintro rfl
  exact not_concat_isPrefix _ _ h

theorem Beneath.of_dropLast (h : Beneath place w.dropLast) : Beneath place w := by
  refine ⟨h.1.trans w.dropLast_prefix, ?_⟩
  rintro rfl
  exact h.2 (h.1.eq_of_length_le w.dropLast_prefix.length_le).symm

/-! ## A directory to work in -/

/-- A path leads to a directory over what exists, and passes nothing beneath it. -/
structure Grounded (v : Volume) (p : Path) (place : Place) : Prop where
  directory : v.isDirectory place
  leads : v.Leads (fun w => Beneath place w ∨ v.Vacant w) true p place

namespace Grounded

theorem of_leads (hd : v.isDirectory place) (hl : v.Leads (Beneath place) true p place)
    (hv : v.Leads v.Vacant true p w) : v.Grounded p place :=
  ⟨hd, Way.both hl hv⟩

theorem of_bounded (h : v.Grounded p place) (hs : v.Sound) (hb : Bounded (Beneath place) (fun _ => False) v v') :
    v'.Grounded p place := by
  refine ⟨hb.isDirectory not_beneath_self h.directory, ?_⟩
  have hleads : v'.Leads (fun w => Beneath place w ∨ v.Vacant w) true p place :=
    hb.leads hs (fun _ hw => .inl hw) (fun _ => hb.links_of_links hs not_beneath_self) h.leads
  refine hleads.mono fun w hw => ?_
  by_contra hout
  rw [not_or] at hout
  exact hb.not_vacant hout.1 hout.2 (hw.resolve_left hout.1)

/-- Names in the directory are footholds, and no directory is missing on the way to them. -/
theorem foothold (h : v.Grounded p place) (hs : v.Sound) (hn : Path.IsPlain name) :
    Foothold v (fun _ => False) (p.join name) (place ++ [name]) where
  proper := List.concat_ne_nil name place
  leads := h.leads.join (fun _ hw => .inl (beneath_of_name hw)) (not_concat_isPrefix place name)
    (passable_of_isDirectory h.directory) hn fun hf => absurd hf Bool.false_ne_true
  parents names more hroute hmore := by
    rw [route_join hn] at hroute
    obtain ⟨more', last, rfl⟩ := (List.eq_nil_or_concat more).resolve_left hmore
    rw [List.concat_eq_append, ← List.append_assoc] at hroute
    obtain ⟨hroute, -⟩ := List.append_inj' hroute rfl
    have hmono : ∀ w, place ++ [name] <+: w → Beneath place w ∨ v.Vacant w :=
      fun w hw => .inl (beneath_of_name hw)
    have hlead := h.leads
    rw [Leads, follows_true, Bool.true_or, hroute] at hlead
    rcases List.eq_nil_or_concat more' with rfl | ⟨_, _, hne⟩
    · rw [List.append_nil] at hlead
      have hstands := not_vacant_of_isDirectory h.directory
      exact ⟨place, hlead.mono hmono, not_concat_isPrefix place name, .inr hstands⟩
    · have hup : ∀ w : Place, Beneath place w.dropLast ∨ v.Vacant w.dropLast → Beneath place w ∨ v.Vacant w :=
        fun w hw => hw.imp Beneath.of_dropLast vacant_of_dropLast
      have hshut : ¬ (Beneath place [] ∨ v.Vacant []) := by
        rintro (hb | hv)
        · exact hb.2 (List.prefix_nil.mp hb.1).symm
        · exact hs.not_vacant_root hv
      obtain ⟨w, hw, hout⟩ := hlead.initial hup hshut hshut (by simp [hne])
      rw [not_or] at hout
      exact ⟨w, hw.mono hmono, fun hpre => hout.1 (beneath_of_name hpre), .inr hout.2⟩

end Grounded

/-! ## Changes near a place -/

/-- A place is at, above or below another one. -/
def Near (origin w : Place) : Prop := w <+: origin ∨ origin <+: w

/-- Nothing stands deeper below a place. -/
def Shallow (v : Volume) (origin : Place) (height : Nat) : Prop :=
  ∀ below, ¬ v.Vacant (origin ++ below) → below.length ≤ height

/-- A change that brings no link near a place, and nothing deep below it. -/
structure Contained (origin : Place) (height : Nat) (within : Place → Prop) (v v' : Volume) : Prop where
  bounded : Bounded within (fun _ => False) v v'
  links : ∀ w target, Near origin w → v'.Links w target → v.Links w target
  shallow : v.Shallow origin height → v'.Shallow origin height

namespace Contained

theorem refl (v : Volume) : Contained origin height within v v := ⟨.refl v, fun _ _ _ => id, id⟩

theorem trans (h : Contained origin height within v v') (h' : Contained origin height within v' v'') :
    Contained origin height within v v'' :=
  ⟨h.bounded.trans h'.bounded, fun w target hn hl => h.links w target hn (h'.links w target hn hl),
    h'.shallow ∘ h.shallow⟩

theorem mono (h : Contained origin height within v v') (hw : ∀ w, within w → within' w) :
    Contained origin height within' v v' :=
  ⟨h.bounded.mono hw fun _ _ => id, h.links, h.shallow⟩

theorem of_thinned (hb : Bounded within (fun _ => False) v v') (ht : Thinned v v') :
    Contained origin height within v v' :=
  ⟨hb, fun _ _ _ => ht.links, fun h below hv => h below fun hvacant => hv (ht.vacant hvacant)⟩

/-- A further change at one place, which does not come to be a new link if it is near. -/
theorem spot (h : Contained origin height within v v') (hw : within place) (hs : v'.Sound)
    (hb : Bounded (· = place) (fun _ => False) v' v'')
    (hlinks : ∀ target, Near origin place → v''.Links place target → v.Links place target)
    (hheight : ∀ below, origin ++ below = place → below.length ≤ height) :
    Contained origin height within v v'' where
  bounded := h.bounded.trans (hb.mono (fun _ he => he ▸ hw) fun _ _ => id)
  links w target hn hl := by
    by_cases he : w = place
    · subst he
      exact hlinks target hn hl
    · exact h.links w target hn (hb.links_of_links hs he hl)
  shallow hshallow below hv := by
    by_cases he : origin ++ below = place
    · exact hheight below he
    · refine h.shallow hshallow below fun hvacant => hv ?_
      exact ((hb.outside _ he).resolve_right fun hnew => hnew.2.1).trans hvacant

theorem downward (h : Contained origin height (· = place) v v') : Contained origin height (place <+: ·) v v' :=
  h.mono fun _ he => he ▸ List.prefix_refl _

end Contained

/-! ## Paths that lead nowhere else -/

/-- After contained changes beneath a place, a path leads to one place at most. -/
def Tethered (v : Volume) (origin : Place) (height : Nat) (top : Place) (p : Path) (w : Place) : Prop :=
  ∀ v', Contained origin height (Beneath top) v v' → ∀ goal, v'.Leads v'.Vacant true p goal → goal = w

/-- A path is tied to a directory near which nothing is passed that may be changed. -/
theorem tethered_of_leads (hs : v.Sound) (hd : v.isDirectory origin)
    (hl : v.Leads (fun w => Beneath top w ∧ ¬ w <+: origin) true p origin) : v.Tethered origin height top p origin := by
  intro v' hc goal hgoal
  rw [Leads, follows_true, Bool.true_or] at hl hgoal
  rw [route, hc.bounded.cwd, ← route] at hgoal
  refine (hl.retrace ?_ ?_ (fun target => hc.links origin target (.inl (List.prefix_refl _))) hgoal).symm
  · intro w target hw hp hlink
    by_cases hnear : w <+: origin
    · exact (hc.links w target (.inl hnear) hlink).not_passable hp
    · have hout : ¬ Beneath top w := fun hb => hw ⟨hb, hnear⟩
      exact (hc.bounded.links_of_links hs hout hlink).not_passable hp
  · intro w target hw hlink
    refine hc.bounded.links (fun hb => ?_) hlink
    -- above a directory are directories
    have hnear : w <+: origin := by
      by_contra hnear
      exact hw ⟨hb, hnear⟩
    exact hlink.not_passable (passable_of_isDirectory (hs.isDirectory_of_isPrefix hnear hd))

namespace Tethered

theorem of_contained (h : v.Tethered origin height top p w) (hc : Contained origin height (Beneath top) v v') :
    v'.Tethered origin height top p w :=
  fun v'' hc' => h v'' (hc.trans hc')

theorem eq_of_reach (h : v.Tethered origin height top p w) (hs : v.Sound) {goal : Place}
    (hr : v.reach true p = .ok goal) : goal = w :=
  h v (.refl v) goal (leads_of_reach hs hr)

theorem way_of_reach_join (h : v.Tethered origin height top p w) (hs : v.Sound) (hn : Path.IsPlain name)
    {goal : Place} (hl : v.Leads v.Vacant follow (p.join name) goal) : Way v v.Vacant follow w [name] goal := by
  have hempty : (p.names ++ [name]).isEmpty = false := by simp
  rw [Leads, route_join hn, follows_join hn, Path.names_join hn, hempty, Bool.or_false] at hl
  obtain ⟨w', hw', -⟩ := hl.initial (fun _ => vacant_of_dropLast) hs.not_vacant_root hs.not_vacant_root
    (List.cons_ne_nil _ _)
  obtain rfl := h v (.refl v) w' (by rw [Leads, follows_true, Bool.true_or]; exact hw')
  exact hw'.rest hl (List.cons_ne_nil _ _)

theorem eq_of_reach_join (h : v.Tethered origin height top p w) (hs : v.Sound) (hn : Path.IsPlain name)
    {goal : Place} (hr : v.reach false (p.join name) = .ok goal) : goal = w ++ [name] := by
  cases h.way_of_reach_join hs hn (leads_of_reach hs hr) with
  | up => exact absurd rfl hn.2.2.1
  | enter _ ha => exact absurd rfl ha
  | arrive => rfl
  | turn _ ha => exact absurd (ha.resolve_left (absurd rfl)) Bool.false_ne_true

/-- The path of a directory in the directory is tied to it. -/
theorem join (h : v.Tethered origin height top p w) (hs : v.Sound) (hnear : origin <+: w)
    (hd : v.isDirectory (w ++ [name])) (hn : Path.IsPlain name) :
    v.Tethered origin height top (p.join name) (w ++ [name]) := by
  intro v' hc goal hgoal
  cases (h.of_contained hc).way_of_reach_join (hc.bounded.sound hs) hn hgoal with
  | up => exact absurd rfl hn.2.2.1
  | enter _ ha => exact absurd rfl ha
  | arrive => rfl
  | @turn _ _ _ _ target _ _ _ hl =>
    have hlink := hc.links _ target (.inr (hnear.trans (List.prefix_append _ _))) hl
    exact absurd (passable_of_isDirectory hd) hlink.not_passable

end Tethered

end Bytework.Volume
