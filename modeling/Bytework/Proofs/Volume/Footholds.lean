import Bytework.Proofs.Volume.Bounds

/-!
# Footholds

A path from which work on a place can start: it leads to the place without passing it, so whatever
happens at the place and below does not change where the path leads.

* `Foothold`: such a path; `made` tells where directories may be missing on the way.
* `Foothold.of_leads`: a path that does not lead through its own place.
* `Foothold.of_bounded`: it lasts; `Foothold.join`: it reaches below a directory.
* `Foothold.eq_of_reach`, `Foothold.of_reach_parent`: where the path and its parents can be resolved to.
-/

namespace Bytework.Volume

variable {v v' : Volume} {within made made' : Place → Prop} {follow : Bool} {place goal : Place}
  {name : Name} {p q : Path}

/-- A path that leads to a place without passing it. Where its first names lead something stands, or
a directory may be made. -/
structure Foothold (v : Volume) (made : Place → Prop) (p : Path) (place : Place) : Prop where
  proper : place ≠ []
  leads : v.Leads (place <+: ·) false p place
  parents : ∀ names more, v.route p = names ++ more → more ≠ [] →
    ∃ w, Way v (place <+: ·) true [] names w ∧ ¬ place <+: w ∧ (made w ∨ ¬ v.Vacant w)

/-- Where the first names of a path lead. -/
def IsParent (v : Volume) (p : Path) (w : Place) : Prop :=
  ∃ names more, v.route p = names ++ more ∧ more ≠ [] ∧ Way v (fun _ => False) true [] names w

theorem not_concat_isPrefix (place : Place) (name : Name) : ¬ place ++ [name] <+: place := by
  intro h
  have hlength := h.length_le
  rw [List.length_append, List.length_singleton] at hlength
  omega

namespace Foothold

theorem of_leads (hp : place ≠ []) (h : v.Leads (place <+: ·) false p place) :
    Foothold v (v.IsParent p) p place where
  proper := hp
  leads := h
  parents names more hroute hmore := by
    have hroot : ¬ place <+: [] := fun h => hp (List.prefix_nil.mp h)
    rw [Leads, hroute] at h
    obtain ⟨w, hw, hnot⟩ := h.initial (fun w h => h.trans (List.dropLast_prefix w)) hroot hroot hmore
    exact ⟨w, hw, hnot, .inl ⟨names, more, hroute, hmore, hw.mono fun _ h => h.elim⟩⟩

theorem of_isParent {w : Place} (h : Foothold v made p place) (hp : v.IsParent p w) :
    ¬ place <+: w ∧ (v.Vacant w → made w) := by
  obtain ⟨names, more, hroute, hmore, hway⟩ := hp
  obtain ⟨w', hway', hnot, hm⟩ := h.parents names more hroute hmore
  obtain rfl := hway.unique hway'
  exact ⟨hnot, hm.resolve_right ∘ not_not.mpr⟩

theorem eq_of_reach (h : Foothold v made p place) (hs : v.Sound) (hr : v.reach false p = .ok goal) :
    goal = place :=
  (leads_of_reach hs hr).unique h.leads

theorem eq_of_reach_true (h : Foothold v made p place) (hs : v.Sound)
    (hlink : ∀ target, ¬ v.Links place target) (hr : v.reach true p = .ok goal) : goal = place :=
  (leads_of_reach hs hr).unique (h.leads.followed hlink)

theorem of_bounded (h : Foothold v made p place) (hs : v.Sound) (hb : Bounded within made' v v')
    (hw : ∀ w, within w → place <+: w)
    (hlink : ∀ target, v'.Links place target → v.Links place target) : Foothold v' made p place where
  proper := h.proper
  leads := hb.leads hs hw hlink h.leads
  parents names more hroute hmore := by
    rw [route, hb.cwd, ← route] at hroute
    obtain ⟨w, hway, hnot, hw'⟩ := h.parents names more hroute hmore
    have hout : ¬ within w := fun hin => hnot (hw w hin)
    refine ⟨w, ?_, hnot, hw'.imp_right (hb.not_vacant hout)⟩
    exact hway.congr (fun w hn => hb.passable hs fun hin => hn (hw w hin))
      (fun w target hn => hb.links fun hin => hn (hw w hin))
      fun target => hb.links_of_links hs hout

/-- If the path can be resolved, no directory is missing on the way. -/
theorem firm (h : Foothold v made p place) (hs : v.Sound) (hr : v.reach follow p = .ok goal) :
    Foothold v made' p place where
  proper := h.proper
  leads := h.leads
  parents names more hroute hmore := by
    obtain ⟨w, hw, hnot, -⟩ := h.parents names more hroute hmore
    have hlead := leads_of_reach hs hr
    rw [Leads, hroute] at hlead
    obtain ⟨w', hw', hstands⟩ := hlead.initial (fun _ => vacant_of_dropLast) hs.not_vacant_root hs.not_vacant_root hmore
    obtain rfl := hw.unique hw'
    exact ⟨w, hw, hnot, .inr hstands⟩

/-- A name below the path is a foothold for the place of that name. -/
theorem join (h : Foothold v made p place) (hd : v.isDirectory place) (hn : Path.IsPlain name) :
    Foothold v made (p.join name) (place ++ [name]) where
  proper := List.concat_ne_nil name place
  leads := by
    refine h.leads.join (fun w hw => (List.prefix_append _ _).trans hw)
      (not_concat_isPrefix place name) (passable_of_isDirectory hd) hn ?_
    exact fun hf => absurd hf Bool.false_ne_true
  parents names more hroute hmore := by
    have hmono : ∀ w : Place, place ++ [name] <+: w → place <+: w :=
      fun w hw => (List.prefix_append _ _).trans hw
    rw [route_join hn] at hroute
    obtain ⟨last, more', rfl⟩ : ∃ last more', more = more' ++ [last] := by
      obtain ⟨more', last, rfl⟩ := (List.eq_nil_or_concat more).resolve_left hmore
      exact ⟨last, more', List.concat_eq_append⟩
    rw [← List.append_assoc] at hroute
    obtain ⟨hroute, -⟩ := List.append_inj' hroute rfl
    rcases List.eq_nil_or_concat more' with rfl | ⟨_, _, hmore'⟩
    · rw [List.append_nil] at hroute
      subst hroute
      refine ⟨place, ?_, not_concat_isPrefix place name, .inr ?_⟩
      · have hlead : v.Leads (place <+: ·) true p place :=
          h.leads.followed fun _ hl => hl.not_passable (passable_of_isDirectory hd)
        exact hlead.mono hmono
      · exact not_vacant_of_isDirectory hd
    · obtain ⟨w, hw, hnot, hstands⟩ := h.parents names more' hroute (by simp [hmore'])
      exact ⟨w, hw.mono hmono, fun hpre => hnot (hmono w hpre), hstands⟩

/-- What is missing at the path or at a parent of it is missing at the place, or where directories may
be made. -/
theorem of_reach_parent (h : Foothold v made p place) (hs : v.Sound) (hnames : q.names <+: p.names)
    (ha : q.isAbsolute = p.isAbsolute) (hend : q = p ∨ q.asksDirectory = false) (hr : v.reach false q = .ok goal)
    (hv : v.Vacant goal) : goal = place ∨ made goal := by
  have hlink : ∀ target, ¬ v.Links goal target := fun _ hl =>
    hl.not_passable (hs.passable_iff.mpr (.inl hv))
  have hlead := leads_of_reach hs hr
  obtain ⟨more, hmore⟩ := hnames
  have hroute : v.route p = v.route q ++ more := by
    rw [route, route, ← hmore, ha]
    split
    · rfl
    · rw [List.append_assoc]
  rcases List.eq_nil_or_concat more with rfl | ⟨_, _, hne⟩
  · rw [List.append_nil] at hmore hroute
    obtain rfl | hend := hend
    · exact .inl (hlead.unique h.leads)
    have hasks : v.asks q = false := by rw [asks, hend, Bool.and_false]
    have hlead' : v.Leads (place <+: ·) (v.asks p) q place := by
      rw [Leads, hmore, ← hroute, follows, hasks, Bool.or_false]
      exact h.leads
    exact .inl ((hlead.followed hlink).unique hlead')
  · obtain ⟨w, hw, -, hm⟩ := h.parents _ more hroute (by simp [hne])
    have hfollow : v.Leads v.Vacant true q goal := hlead.followed hlink
    obtain rfl := hfollow.unique hw
    exact .inr (hm.resolve_right (not_not.mpr hv))

end Foothold

end Bytework.Volume
