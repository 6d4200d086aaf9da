import Bytework.Proofs.Volume.Effects

/-!
# Trees that are carried

What `rename` does to what stands at two places of which neither is below the other.

* `Carried`: what stood at one place stands at another one, and nothing is left at the first.
* `carried_carry`: a tree at a new place.
* **`carried_of_rename`**: what a path names, carried to another path.
-/

namespace Bytework.Volume

variable {v v' : Volume} {parent place origin top : Place} {last name : Name} {p q : Path}
  {shut shut' : Place → Prop}

/-- What stood at one place stands at another one, and nothing is left at the first. -/
structure Carried (v : Volume) (origin top : Place) (v' : Volume) : Prop where
  object : ∀ below, v'.object? (top ++ below) = v.object? (origin ++ below)
  vacant : v'.Vacant origin

theorem carried_carry (hstands : ¬ v.Vacant (parent ++ [last])) (hd : (v.number? place).isSome)
    (hv : v.Vacant (place ++ [name])) (hbelow : ¬ place ++ [name] <+: parent ++ [last])
    (habove : ¬ parent ++ [last] <+: place ++ [name]) :
    v.Carried (parent ++ [last]) (place ++ [name]) (v.carry (parent ++ [last]) (place ++ [name])) := by
  obtain ⟨branch, hbranch⟩ := Option.isSome_iff_exists.mp
    (Option.isSome_map.symm.trans (Option.isSome_iff_ne_none.mpr hstands))
  have hcarry : v.carry (parent ++ [last]) (place ++ [name]) =
      { v with entries := (v.drop (parent ++ [last])).entries.put branch (place ++ [name]) } := by
    rw [carry, hbranch]
    rfl
  have hd' : ((v.drop (parent ++ [last])).number? place).isSome := by
    rwa [number?_drop, if_neg fun h => habove (h.trans (List.prefix_append _ _))]
  have hv' : (v.drop (parent ++ [last])).number? (place ++ [name]) = none := by
    rwa [number?_drop, if_neg habove]
  obtain ⟨base, hb, hnone⟩ := exists_branch?_of_vacant hd' hv'
  constructor
  · intro below
    have hnew : (v.carry (parent ++ [last]) (place ++ [name])).branch? (place ++ [name] ++ below) =
        v.branch? (parent ++ [last] ++ below) := by
      rw [branch?_append v, hbranch, hcarry]
      exact Branch.at?_put branch hb hnone below
    rw [object?, object?, number?, number?, hnew, hcarry]
  · obtain ⟨rest, -, hrest⟩ := Branch.at?_change (Branch.descends_put branch) 0
      (v.drop (parent ++ [last])).entries hbelow
    have hgone := branch?_drop (v := v) parent last []
    rw [List.append_nil] at hgone
    rw [Vacant, number?, hcarry]
    have hgone : (Branch.mk 0 (v.drop (parent ++ [last])).entries).at? (parent ++ [last]) = none := hgone
    rw [hgone, Option.map_none] at hrest
    exact congrArg (Option.map _) hrest

theorem Carried.of_drop (h : (v.drop (place ++ [name])).Carried origin (place ++ [name]) v')
    (hbelow : ¬ place ++ [name] <+: origin) (habove : ¬ origin <+: place ++ [name]) :
    v.Carried origin (place ++ [name]) v' := by
  refine ⟨fun below => (h.object below).trans ?_, h.vacant⟩
  have hout : ¬ place ++ [name] <+: origin ++ below := fun hpre =>
    (List.prefix_or_prefix_of_prefix hpre (List.prefix_append origin below)).elim hbelow habove
  exact (thinned_drop place name).object?_eq (by rw [number?_drop, if_neg hout])

theorem passed_of_eq_ok {ε α β : Type} {c : Prop} [Decidable c] {e : ε} {f : α → Except ε β} {x : Except ε β}
    {b : β} (h : (if c then throw e >>= f else x) = .ok b) : ¬ c ∧ x = .ok b := by
  split at h
  · obtain ⟨_, h, -⟩ := exists_of_bind_eq_ok h
    exact absurd h throw_ne_ok
  case isFalse hc => exact ⟨hc, h⟩

theorem eq_directory_of_checkReplace {source target : Object} (h : v.checkReplace source target place = .ok ())
    (hc : source.content = .directory) : target.content = .directory := by
  cases htarget : target.content <;> simp_all [checkReplace]

/-- What a `rename` that succeeds has found, and what it makes of it: nothing if both paths name one object. -/
theorem rename_eq_ok (hs : v.Sound) (h : v.rename p q = .ok v') :
    ∃ old new, v.reach false p = .ok old ∧ v.reach false q = .ok new ∧ ¬ v.Vacant old ∧
      (v.Vacant new ∧ v' = v.carry old new ∨ ¬ v.Vacant new ∧
        (v.number? old = v.number? new ∧ v' = v ∨ v' = (v.drop new).carry old new)) := by
  obtain ⟨old, hold, h⟩ := exists_of_bind_eq_ok h
  obtain ⟨new, hnew, h⟩ := exists_of_bind_eq_ok h
  obtain ⟨-, h⟩ := passed_of_eq_ok h
  split at h
  case h_1 => exact absurd h throw_ne_ok
  case h_2 source hobject =>
    obtain ⟨hasks, h⟩ := passed_of_eq_ok h
    obtain ⟨-, h⟩ := passed_of_eq_ok h
    have hasked (ha : v.asks p ∨ v.asks q) : source.content = .directory := by
      rw [Bool.and_eq_true, not_and, Bool.or_eq_true] at hasks
      simpa using hasks ha
    have hsource : v.reach false p = .ok old := by
      refine reach_of_seat hs hold fun ha object ho => ?_
      obtain rfl := Option.some.inj (hobject.symm.trans ho)
      exact hasked (.inl ha)
    refine ⟨old, new, hsource, ?_⟩
    split at h
    case h_1 hnone =>
      obtain rfl := Except.ok.inj h
      have hv := hs.object?_eq_none.mp hnone
      have htarget := reach_of_seat hs hnew fun _ => hs.passable_iff.mpr (.inl hv)
      exact ⟨htarget, not_vacant_of_object? hobject, .inl ⟨hv, rfl⟩⟩
    case h_2 target hobject' =>
      obtain ⟨-, h⟩ := passed_of_eq_ok h
      have hstands := not_vacant_of_object? hobject'
      have htarget (hc : source.content = .directory → target.content = .directory) : v.reach false q = .ok new := by
        refine reach_of_seat hs hnew fun ha object ho => ?_
        obtain rfl := Option.some.inj (hobject'.symm.trans ho)
        exact hc (hasked (.inr ha))
      split at h
      case isTrue hsame =>
        obtain rfl := Except.ok.inj h
        refine ⟨htarget fun hc => ?_, not_vacant_of_object? hobject, .inr ⟨hstands, .inl ⟨hsame, rfl⟩⟩⟩
        rw [Volume.object?, hsame, ← Volume.object?, hobject'] at hobject
        rw [Option.some.inj hobject, hc]
      case isFalse =>
        obtain ⟨⟨⟩, hcheck, h⟩ := exists_of_bind_eq_ok h
        obtain rfl := Except.ok.inj h
        exact ⟨htarget (eq_directory_of_checkReplace hcheck), not_vacant_of_object? hobject,
          .inr ⟨hstands, .inr rfl⟩⟩

/-- What a `rename` that succeeds does. Two names of one object are left as they are. -/
theorem carried_of_rename (hs : v.Sound) (hsource : v.Leads shut false p origin)
    (htarget : v.Leads shut' false q top) (hbelow : ¬ top <+: origin) (habove : ¬ origin <+: top)
    (h : v.rename p q = .ok v') : v.Carried origin top v' ∨ v' = v ∧ v.number? origin = v.number? top := by
  obtain ⟨old, new, hold, hnew, hstands, hend⟩ := rename_eq_ok hs h
  obtain rfl := (leads_of_reach hs hold).unique hsource
  obtain rfl := (leads_of_reach hs hnew).unique htarget
  obtain ⟨parent, last, rfl⟩ : ∃ parent last, old = parent ++ [last] :=
    (List.eq_nil_or_concat' old).resolve_left fun he => habove (he ▸ List.nil_prefix)
  obtain ⟨place, name, rfl⟩ : ∃ place name, new = place ++ [name] :=
    (List.eq_nil_or_concat' new).resolve_left fun he => hbelow (he ▸ List.nil_prefix)
  rcases hend with ⟨hv, rfl⟩ | ⟨hstands', ⟨hsame, rfl⟩ | rfl⟩
  · obtain ⟨directory, name', he, hd, -⟩ := exists_of_reach_vacant hs hnew hv
    obtain ⟨rfl, -⟩ := List.append_inj' he rfl
    exact .inl (carried_carry hstands (isSome_number?_of_isDirectory hd) hv hbelow habove)
  · exact .inr ⟨rfl, hsame⟩
  · have hd := hs.enclosed (Option.isSome_iff_ne_none.mpr hstands')
    refine .inl (Carried.of_drop (carried_carry ?_ ?_ ?_ hbelow habove) hbelow habove)
    · rwa [Vacant, number?_drop, if_neg hbelow]
    · rw [number?_drop, if_neg (not_concat_isPrefix place name)]
      exact isSome_number?_of_isDirectory hd
    · rw [Vacant, number?_drop, if_pos (List.prefix_refl _)]

end Bytework.Volume
