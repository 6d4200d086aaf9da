import Bytework.Proofs.Path.Names
import Bytework.Volume.Calls
import Mathlib.Data.List.Basic

/-!
# What stands where

What a change of a volume leaves at each place.

* `Branch.Descends`: what making and taking away have in common; `Branch.at?_change`.
* **`number?_create`**, **`number?_drop`**: the entries after one is made or taken away.
* `nodup_names_create`, `nodup_names_drop`: names stay distinct.
-/

namespace Bytework

/-! ## Branches -/

namespace Branch

/-- A change of a forest that descends along a place and touches one name at its end. -/
structure Descends (change : Place → Forest → Forest) : Prop where
  nil : ∀ forest, change [] forest = forest
  one : ∀ {name other} forest, name ≠ other → (change [name] forest).find? other = forest.find? other
  step : ∀ name next below forest,
    change (name :: next :: below) forest = forest.modify name (change (next :: below))

theorem descends_put (branch : Branch) : Descends (Forest.put branch) where
  nil _ := rfl
  one forest h := by simp [Forest.put, Forest.find?_add, h]
  step _ _ _ _ := rfl

theorem descends_drop : Descends Forest.drop where
  nil _ := rfl
  one forest h := by simp [Forest.drop, Forest.find?_erase, h]
  step _ _ _ _ := rfl

variable {change : Place → Forest → Forest}

/-- On the way to the place of a change only what is below changes. -/
theorem at?_on_way (hc : Descends change) (number : Nat) (forest : Forest) (way : Place)
    {rest : Place} (hrest : rest ≠ []) :
    (Branch.mk number (change (way ++ rest) forest)).at? way =
      ((Branch.mk number forest).at? way).map fun b => ⟨b.number, change rest b.inner⟩ := by
  induction way generalizing number forest with
  | nil => rfl
  | cons name way ih =>
    obtain ⟨next, below, hnext⟩ :=
      List.exists_cons_of_ne_nil (List.append_ne_nil_of_right_ne_nil way hrest)
    simp only [List.cons_append, at?]
    rw [hnext, hc.step, Forest.find?_modify, if_pos rfl, ← hnext]
    cases forest.find? name with
    | none => rfl
    | some b => exact ih b.number b.inner

/-- Off the way to the place of a change nothing changes. -/
theorem at?_off_way (hc : Descends change) (number : Nat) (forest : Forest) {place other : Place}
    (ho : ¬ place <+: other) (hp : ¬ other <+: place) :
    (Branch.mk number (change place forest)).at? other = (Branch.mk number forest).at? other := by
  induction place generalizing number forest other with
  | nil => exact absurd List.nil_prefix ho
  | cons name place ih =>
    cases other with
    | nil => exact absurd List.nil_prefix hp
    | cons name' other =>
      by_cases h : name = name'
      · subst h
        cases place with
        | nil => exact absurd (List.cons_prefix_cons.mpr ⟨rfl, List.nil_prefix⟩) ho
        | cons next below =>
          simp only [at?]
          rw [hc.step, Forest.find?_modify, if_pos rfl]
          cases forest.find? name with
          | none => rfl
          | some b =>
            exact ih b.number b.inner (fun h => ho (List.cons_prefix_cons.mpr ⟨rfl, h⟩))
              fun h => hp (List.cons_prefix_cons.mpr ⟨rfl, h⟩)
      · have hfind : (change (name :: place) forest).find? name' = forest.find? name' := by
          cases place with
          | nil => exact hc.one forest h
          | cons next below => rw [hc.step, Forest.find?_modify, if_neg h]
        simp only [at?, hfind]

/-- What stands at a place that is neither the place of a change nor below it. -/
theorem at?_change (hc : Descends change) (number : Nat) (forest : Forest) {place other : Place}
    (h : ¬ place <+: other) :
    ∃ rest, (rest = [] ∨ place = other ++ rest) ∧
      (Branch.mk number (change place forest)).at? other =
        ((Branch.mk number forest).at? other).map fun b => ⟨b.number, change rest b.inner⟩ := by
  by_cases hp : other <+: place
  · obtain ⟨rest, rfl⟩ := hp
    have hne : rest ≠ [] := by
      rintro rfl
      exact h (by simp)
    exact ⟨rest, .inr rfl, at?_on_way hc _ _ _ hne⟩
  · refine ⟨[], .inl rfl, ?_⟩
    rw [at?_off_way hc _ _ h hp]
    simp [hc.nil]

theorem at?_put {number : Nat} {forest : Forest} {place : Place} {name : Name} {base : Branch} (branch : Branch)
    (hb : (Branch.mk number forest).at? place = some base) (hnone : base.inner.find? name = none)
    (below : Place) :
    (Branch.mk number (forest.put branch (place ++ [name]))).at? (place ++ [name] ++ below) =
      branch.at? below := by
  rw [at?_append, at?_append, at?_on_way (descends_put _) _ _ _ (List.cons_ne_nil _ _), hb]
  simp [at?, Forest.put, Forest.find?_add, hnone]

end Branch

namespace Forest

theorem mem_names {name : Name} {forest : Forest} :
    name ∈ forest.names ↔ (forest.find? name).isSome := by
  induction forest with
  | empty => simp [names, find?]
  | entry other number inner rest _ ih =>
    by_cases h : other = name <;> simp [names, find?, h, ih]
    exact fun he => absurd he.symm h

theorem names_add (name : Name) (branch : Branch) (forest : Forest) :
    (forest.add name branch).names = forest.names ++ [name] := by
  induction forest with
  | empty => rfl
  | entry other number inner rest _ ih => simp [add, names, ih]

theorem names_erase_sublist (name : Name) (forest : Forest) :
    (forest.erase name).names.Sublist forest.names := by
  induction forest with
  | empty => exact List.Sublist.refl _
  | entry other number inner rest _ ih =>
    rw [erase]
    split
    · exact ih.cons _
    · exact ih.cons_cons _

theorem names_modify (name : Name) (change : Forest → Forest) (forest : Forest) :
    (forest.modify name change).names = forest.names := by
  induction forest with
  | empty => rfl
  | entry other number inner rest _ ih =>
    rw [modify]
    split
    · rfl
    · simp [names, ih]

end Forest

namespace Volume

variable {v : Volume} {place other : Place} {name : Name} {number : Nat} {object : Object}

/-! ## Entries -/

theorem branch?_append (v : Volume) (place below : Place) :
    v.branch? (place ++ below) = (v.branch? place).bind (·.at? below) :=
  Branch.at?_append _ _ _

theorem number?_root (v : Volume) : v.number? [] = some 0 := rfl

theorem isSome_number?_of_isPrefix (h : place <+: other) (hs : (v.number? other).isSome) :
    (v.number? place).isSome := by
  obtain ⟨below, rfl⟩ := h
  simp only [number?, branch?_append, Option.isSome_map] at hs ⊢
  cases hb : v.branch? place with
  | none => simp [hb] at hs
  | some b => rfl

theorem number?_append_eq_none (below : Place) (h : v.number? place = none) :
    v.number? (place ++ below) = none := by
  by_contra hne
  have hs := isSome_number?_of_isPrefix (List.prefix_append place below) (Option.isSome_iff_ne_none.mpr hne)
  simp [h] at hs

theorem mem_names : name ∈ v.names place ↔ (v.number? (place ++ [name])).isSome := by
  rw [names, number?, branch?_append, Option.isSome_map]
  cases v.branch? place with
  | none => simp
  | some b =>
    simp only [Option.elim_some, Option.bind_some, Branch.at?, Forest.mem_names]
    cases b.inner.find? name <;> rfl

theorem object?_eq_some :
    v.object? place = some object ↔
      ∃ number, v.number? place = some number ∧ v.objects[number]? = some object :=
  Option.bind_eq_some_iff

theorem mem_objects (ho : v.object? place = some object) : object ∈ v.objects.toList := by
  obtain ⟨number, -, hobject⟩ := object?_eq_some.mp ho
  exact Array.mem_toList_iff.mpr (Array.mem_of_getElem? hobject)

theorem exists_branch?_of_vacant (hd : (v.number? place).isSome) (hv : v.number? (place ++ [name]) = none) :
    ∃ branch, v.branch? place = some branch ∧ branch.inner.find? name = none := by
  obtain ⟨b, hb⟩ := Option.isSome_iff_exists.mp (Option.isSome_map.symm.trans hd)
  refine ⟨b, hb, ?_⟩
  rw [number?, branch?_append, hb] at hv
  cases hf : b.inner.find? name with
  | none => rfl
  | some b' => simp [Branch.at?, hf] at hv

theorem isDirectory_iff :
    v.isDirectory place ↔ ∃ object, v.object? place = some object ∧ object.content = .directory := by
  simp [isDirectory, Option.any_eq_true]

theorem isSome_number?_of_isDirectory (h : v.isDirectory place) : (v.number? place).isSome := by
  obtain ⟨object, ho, -⟩ := isDirectory_iff.mp h
  obtain ⟨number, hn, -⟩ := object?_eq_some.mp ho
  simp [hn]

/-! ## After a change -/

theorem branch?_create (hd : (v.number? place).isSome) (hv : v.number? (place ++ [name]) = none)
    (below : Place) :
    (v.create (place ++ [name]) object).branch? (place ++ [name] ++ below) =
      (Branch.mk v.objects.size .empty).at? below := by
  obtain ⟨b, hb, hnone⟩ := exists_branch?_of_vacant hd hv
  exact Branch.at?_put _ hb hnone below

theorem branch?_drop (place : Place) (name : Name) (below : Place) :
    (v.drop (place ++ [name])).branch? (place ++ [name] ++ below) = none := by
  rw [drop, branch?, root, Branch.at?_append, Branch.at?_append,
    Branch.at?_on_way Branch.descends_drop _ _ _ (List.cons_ne_nil _ _)]
  cases (Branch.mk 0 v.entries).at? place with
  | none => rfl
  | some b => simp [Branch.at?, Forest.drop, Forest.find?_erase]

theorem number?_create (hd : (v.number? place).isSome) (hv : v.number? (place ++ [name]) = none)
    (other : Place) :
    (v.create (place ++ [name]) object).number? other =
      if other = place ++ [name] then some v.objects.size else v.number? other := by
  by_cases hbelow : place ++ [name] <+: other
  · obtain ⟨below, rfl⟩ := hbelow
    rw [number?, branch?_create hd hv, number?_append_eq_none below hv]
    cases below with
    | nil => simp [Branch.at?]
    | cons next below => simp [Branch.at?, Forest.find?]
  · obtain ⟨rest, -, hrest⟩ := Branch.at?_change (Branch.descends_put _) 0 v.entries hbelow
    rw [if_neg (by rintro rfl; exact hbelow (List.prefix_refl _)), number?, create, branch?, root,
      hrest, Option.map_map]
    rfl

theorem number?_drop (place : Place) (name : Name) (other : Place) :
    (v.drop (place ++ [name])).number? other =
      if place ++ [name] <+: other then none else v.number? other := by
  by_cases hbelow : place ++ [name] <+: other
  · rw [if_pos hbelow]
    obtain ⟨below, rfl⟩ := hbelow
    rw [number?, branch?_drop, Option.map_none]
  · obtain ⟨rest, -, hrest⟩ := Branch.at?_change Branch.descends_drop 0 v.entries hbelow
    rw [if_neg hbelow, number?, drop, branch?, root, hrest, Option.map_map]
    rfl

theorem nodup_names_create (hd : (v.number? place).isSome)
    (hv : v.number? (place ++ [name]) = none) (h : ∀ other, (v.names other).Nodup) (other : Place) :
    ((v.create (place ++ [name]) object).names other).Nodup := by
  have hold := h other
  by_cases hbelow : place ++ [name] <+: other
  · obtain ⟨below, rfl⟩ := hbelow
    rw [names, branch?_create hd hv]
    cases below <;> exact List.nodup_nil
  · obtain ⟨rest, hplace, hrest⟩ := Branch.at?_change
      (Branch.descends_put ⟨v.objects.size, .empty⟩) 0 v.entries hbelow
    rw [names, create, branch?, root, hrest]
    rw [names, branch?, root] at hold
    cases hb : (Branch.mk 0 v.entries).at? other with
    | none => exact List.nodup_nil
    | some b =>
      rw [hb, Option.elim_some] at hold
      show (Forest.put _ rest b.inner).names.Nodup
      match rest with
      | [] => exact hold
      | [new] =>
        rcases hplace with h | h
        · exact absurd h (List.cons_ne_nil _ _)
        · obtain ⟨rfl, hnew⟩ := List.append_inj' h rfl
          obtain rfl := List.head_eq_of_cons_eq hnew
          have hnot : name ∉ b.inner.names := by
            intro hm
            have hin : name ∈ v.names place := by rwa [names, branch?, root, hb]
            rw [mem_names, hv] at hin
            exact Bool.false_ne_true hin
          rw [Forest.put, Forest.names_add]
          refine List.nodup_append.mpr ⟨hold, by simp, fun a ha c hc he => ?_⟩
          rw [List.mem_singleton.mp hc] at he
          exact hnot (he ▸ ha)
      | new :: next :: below =>
        rw [Forest.put, Forest.names_modify]
        exact hold

theorem nodup_names_drop (h : ∀ other, (v.names other).Nodup) (other : Place) :
    ((v.drop (place ++ [name])).names other).Nodup := by
  have hold := h other
  by_cases hbelow : place ++ [name] <+: other
  · obtain ⟨below, rfl⟩ := hbelow
    rw [names, branch?_drop]
    exact List.nodup_nil
  · obtain ⟨rest, -, hrest⟩ := Branch.at?_change Branch.descends_drop 0 v.entries hbelow
    rw [names, drop, branch?, root, hrest]
    rw [names, branch?, root] at hold
    cases hb : (Branch.mk 0 v.entries).at? other with
    | none => exact List.nodup_nil
    | some b =>
      rw [hb, Option.elim_some] at hold
      show (Forest.drop rest b.inner).names.Nodup
      match rest with
      | [] => exact hold
      | [gone] => exact hold.sublist (Forest.names_erase_sublist _ _)
      | new :: next :: below =>
        rw [Forest.drop, Forest.names_modify]
        exact hold

end Volume

end Bytework
