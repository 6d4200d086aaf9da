import Bytework.Proofs.Volume.Reach

/-!
# Volumes grown from nothing

New entries in an empty volume by the POSIX rules, one after the other. What comes of it is sound, and no two entries
have an object in common.

* `grow`, `CanGrow`: new entries, and whether there is room for each of them.
* `sound_grown`, `unshared_grown`: what holds of a grown volume.
* `leads_of_names`: the path of a name in a directory leads there.
-/

namespace Bytework.Volume

variable {v : Volume} {entries : List (Place × Content)} {shut : Place → Prop} {place w : Place}
  {name : Name} {object : Object} {p : Path}

/-! ## Volumes without shared objects -/

/-- No two entries have an object in common. -/
def Unshared (v : Volume) : Prop :=
  ∀ w w' number, v.number? w = some number → v.number? w' = some number → w = w'

theorem Unshared.eq (h : v.Unshared) {w w' : Place} (hn : v.number? w = v.number? w')
    (ho : v.object? w = some object) : w = w' := by
  obtain ⟨number, hw, -⟩ := object?_eq_some.mp ho
  exact h w w' number hw (hn.symm.trans hw)

theorem Unshared.create (h : v.Unshared) (hs : v.Sound) (hd : v.isDirectory place)
    (hv : v.number? (place ++ [name]) = none) : (v.create (place ++ [name]) object).Unshared := by
  have hnumber : ∀ w, (v.create (place ++ [name]) object).number? w =
      if w = place ++ [name] then some v.objects.size else v.number? w :=
    number?_create (isSome_number?_of_isDirectory hd) hv
  have hfresh {w : Place} : v.number? w ≠ some v.objects.size := fun hn => Nat.lt_irrefl _ (hs.stored hn)
  intro w w' number hw hw'
  rw [hnumber] at hw hw'
  split at hw
  case isTrue he =>
    obtain rfl := Option.some.inj hw
    split at hw'
    case isTrue he' => exact he.trans he'.symm
    case isFalse => exact absurd hw' hfresh
  case isFalse =>
    split at hw'
    case isTrue =>
      obtain rfl := Option.some.inj hw'
      exact absurd hw hfresh
    case isFalse => exact h w w' number hw hw'

/-! ## Growth -/

/-- New entries, one after the other. -/
def grow (v : Volume) : List (Place × Content) → Volume
  | [] => v
  | (place, content) :: entries => (v.create place (.new content 0o755)).grow entries

/-- There is room for each new entry: it has a plain name in a directory, and nothing stands there. -/
def CanGrow (v : Volume) : List (Place × Content) → Prop
  | [] => True
  | (place, content) :: entries => v.isDirectory place.dropLast ∧ v.number? place = none ∧
      (∀ name ∈ place.getLast?, Path.IsPlain name) ∧ (v.create place (.new content 0o755)).CanGrow entries

instance decidableCanGrow (v : Volume) : (entries : List (Place × Content)) → Decidable (v.CanGrow entries)
  | [] => inferInstanceAs (Decidable True)
  | (place, content) :: entries =>
    haveI := decidableCanGrow (v.create place (.new content 0o755)) entries
    inferInstanceAs (Decidable (_ ∧ _ ∧ _ ∧ _))

theorem sound_grow (hs : v.Sound) (hu : v.Unshared) (h : v.CanGrow entries) :
    (v.grow entries).Sound ∧ (v.grow entries).Unshared := by
  induction entries generalizing v with
  | nil => exact ⟨hs, hu⟩
  | cons entry entries ih =>
    obtain ⟨place, content⟩ := entry
    obtain ⟨hd, hv, hn, hrest⟩ := h
    rcases List.eq_nil_or_concat place with rfl | ⟨directory, name, rfl⟩
    · exact absurd hv (by simp [number?_root])
    · rw [List.concat_eq_append] at hd hv hn hrest ⊢
      rw [List.dropLast_concat] at hd
      have hn := hn name (by simp)
      exact ih (hs.create hd hv hn) (hu.create hs hd hv) hrest

/-- An empty volume by the POSIX rules, with its root as the working directory. -/
def bare : Volume := { empty ['/'] ['/'] with rules := .posix 0o022 }

theorem number?_bare_cons (name : Name) (place : Place) : bare.number? (name :: place) = none := rfl

theorem eq_nil_of_number?_bare {number : Nat} (h : bare.number? w = some number) :
    w = [] ∧ number = 0 := by
  cases w with
  | nil => exact ⟨rfl, (Option.some.inj h).symm⟩
  | cons name w => exact absurd h (by simp [number?_bare_cons])

theorem sound_bare : bare.Sound := by
  have hnone {place : Place} {name : Name} : ¬ (bare.number? (place ++ [name])).isSome := by
    intro h
    obtain ⟨number, hn⟩ := Option.isSome_iff_exists.mp h
    exact List.concat_ne_nil name place (eq_nil_of_number?_bare hn).1
  refine ⟨rfl, fun hn => ?_, fun h => absurd h hnone, fun h => absurd h hnone, fun place => ?_⟩
  · rw [(eq_nil_of_number?_bare hn).2]
    exact Nat.zero_lt_one
  · cases place <;> exact List.nodup_nil

theorem unshared_bare : bare.Unshared := by
  intro w w' number hw hw'
  rw [(eq_nil_of_number?_bare hw).1, (eq_nil_of_number?_bare hw').1]

theorem cwd_grow (v : Volume) (entries : List (Place × Content)) : (v.grow entries).cwd = v.cwd := by
  induction entries generalizing v with
  | nil => rfl
  | cons entry entries ih => exact ih _

theorem rules_grow (v : Volume) (entries : List (Place × Content)) : (v.grow entries).rules = v.rules := by
  induction entries generalizing v with
  | nil => rfl
  | cons entry entries ih => exact ih _

/-- A volume of the given entries. -/
def grown (entries : List (Place × Content)) : Volume := bare.grow entries

theorem sound_grown (h : bare.CanGrow entries) : (grown entries).Sound :=
  (sound_grow sound_bare unshared_bare h).1

theorem unshared_grown (h : bare.CanGrow entries) : (grown entries).Unshared :=
  (sound_grow sound_bare unshared_bare h).2

theorem mem_of_number?_grow {number : Nat} (hs : v.Sound) (h : v.CanGrow entries)
    (hn : (v.grow entries).number? w = some number) : v.number? w = some number ∨ w ∈ entries.map (·.1) := by
  induction entries generalizing v with
  | nil => exact .inl hn
  | cons entry entries ih =>
    obtain ⟨place, content⟩ := entry
    obtain ⟨hd, hv, hplain, hrest⟩ := h
    rcases List.eq_nil_or_concat place with rfl | ⟨directory, name, rfl⟩
    · exact absurd hv (by simp [number?_root])
    · rw [List.concat_eq_append] at hd hv hplain hrest hn ⊢
      rw [List.dropLast_concat] at hd
      rcases ih (hs.create hd hv (hplain name (by simp))) hrest hn with hold | hmem
      · rw [number?_create (isSome_number?_of_isDirectory hd) hv] at hold
        split at hold
        case isTrue he => exact .inr (by simp [he])
        case isFalse => exact .inl hold
      · exact .inr (List.mem_cons_of_mem _ hmem)

theorem mem_of_not_vacant_grown (h : bare.CanGrow entries) (hw : ¬ (grown entries).Vacant w) :
    w ∈ [] :: entries.map (·.1) := by
  obtain ⟨number, hn⟩ := Option.ne_none_iff_exists'.mp hw
  rcases mem_of_number?_grow sound_bare h hn with hn | hmem
  · rw [(eq_nil_of_number?_bare hn).1]
    exact List.mem_cons_self
  · exact List.mem_cons_of_mem _ hmem

/-! ## Paths of names in directories -/

/-- The place of some names. -/
def placeOf (names : List String) : Place := names.map String.toList

theorem way_of_isDirectory (hs : v.Sound) {base inner : Place} (hd : v.isDirectory (base ++ inner))
    (hup : ∀ n ∈ inner ++ [name], n ≠ Path.up) (hshut : ∀ w, w <+: base ++ inner → ¬ shut w) :
    Way v shut false base (inner ++ [name]) (base ++ inner ++ [name]) := by
  induction inner generalizing base with
  | nil =>
    rw [List.nil_append, List.append_nil]
    exact .arrive (hup name (by simp)) fun hf => absurd hf Bool.false_ne_true
  | cons next inner ih =>
    have hassoc : base ++ next :: inner = base ++ [next] ++ inner := by simp
    rw [hassoc] at hd hshut ⊢
    have hnext : v.isDirectory (base ++ [next]) := by
      rcases List.eq_nil_or_concat inner with rfl | ⟨_, _, hne⟩
      · rwa [List.append_nil] at hd
      · exact hs.isDirectory_of_append (by simp [hne]) (isSome_number?_of_isDirectory hd)
    have hrest := ih hd (fun n hn => hup n (List.mem_cons_of_mem _ hn)) hshut
    exact .enter (hup next List.mem_cons_self) (by simp) (hshut _ (List.prefix_append _ _))
      (passable_of_isDirectory hnext) hrest

/-- The absolute path of a name in a directory leads there. -/
theorem leads_of_names (hs : v.Sound) (hd : v.isDirectory place) (ha : p.isAbsolute)
    (hend : p.asksDirectory → v.isDirectory (place ++ [name]))
    (hn : p.names = place ++ [name]) (hup : ∀ n ∈ place ++ [name], n ≠ Path.up)
    (hshut : ∀ w, w <+: place → ¬ shut w) : v.Leads shut false p (place ++ [name]) := by
  have hway : Way v shut false [] (place ++ [name]) ([] ++ place ++ [name]) := way_of_isDirectory hs hd hup hshut
  rw [Leads, route, if_pos ha, hn, List.isEmpty_eq_false_iff.mpr (List.concat_ne_nil name place), Bool.or_false]
  cases hasks : v.follows false p with
  | false => exact hway
  | true =>
    have hinner := hend (Bool.and_eq_true_iff.mp hasks).2
    exact hway.followed fun _ hl => hl.not_passable (passable_of_isDirectory hinner)

end Bytework.Volume
