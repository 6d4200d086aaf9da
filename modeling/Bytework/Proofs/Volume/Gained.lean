import Bytework.Proofs.Volume.Resolved

/-!
# What is gained

Changes that only add: what stood before stands as it was, and paths to it lead there still.

* `Gains`: such a change; `Gains.reach`, `Gains.leads`: paths after it.
* `Found`: what a path names, a link that leads nowhere included.
* `gains_mkdir`, `gains_symlink`, `gains_link`, `gains_copyFile`: the calls that make something.
-/

namespace Bytework.Volume

variable {v v' v'' : Volume} {shut : Place → Prop} {follow : Bool} {place goal source w : Place}
  {name : Name} {p q target : Path} {object : Object} {mode bytes number : Nat}

/-- A volume has gained entries: all that stood before stands as it was. -/
structure Gains (v v' : Volume) : Prop where
  sound : v.Sound → v'.Sound
  cwd : v'.cwd = v.cwd
  temp : v'.temp = v.temp
  rules : v'.rules = v.rules
  number : ∀ w, ¬ v.Vacant w → v'.number? w = v.number? w
  object : ∀ w, ¬ v.Vacant w → v'.object? w = v.object? w

/-- A path names something; a link that leads nowhere is something, too. -/
def Found (v : Volume) (p : Path) : Prop := ∃ entry, v.stat false p = .ok entry

theorem found_iff : v.Found p ↔ ∃ place object, v.reach false p = .ok place ∧ v.object? place = some object := by
  constructor
  · rintro ⟨entry, h⟩
    obtain ⟨place, object, hr, ho, -⟩ := stat_eq_ok.mp h
    exact ⟨place, object, hr, ho⟩
  · rintro ⟨place, object, hr, ho⟩
    exact ⟨_, stat_eq_ok.mpr ⟨place, object, hr, ho, rfl⟩⟩

/-- In a directory a name is found where something stands. -/
theorem found_join_iff (hs : v.Sound) (hr : v.reach true p = .ok place) (hd : v.isDirectory place)
    (hn : Path.IsPlain name) : v.Found (p.join name) ↔ ¬ v.Vacant (place ++ [name]) := by
  rw [found_iff]
  constructor
  · rintro ⟨goal, object, hgoal, ho⟩ hv
    obtain rfl := Except.ok.inj (hgoal.symm.trans (reach_join_vacant hs hr hd hn hv false))
    exact not_vacant_of_object? ho hv
  · intro hstands
    obtain ⟨object, ho⟩ := hs.isSome_object? (Option.isSome_iff_ne_none.mpr hstands)
    exact ⟨_, object, reach_join hs hr hd ho, ho⟩

namespace Gains

theorem refl (v : Volume) : Gains v v := ⟨id, rfl, rfl, rfl, fun _ _ => rfl, fun _ _ => rfl⟩

theorem not_vacant (h : Gains v v') (hw : ¬ v.Vacant w) : ¬ v'.Vacant w := by
  rwa [Vacant, h.number w hw]

theorem trans (h : Gains v v') (h' : Gains v' v'') : Gains v v'' where
  sound := h'.sound ∘ h.sound
  cwd := h'.cwd.trans h.cwd
  temp := h'.temp.trans h.temp
  rules := h'.rules.trans h.rules
  number w hw := (h'.number w (h.not_vacant hw)).trans (h.number w hw)
  object w hw := (h'.object w (h.not_vacant hw)).trans (h.object w hw)

theorem isDirectory (h : Gains v v') (hd : v.isDirectory w) : v'.isDirectory w := by
  rwa [Volume.isDirectory, h.object w (not_vacant_of_isDirectory hd)]

theorem agrees (h : Gains v v') : Agrees v.Vacant v v' where
  cwd := h.cwd
  rules := h.rules
  seen w _ hw := by rw [Volume.seen, Volume.seen, h.object w hw]

theorem reach (h : Gains v v') (hs : v.Sound) (hr : v.reach follow p = .ok goal) (hgoal : ¬ v.Vacant goal) :
    v'.reach follow p = .ok goal :=
  reach_agrees h.agrees hs (h.sound hs) (fun _ => vacant_of_dropLast) hs.not_vacant_root hgoal hgoal
    (leads_of_reach hs hr) hr

theorem found (h : Gains v v') (hs : v.Sound) (hp : v.Found p) : v'.Found p := by
  obtain ⟨place, object, hr, ho⟩ := found_iff.mp hp
  have hstands := not_vacant_of_object? ho
  exact found_iff.mpr ⟨place, object, h.reach hs hr hstands, (h.object place hstands).trans ho⟩

theorem leads (h : Gains v v') (hshut : ∀ w, v.Vacant w → shut w) (hd : v.isDirectory goal)
    (hl : v.Leads shut follow p goal) : v'.Leads shut follow p goal := by
  have hsame {w : Place} (hw : ¬ shut w) : v'.object? w = v.object? w := h.object w fun hv => hw (hshut w hv)
  have hroute : v'.route p = v.route p := by rw [route, h.cwd, route]
  rw [Leads, hroute, follows_congr h.rules]
  refine hl.congr (fun w hw hp object ho => hp object ((hsame hw).symm.trans ho)) ?_ fun target hlink => ?_
  · rintro w target hw ⟨object, ho, hc⟩
    exact ⟨object, (hsame hw).trans ho, hc⟩
  · exact absurd (passable_of_isDirectory (h.isDirectory hd)) hlink.not_passable

end Gains

/-! ## Calls that make something -/

/-- What touches only places at which nothing stood has made something. -/
theorem gains_of_bounded (made : Place → Prop) (hs : v.Sound) (h : Bounded v.Vacant made v v')
    (ht : v'.temp = v.temp) : Gains v v' where
  sound := h.sound
  cwd := h.cwd
  temp := ht
  rules := h.rules
  number w hw := h.number?_eq hw hw
  object w hw := by
    obtain ⟨object, ho⟩ := hs.isSome_object? (Option.isSome_iff_ne_none.mpr hw)
    refine (h.object?_eq hw ho fun _ w' hv hn => hw ?_).trans ho.symm
    exact hn.symm.trans hv

theorem gains_create (hs : v.Sound) (hd : v.isDirectory place) (hv : v.Vacant (place ++ [name]))
    (hn : Path.IsPlain name) : Gains v (v.create (place ++ [name]) object) :=
  gains_of_bounded (fun _ => False) hs (bounded_create hs hd hv hn (.inl hv)) rfl

theorem Creates.gains (h : v.Creates p object v') (hs : v.Sound) : Gains v v' := by
  obtain ⟨directory, name, -, hd, hv, hn, rfl⟩ := h
  exact gains_create hs hd hv hn

theorem gains_mkdir (hs : v.Sound) (h : v.mkdir p mode = .ok v') : Gains v v' := by
  obtain ⟨_, -, hcreates⟩ := creates_of_mkdir hs h
  exact hcreates.gains hs

theorem gains_symlink (hs : v.Sound) (h : v.symlink target p = .ok v') : Gains v v' := by
  obtain ⟨_, -, hcreates⟩ := creates_of_symlink hs h
  exact hcreates.gains hs

/-- A further place for an object is a new one as far as its number is concerned. -/
theorem number?_share (hd : (v.number? place).isSome) (hv : v.Vacant (place ++ [name]))
    (hsource : v.number? source = some number) (hlt : number < v.objects.size) :
    (∀ other, (v.share (place ++ [name]) source).number? other =
      if other = place ++ [name] then some number else v.number? other) ∧
    ∀ other, (∀ w, (v.names w).Nodup) → ((v.share (place ++ [name]) source).names other).Nodup := by
  -- entries know of objects by their numbers only, so a volume with fewer objects will do
  let fewer : Volume := { v with objects := v.objects.extract 0 number }
  have hsize : fewer.objects.size = number := by simp [fewer, Nat.min_eq_left hlt.le]
  have hentries : (v.share (place ++ [name]) source).entries =
      (fewer.create (place ++ [name]) (.new .directory 0)).entries := by
    rw [share, hsource, create, hsize]
    rfl
  have hbranch (w : Place) : (v.share (place ++ [name]) source).branch? w =
      (fewer.create (place ++ [name]) (.new .directory 0)).branch? w := by
    rw [branch?, branch?, root, root, hentries]
  refine ⟨fun other => ?_, fun other hnodup => ?_⟩
  · have hnumber : (fewer.create (place ++ [name]) (.new .directory 0)).number? other =
        if other = place ++ [name] then some fewer.objects.size else fewer.number? other :=
      number?_create (v := fewer) hd hv other
    rw [hsize] at hnumber
    rw [number?, hbranch, ← number?, hnumber]
    rfl
  · rw [names, hbranch, ← names]
    exact nodup_names_create (v := fewer) hd hv hnodup other

theorem gains_share (hs : v.Sound) (hd : v.isDirectory place) (hv : v.Vacant (place ++ [name]))
    (hn : Path.IsPlain name) : Gains v (v.share (place ++ [name]) source) := by
  cases hsource : v.number? source with
  | none =>
    rw [share, hsource]
    exact .refl v
  | some number =>
    obtain ⟨hnumber, hnodup⟩ := number?_share (isSome_number?_of_isDirectory hd) hv hsource (hs.stored hsource)
    have hobjects : (v.share (place ++ [name]) source).objects = v.objects := by rw [share, hsource]; rfl
    have hother {w : Place} (hw : ¬ v.Vacant w) : (v.share (place ++ [name]) source).number? w = v.number? w := by
      rw [hnumber, if_neg]
      rintro rfl
      exact hw hv
    refine ⟨fun _ => ?_, by rw [share, hsource]; rfl, by rw [share, hsource]; rfl, by rw [share, hsource]; rfl,
      fun w => hother, fun w hw => ?_⟩
    · refine hs.of_entry hd hv hn (fun _ _ ho => ⟨_, by rw [hobjects, ho], rfl⟩) hnumber ?_ fun other =>
        hnodup other hs.distinct
      rw [hobjects]
      exact hs.stored hsource
    · rw [object?, object?, hother hw, hobjects]

theorem gains_link (hs : v.Sound) (h : v.link target p = .ok v') : Gains v v' := by
  obtain ⟨⟨source, object⟩, -, h⟩ := exists_of_bind_eq_ok h
  obtain ⟨place, hv, h⟩ := exists_of_bind_eq_ok h
  simp only at h
  split at h
  case isTrue =>
    obtain ⟨_, h, -⟩ := exists_of_bind_eq_ok h
    exact absurd h throw_ne_ok
  case isFalse =>
    obtain rfl := Except.ok.inj h
    obtain ⟨hr, hv⟩ := vacant_eq_ok hs (vacant_of_vacantLeaf hv)
    obtain ⟨directory, name, rfl, hd, hn⟩ := exists_of_reach_vacant hs hr hv
    exact gains_share hs hd hv hn

@[simp] theorem temp_alter (v : Volume) (place : Place) (change : Object → Object) :
    (v.alter place change).temp = v.temp := by
  unfold alter
  split <;> rfl

theorem temp_of_truncate (h : v.truncate place mode = .ok v') : v'.temp = v.temp := by
  unfold truncate at h
  split at h
  · rw [← Except.ok.inj h]
    rfl
  · split at h
    · exact absurd h (by simp)
    · split at h
      · exact absurd h (by simp)
      · rw [← Except.ok.inj h, temp_alter]

theorem temp_of_copyFile (h : v.copyFile p q = .ok (bytes, v')) : v'.temp = v.temp := by
  obtain ⟨⟨source, object⟩, -, h⟩ := exists_of_bind_eq_ok h
  simp only at h
  split at h
  case isTrue =>
    obtain ⟨_, h, -⟩ := exists_of_bind_eq_ok h
    exact absurd h throw_ne_ok
  case isFalse =>
    obtain ⟨place, -, h⟩ := exists_of_bind_eq_ok h
    obtain ⟨v₁, ht, h⟩ := exists_of_bind_eq_ok h
    obtain ⟨-, rfl⟩ := Prod.mk.inj (Except.ok.inj h)
    rw [temp_alter, temp_of_truncate ht]

theorem gains_copyFile (hs : v.Sound) (h : v.copyFile p q = .ok (bytes, v'))
    (hnew : ∀ entry, v.stat true q ≠ .ok entry) : Gains v v' := by
  obtain ⟨source, data, place, -, -, hr, hcopies⟩ := copies_of_copyFile hs h
  have hv : v.Vacant place := by
    by_contra hstands
    obtain ⟨object, ho⟩ := hs.isSome_object? (Option.isSome_iff_ne_none.mpr hstands)
    exact hnew _ (stat_eq_ok.mpr ⟨place, object, hr, ho, rfl⟩)
  exact gains_of_bounded (fun _ => False) hs (hcopies.bounded hv) (temp_of_copyFile h)

end Bytework.Volume
