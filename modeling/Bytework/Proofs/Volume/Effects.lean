import Bytework.Proofs.Volume.Footholds

/-!
# Effects of calls

What a call that succeeded has seen and done.

* `stat_eq_ok`, `list_eq_ok`, `readlink_eq_ok`: what questions are answered by.
* `Creates`, `Removes`: a new entry, and one that is gone; `creates_of_mkdir` and so on.
* `Empties`, `Copies`: a file made empty, and a copy of a file; `copies_of_copyFile`.
-/

namespace Bytework.Volume

variable {v v' : Volume} {within made : Place → Prop} {follow : Bool} {p q target : Path}
  {place goal : Place} {name : Name} {mode bytes : Nat} {names : List Name} {entry : Entry}
  {object : Object} {nameless : Errno}

/-! ## Questions -/

theorem find_eq_ok :
    v.find follow p = .ok (place, object) ↔ v.reach follow p = .ok place ∧ v.object? place = some object := by
  unfold find
  cases v.reach follow p with
  | error => simp [bind, Except.bind]
  | ok goal =>
    simp only [bind, Except.bind, Except.ok.injEq]
    cases ho : v.object? goal with
    | none =>
      simp only [throw, throwThe, MonadExceptOf.throw, reduceCtorEq, false_iff, not_and]
      rintro rfl
      simp [ho]
    | some object' =>
      simp only [pure, Except.pure, Except.ok.injEq, Prod.mk.injEq]
      constructor
      · rintro ⟨rfl, rfl⟩
        exact ⟨rfl, ho⟩
      · rintro ⟨rfl, ho'⟩
        exact ⟨rfl, Option.some.inj (ho.symm.trans ho')⟩

theorem stat_eq_ok :
    v.stat follow p = .ok entry ↔
      ∃ place object, v.reach follow p = .ok place ∧ v.object? place = some object ∧
        entry = object.entry p := by
  constructor
  · intro h
    obtain ⟨⟨place, object⟩, hf, he⟩ := exists_of_bind_eq_ok h
    obtain ⟨hr, ho⟩ := find_eq_ok.mp hf
    exact ⟨place, object, hr, ho, (Except.ok.inj he).symm⟩
  · rintro ⟨place, object, hr, ho, rfl⟩
    rw [stat, find_eq_ok.mpr ⟨hr, ho⟩]
    rfl

theorem list_eq_ok (h : v.list p = .ok names) :
    ∃ place, v.reach true p = .ok place ∧ v.isDirectory place ∧ names = v.names place := by
  obtain ⟨⟨place, object⟩, hf, hn⟩ := exists_of_bind_eq_ok h
  obtain ⟨hr, ho⟩ := find_eq_ok.mp hf
  simp only at hn
  split at hn
  case isTrue hc => exact ⟨place, hr, isDirectory_iff.mpr ⟨object, ho, hc⟩, (Except.ok.inj hn).symm⟩
  case isFalse => exact absurd hn throw_ne_ok

theorem readlink_eq_ok (h : v.readlink p = .ok target) :
    ∃ place, v.reach false p = .ok place ∧ v.Links place target := by
  obtain ⟨⟨place, object⟩, hf, ht⟩ := exists_of_bind_eq_ok h
  obtain ⟨hr, ho⟩ := find_eq_ok.mp hf
  simp only at ht
  split at ht
  case h_1 target' hc =>
    obtain rfl := Except.ok.inj ht
    exact ⟨place, hr, object, ho, hc⟩
  case h_2 => exact absurd ht throw_ne_ok

/-! ## New entries -/

/-- A volume becomes another one by a new object at a path. -/
def Creates (v : Volume) (p : Path) (object : Object) (v' : Volume) : Prop :=
  ∃ directory name, v.reach false p = .ok (directory ++ [name]) ∧ v.isDirectory directory ∧
    v.Vacant (directory ++ [name]) ∧ Path.IsPlain name ∧ v' = v.create (directory ++ [name]) object

/-- Only by the POSIX rules a dot at the end stands in the way of a name, and then it asks for a directory. -/
theorem endsInName_eq (h : v.asks p → p.endsInDot = false) : v.endsInName p = p.hasLastName := by
  by_cases hn : p.names = []
  · simp [endsInName, Path.hasLastName, hn]
  · have hdot : (v.rules.isPosix && p.endsInDot) = false := by
      rw [Bool.eq_false_iff]
      intro hc
      obtain ⟨hposix, hdot⟩ := Bool.and_eq_true_iff.mp hc
      have hasks : v.asks p := Bool.and_eq_true_iff.mpr ⟨hposix, Path.asksDirectory_of_endsInDot hn hdot⟩
      exact absurd ((h hasks).symm.trans hdot) Bool.false_ne_true
    rw [endsInName, hdot, Bool.not_false, Bool.and_true]

theorem endsInName_join (h : Path.IsPlain name) : v.endsInName (p.join name) := by
  rw [endsInName, Path.hasLastName, Path.names_join h, List.getLast?_concat, Path.endsInDot_join h]
  simpa using h.2.2.1

theorem vacant_eq_ok (hs : v.Sound) (h : v.vacant p = .ok place) :
    v.reach false p = .ok place ∧ v.Vacant place := by
  obtain ⟨place', hseat, h⟩ := exists_of_bind_eq_ok h
  split at h
  case isTrue hc =>
    obtain rfl := Except.ok.inj h
    have hv : v.Vacant place' := hs.object?_eq_none.mp (by simpa using (Bool.and_eq_true_iff.mp hc).2)
    exact ⟨reach_of_seat hs hseat fun _ => hs.passable_iff.mpr (.inl hv), hv⟩
  case isFalse => exact absurd h throw_ne_ok

theorem vacant_of_vacantLeaf (h : v.vacantLeaf p = .ok place) : v.vacant p = .ok place := by
  obtain ⟨place', hvacant, h⟩ := exists_of_bind_eq_ok h
  split at h
  case isTrue => exact absurd h throw_ne_ok
  case isFalse => rwa [← Except.ok.inj h]

theorem creates_of_vacant (hs : v.Sound) (h : v.vacant p = .ok place) (object : Object) :
    v.Creates p object (v.create place object) := by
  obtain ⟨hr, hv⟩ := vacant_eq_ok hs h
  obtain ⟨directory, name, rfl, hd, hn⟩ := exists_of_reach_vacant hs hr hv
  exact ⟨directory, name, hr, hd, hv, hn, rfl⟩

@[simp] theorem content_heirOf (object directory : Object) : (object.heirOf directory).content = object.content := by
  unfold Object.heirOf
  split <;> rfl

@[simp] theorem content_adopt (v : Volume) (place : Place) (object : Object) :
    (v.adopt place object).content = object.content := by
  unfold adopt
  split
  · exact content_heirOf _ _
  · rfl

theorem creates_of_mkdir (hs : v.Sound) (h : v.mkdir p mode = .ok v') :
    ∃ object, object.content = .directory ∧ v.Creates p object v' := by
  obtain ⟨place, hv, h⟩ := exists_of_bind_eq_ok h
  obtain rfl := Except.ok.inj h
  exact ⟨_, content_adopt _ _ _, creates_of_vacant hs hv _⟩

theorem creates_of_symlink (hs : v.Sound) (h : v.symlink target p = .ok v') :
    ∃ object, object.content = .symlink target ∧ v.Creates p object v' := by
  unfold symlink at h
  split at h
  case isTrue =>
    obtain ⟨_, h, -⟩ := exists_of_bind_eq_ok h
    exact absurd h throw_ne_ok
  case isFalse =>
    obtain ⟨place, hv, h⟩ := exists_of_bind_eq_ok h
    obtain rfl := Except.ok.inj h
    exact ⟨_, content_adopt _ _ _, creates_of_vacant hs (vacant_of_vacantLeaf hv) _⟩

theorem Creates.bounded (h : v.Creates p object v') (hs : v.Sound)
    (hb : ∀ place, v.reach false p = .ok place → v.Vacant place →
      within place ∨ made place ∧ object.content = .directory) : Bounded within made v v' := by
  obtain ⟨directory, name, hr, hd, hv, hn, rfl⟩ := h
  exact bounded_create hs hd hv hn (hb _ hr hv)

theorem Creates.object? (h : v.Creates p object v') (hs : v.Sound) :
    ∃ place, v.reach false p = .ok place ∧ v.Vacant place ∧ v'.object? place = some object := by
  obtain ⟨directory, name, hr, hd, hv, -, rfl⟩ := h
  refine ⟨_, hr, hv, ?_⟩
  rw [object?_create hs (isSome_number?_of_isDirectory hd) hv, if_pos rfl]

/-! ## Entries that are taken away -/

/-- A volume becomes another one by taking away what stands at a path, which is never the root. -/
def Removes (v : Volume) (p : Path) (v' : Volume) : Prop :=
  ∃ place, v.reach false p = .ok place ∧ place ≠ [] ∧ ¬ v.Vacant place ∧ v' = v.drop place

/-- Names that end in a plain one lead to an entry with that name, if a link at the end is not followed. -/
theorem Way.concat_of_last (h : Way v shut false base names goal) (hl : names.getLast? = some name)
    (hn : name ≠ Path.up) : ∃ directory, goal = directory ++ [name] := by
  induction h with
  | stay => exact absurd hl (by simp)
  | @up base ahead goal _ ih =>
    by_cases ha : ahead = []
    · subst ha
      exact absurd (Option.some.inj hl).symm hn
    · exact ih (by rwa [List.getLast?_cons_of_ne_nil ha] at hl)
  | @enter base next ahead goal _ ha _ _ _ ih =>
    exact ih (by rwa [List.getLast?_cons_of_ne_nil ha] at hl)
  | @arrive base next _ _ => exact ⟨base, by rw [← Option.some.inj hl]; rfl⟩
  | @turn base next ahead goal target _ ha _ _ _ ih =>
    have ha : ahead ≠ [] := ha.resolve_right Bool.false_ne_true
    refine ih ?_
    rwa [List.getLast?_append_of_ne_nil _ ha, ← List.getLast?_cons_of_ne_nil ha]

/-- A path that ends in a name is never that of the root. -/
theorem ne_nil_of_seat (hs : v.Sound) (h : v.seat p = .ok place) (hname : v.endsInName p) : place ≠ [] := by
  obtain ⟨hlast, hdot⟩ := Bool.and_eq_true_iff.mp hname
  unfold seat at h
  split at h
  case isTrue hseat => simp_all [asks]
  case isFalse =>
    obtain ⟨base, -, halong⟩ := exists_of_bind_eq_ok h
    obtain ⟨name, hname, hne⟩ := (Option.any_eq_true _ _).mp hlast
    obtain ⟨directory, rfl⟩ := (way_of_along hs halong).1.concat_of_last hname (by simpa using hne)
    exact List.concat_ne_nil name directory

theorem removable_eq_ok (hs : v.Sound) (h : v.removable p nameless = .ok (place, object)) :
    v.reach false p = .ok place ∧ place ≠ [] ∧ v.object? place = some object := by
  obtain ⟨goal, hseat, h⟩ := exists_of_bind_eq_ok h
  simp only at h
  split at h
  case isTrue =>
    obtain ⟨_, h, -⟩ := exists_of_bind_eq_ok h
    exact absurd h throw_ne_ok
  case isFalse hname =>
    split at h
    case h_1 object' ho =>
      split at h
      case isTrue =>
        obtain ⟨_, h, -⟩ := exists_of_bind_eq_ok h
        exact absurd h throw_ne_ok
      case isFalse hasks =>
        obtain ⟨rfl, rfl⟩ := Prod.mk.inj (Except.ok.inj h)
        refine ⟨reach_of_seat hs hseat fun ha other ho' => ?_, ne_nil_of_seat hs hseat (by simpa using hname), ho⟩
        obtain rfl := Option.some.inj (ho.symm.trans ho')
        simpa [ha] using hasks
    case h_2 => exact absurd h throw_ne_ok

theorem removes_of_removable (hs : v.Sound) (h : v.removable p nameless = .ok (place, object)) :
    v.Removes p (v.drop place) := by
  obtain ⟨hr, hne, ho⟩ := removable_eq_ok hs h
  exact ⟨place, hr, hne, not_vacant_of_object? ho, rfl⟩

theorem removable_of_rmdir (h : v.rmdir p = .ok v') :
    ∃ nameless place object, v.removable p nameless = .ok (place, object) ∧ v' = v.drop place := by
  obtain ⟨⟨place, object⟩, hr, h⟩ := exists_of_bind_eq_ok h
  simp only at h
  split at h
  case isTrue =>
    obtain ⟨_, h, -⟩ := exists_of_bind_eq_ok h
    exact absurd h throw_ne_ok
  case isFalse =>
    split at h
    case isTrue =>
      obtain ⟨_, h, -⟩ := exists_of_bind_eq_ok h
      exact absurd h throw_ne_ok
    case isFalse => exact ⟨_, place, object, hr, (Except.ok.inj h).symm⟩

theorem removable_of_unlink (h : v.unlink p = .ok v') :
    ∃ nameless place object, v.removable p nameless = .ok (place, object) ∧ v' = v.drop place := by
  obtain ⟨⟨place, object⟩, hr, h⟩ := exists_of_bind_eq_ok h
  simp only at h
  split at h
  case isTrue =>
    obtain ⟨_, h, -⟩ := exists_of_bind_eq_ok h
    exact absurd h throw_ne_ok
  case isFalse => exact ⟨_, place, object, hr, (Except.ok.inj h).symm⟩

theorem removes_of_rmdir (hs : v.Sound) (h : v.rmdir p = .ok v') : v.Removes p v' := by
  obtain ⟨_, place, object, hr, rfl⟩ := removable_of_rmdir h
  exact removes_of_removable hs hr

theorem removes_of_unlink (hs : v.Sound) (h : v.unlink p = .ok v') : v.Removes p v' := by
  obtain ⟨_, place, object, hr, rfl⟩ := removable_of_unlink h
  exact removes_of_removable hs hr

theorem bounded_drop_of_ne_nil (hne : place ≠ []) :
    Bounded (place <+: ·) made v (v.drop place) ∧ Thinned v (v.drop place) ∧ (v.drop place).Vacant place := by
  obtain ⟨directory, name, hplace⟩ := (List.eq_nil_or_concat place).resolve_left hne
  rw [List.concat_eq_append] at hplace
  subst hplace
  refine ⟨bounded_drop directory name, thinned_drop directory name, ?_⟩
  rw [Vacant, number?_drop, if_pos (List.prefix_refl _)]

theorem Foothold.bounded_of_removes (h : Foothold v made p place) (hs : v.Sound) (hr : v.Removes p v') :
    Bounded (place <+: ·) made v v' ∧ Thinned v v' ∧ v'.Vacant place := by
  obtain ⟨goal, hreach, -, -, rfl⟩ := hr
  obtain rfl := h.eq_of_reach hs hreach
  exact bounded_drop_of_ne_nil h.proper

/-! ## Copies of files -/

theorem object?_alter_self (change : Object → Object) :
    (v.alter place change).object? place = (v.object? place).map change := by
  rw [Volume.object?, number?_alter]
  cases hn : v.number? place with
  | none => rw [Volume.object?, hn]; rfl
  | some number => rw [Option.bind_some, getElem?_alter hn, if_pos rfl, Volume.object?, hn, Option.bind_some]

/-- Where a copy is written to the path leads, with links followed. -/
theorem reach_of_destination (hs : v.Sound) (h : v.destination p = .ok place) : v.reach true p = .ok place := by
  unfold destination at h
  split at h
  case h_1 =>
    split at h
    case h_1 hfind =>
      obtain rfl := Except.ok.inj h
      exact (find_eq_ok.mp hfind).1
    case h_2 =>
      obtain ⟨hr, hv⟩ := vacant_eq_ok hs h
      exact reach_followed hs hr fun _ hl => hl.not_passable (hs.passable_iff.mpr (.inl hv))
    case h_3 => exact absurd h (by simp)
  case h_2 =>
    split at h
    case isTrue =>
      obtain ⟨_, -, h⟩ := exists_of_bind_eq_ok h
      exact absurd h throw_ne_ok
    case isFalse => exact h

/-- A volume becomes another one by an empty file at a place. -/
structure Empties (v : Volume) (place : Place) (v' : Volume) : Prop where
  bounded : ∀ {within made : Place → Prop}, within place → Bounded within made v v'
  blocked : ¬ v.isDirectory place
  writable : ∀ object, v'.object? place = some object → object.content.Writable
  file : (∀ old, v.object? place = some old → old.content.type = .file) →
    (v'.object? place).map (·.content) = some (.file [])

theorem empties_of_truncate (hs : v.Sound) (hr : v.reach true p = .ok place)
    (h : v.truncate place mode = .ok v') : v.Empties place v' := by
  unfold truncate at h
  split at h
  case h_1 hnone =>
    obtain rfl := Except.ok.inj h
    have hv := hs.object?_eq_none.mp hnone
    obtain ⟨directory, name, rfl, hd, hn⟩ := exists_of_reach_vacant hs hr hv
    have hobject : (v.create (directory ++ [name]) (v.adopt (directory ++ [name]) (.new (.file []) mode))).object?
        (directory ++ [name]) = some (v.adopt (directory ++ [name]) (.new (.file []) mode)) := by
      rw [object?_create hs (isSome_number?_of_isDirectory hd) hv, if_pos rfl]
    refine ⟨fun hw => bounded_create hs hd hv hn (.inl hw), fun hdir => ?_, fun object ho => ?_, fun _ => ?_⟩
    · exact not_vacant_of_isDirectory hdir hv
    · obtain rfl := Option.some.inj (hobject.symm.trans ho)
      simp [Content.Writable, Object.new]
    · rw [hobject, Option.map_some, content_adopt]
      rfl
  case h_2 old hold =>
    split at h
    case isTrue => exact absurd h (by simp)
    case isFalse hdir =>
      split at h
      case isTrue => exact absurd h (by simp)
      case isFalse =>
        obtain rfl := Except.ok.inj h
        have hwrite : ∀ object, v.object? place = some object → object.content.Writable := by
          intro object ho
          obtain rfl := Option.some.inj (hold.symm.trans ho)
          exact ⟨hdir, fun target hc => not_links_of_reach hs hr ⟨old, hold, hc⟩⟩
        refine ⟨fun hw => bounded_alter hw (fun object ho => ?_) fun _ => Content.outline_filled _ _, fun hd => ?_,
          fun object ho => ?_, fun hfile => ?_⟩
        · -- only a file has data to lose
          cases hc : object.content with
          | file data => exact .inl ⟨hwrite object ho, by simp [rewrites, hc, Content.type]⟩
          | _ => exact .inr (by cases object; simp_all [Content.filled])
        · exact hdir (passable_of_isDirectory hd old hold)
        · rw [object?_alter_self, hold] at ho
          obtain rfl := Option.some.inj ho
          exact (hwrite old hold).of_outline (Content.outline_filled _ _)
        · have htype := hfile old hold
          rw [object?_alter_self, hold, Option.map_some, Option.map_some]
          cases hc : old.content <;> simp_all [Content.type, Content.filled]

/-- A volume becomes another one by a copy of a file with some data at a place. -/
structure Copies (v : Volume) (source : Place) (data : Bytes) (place : Place) (v' : Volume) : Prop where
  bounded : ∀ {within made : Place → Prop}, within place → Bounded within made v v'
  blocked : ¬ v.isDirectory place
  writable : ∀ object, v'.object? place = some object → object.content.Writable
  file : (∀ old, v.object? place = some old → old.content.type = .file) →
    ∃ data', (v'.object? place).map (·.content) = some (.file data') ∧
      (v.number? place ≠ v.number? source → data' = data)

theorem copies_of_copyFile (hs : v.Sound) (h : v.copyFile p q = .ok (bytes, v')) :
    ∃ source data place, v.reach true p = .ok source ∧
      (v.object? source).map (·.content) = some (.file data) ∧ v.reach true q = .ok place ∧
      v.Copies source data place v' := by
  obtain ⟨⟨source, object⟩, hf, h⟩ := exists_of_bind_eq_ok h
  obtain ⟨hr, ho⟩ := find_eq_ok.mp hf
  simp only at h
  split at h
  case isTrue =>
    obtain ⟨_, h, -⟩ := exists_of_bind_eq_ok h
    exact absurd h throw_ne_ok
  case isFalse htype =>
    obtain ⟨place, hplace, h⟩ := exists_of_bind_eq_ok h
    have hr' := reach_of_destination hs hplace
    obtain ⟨v₁, ht, h⟩ := exists_of_bind_eq_ok h
    obtain ⟨-, rfl⟩ := Prod.mk.inj (Except.ok.inj h)
    obtain ⟨data, hdata⟩ : ∃ data, object.content = .file data := by
      cases hc : object.content <;> simp_all [Content.type]
    have hempty := empties_of_truncate hs hr' ht
    have hout (copy : Object) : (if v₁.rewrites copy then copy.overwritten ((v₁.object? source).getD object)
        else copy).content.outline = copy.content.outline := by
      split
      · exact Content.outline_filled _ _
      · rfl
    refine ⟨source, data, place, hr, by rw [ho, Option.map_some, hdata], hr', ?_⟩
    refine ⟨fun hw => (hempty.bounded hw).trans (bounded_alter hw (fun copy hcopy => ?_) hout),
      hempty.blocked, fun object' ho' => ?_, fun hfile => ?_⟩
    · by_cases hrewrites : v₁.rewrites copy
      · exact .inl ⟨hempty.writable copy hcopy, hrewrites⟩
      · exact .inr (if_neg hrewrites)
    · rw [object?_alter_self] at ho'
      obtain ⟨copy, hcopy, rfl⟩ := Option.map_eq_some_iff.mp ho'
      exact (hempty.writable copy hcopy).of_outline (hout copy)
    obtain ⟨copy, hcopy, hc⟩ := Option.map_eq_some_iff.mp (hempty.file hfile)
    have hrewrites : v₁.rewrites copy := by simp [rewrites, hc, Content.type]
    rw [object?_alter_self, hcopy, Option.map_some, Option.map_some, if_pos hrewrites, Object.overwritten, hc]
    refine ⟨_, rfl, fun hne => ?_⟩
    have hsame : v₁.object? source = some object := by
      have hbounded : Bounded (· = place) (fun _ => False) v v₁ := hempty.bounded rfl
      refine hbounded.object?_eq (fun he => hne (congrArg v.number? he.symm)) ho ?_
      rintro - w rfl
      exact hne
    rw [hsame, Option.getD_some, hdata, Content.data]

end Bytework.Volume
