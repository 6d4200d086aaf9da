import Bytework.Proofs.Volume.Sound

/-!
# Ways

Where the names of a path lead, with what is missing on the way taken for directories that are still
to be made. A way leads in one direction only, and it says which places it never passes.

* `Way`: along names, links followed; `Leads`: along a whole path.
* **`Way.unique`**: names lead to one place; `Way.initial`: the first names lead somewhere too.
* `Leads.join`: what a path and one more name lead to.
-/

namespace Bytework.Volume

variable {v v' : Volume} {shut shut' : Place → Prop} {follow follow' : Bool}
  {base goal goal' place : Place} {name : Name} {names ahead : List Name} {p q : Path}
  {target : Path}

/-- At a place stands a directory or nothing. -/
def Passable (v : Volume) (place : Place) : Prop :=
  ∀ object, v.object? place = some object → object.content = .directory

/-- At a place stands a link. -/
def Links (v : Volume) (place : Place) (target : Path) : Prop :=
  ∃ object, v.object? place = some object ∧ object.content = .symlink target

/-- Nothing stands at a place. -/
def Vacant (v : Volume) (place : Place) : Prop := v.number? place = none

theorem not_vacant_of_object? {object : Object} (ho : v.object? place = some object) : ¬ v.Vacant place := by
  obtain ⟨number, hn, -⟩ := object?_eq_some.mp ho
  rw [Vacant, hn]
  simp

theorem not_vacant_of_isDirectory (h : v.isDirectory place) : ¬ v.Vacant place :=
  Option.isSome_iff_ne_none.mp (isSome_number?_of_isDirectory h)

theorem Sound.not_vacant_root (h : v.Sound) : ¬ v.Vacant [] :=
  not_vacant_of_isDirectory h.root

theorem vacant_of_dropLast (h : v.Vacant place.dropLast) : v.Vacant place := by
  by_contra hne
  have hs := isSome_number?_of_isPrefix place.dropLast_prefix (Option.isSome_iff_ne_none.mpr hne)
  exact Option.isSome_iff_ne_none.mp hs h

theorem passable_of_isDirectory (h : v.isDirectory place) : v.Passable place := by
  intro object ho
  obtain ⟨object', ho', hc⟩ := isDirectory_iff.mp h
  rw [ho, Option.some.injEq] at ho'
  rw [ho', hc]

theorem Sound.passable_iff (h : v.Sound) :
    v.Passable place ↔ v.Vacant place ∨ v.isDirectory place := by
  constructor
  · intro hp
    cases ho : v.object? place with
    | none => exact .inl (h.object?_eq_none.mp ho)
    | some object => exact .inr (isDirectory_iff.mpr ⟨object, ho, hp object ho⟩)
  · rintro (hv | hd)
    · intro object ho
      simp [h.object?_eq_none.mpr hv] at ho
    · exact passable_of_isDirectory hd

theorem links_iff : v.Links place target ↔ (v.object? place).map (·.content) = some (.symlink target) := by
  simp [Links, Option.map_eq_some_iff]

theorem isDirectory_iff_content :
    v.isDirectory place ↔ (v.object? place).map (·.content) = some .directory := by
  rw [isDirectory_iff, Option.map_eq_some_iff]

theorem Links.not_passable (h : v.Links place target) : ¬ v.Passable place := by
  intro hp
  obtain ⟨object, ho, hc⟩ := h
  simp [hp object ho] at hc

theorem Links.unique {target' : Path} (h : v.Links place target) (h' : v.Links place target') :
    target = target' := by
  obtain ⟨object, ho, hc⟩ := h
  obtain ⟨object', ho', hc'⟩ := h'
  rw [ho, Option.some.injEq] at ho'
  rw [ho', hc'] at hc
  exact (Content.symlink.inj hc).symm

/-- Along names from a directory to a goal. The way passes no place that is shut; it may end at
one. -/
inductive Way (v : Volume) (shut : Place → Prop) (follow : Bool) : Place → List Name → Place → Prop
  | stay (base : Place) : Way v shut follow base [] base
  | up {base : Place} {ahead : List Name} {goal : Place} :
      Way v shut follow base.dropLast ahead goal → Way v shut follow base (Path.up :: ahead) goal
  /-- Into a directory, or into one that is still to be made. -/
  | enter {base : Place} {name : Name} {ahead : List Name} {goal : Place} :
      name ≠ Path.up → ahead ≠ [] → ¬ shut (base ++ [name]) → v.Passable (base ++ [name]) →
      Way v shut follow (base ++ [name]) ahead goal → Way v shut follow base (name :: ahead) goal
  | arrive {base : Place} {name : Name} :
      name ≠ Path.up → (follow → ∀ target, ¬ v.Links (base ++ [name]) target) →
      Way v shut follow base [name] (base ++ [name])
  /-- Through a link. -/
  | turn {base : Place} {name : Name} {ahead : List Name} {goal : Place} {target : Path} :
      name ≠ Path.up → (ahead ≠ [] ∨ follow) → ¬ shut (base ++ [name]) →
      v.Links (base ++ [name]) target →
      Way v shut follow (origin base target) (target.names ++ ahead) goal →
      Way v shut follow base (name :: ahead) goal

/-- The names from the root on along a path. -/
def route (v : Volume) (p : Path) : List Name :=
  if p.isAbsolute then p.names else v.cwd.names ++ p.names

/-- Whether a link at the end of a path is followed. -/
def follows (v : Volume) (follow : Bool) (p : Path) : Bool := follow || v.asks p

/-- Where a path leads. A link at its end is passed if the path follows it, or has no names of its
own. -/
def Leads (v : Volume) (shut : Place → Prop) (follow : Bool) (p : Path) (goal : Place) : Prop :=
  Way v shut (v.follows follow p || p.names.isEmpty) [] (v.route p) goal

/-- What stands at the end of a path is what the path asks for. Behind a slash a directory may still be
missing. -/
def Settles (v : Volume) (p : Path) (place : Place) : Prop :=
  v.asks p → v.isDirectory place ∨ v.object? place = none ∧ p.endsInDot = false

@[simp] theorem follows_true : v.follows true p = true := rfl

theorem follows_congr (h : v'.rules = v.rules) : v'.follows follow p = v.follows follow p := by
  rw [follows, asks, h, ← asks, ← follows]

theorem Sound.isDirectory_origin (hs : v.Sound) (hd : v.isDirectory base) :
    v.isDirectory (origin base p) := by
  unfold origin
  split
  · exact hs.root
  · exact hd

theorem Sound.isDirectory_dropLast (hs : v.Sound) (hd : v.isDirectory base) :
    v.isDirectory base.dropLast := by
  rcases List.eq_nil_or_concat base with rfl | ⟨parent, name, rfl⟩
  · exact hs.root
  · rw [List.concat_eq_append] at hd ⊢
    rw [List.dropLast_concat]
    exact hs.enclosed (isSome_number?_of_isDirectory hd)

/-! ## One way -/

namespace Way

theorem mono (hs : ∀ w, shut' w → shut w) (h : Way v shut follow base names goal) :
    Way v shut' follow base names goal := by
  induction h with
  | stay => exact .stay _
  | up _ ih => exact .up ih
  | enter hn ha hb hp _ ih => exact .enter hn ha (fun h => hb (hs _ h)) hp ih
  | arrive hn hf => exact .arrive hn hf
  | turn hn ha hb hl _ ih => exact .turn hn ha (fun h => hb (hs _ h)) hl ih

/-- Names lead to one place before and after a change, if links on the first way are still there and there are
no new ones on it. -/
theorem retrace (hp : ∀ w target, ¬ shut w → v.Passable w → ¬ v'.Links w target)
    (hl : ∀ w target, ¬ shut w → v.Links w target → v'.Links w target)
    (h : Way v shut follow base names goal) (hgoal : ∀ target, v'.Links goal target → v.Links goal target)
    (h' : Way v' shut' follow base names goal') : goal = goal' := by
  induction h generalizing goal' with
  | stay => cases h'; rfl
  | up _ ih =>
    cases h' with
    | up h' => exact ih hgoal h'
    | enter hn => exact absurd rfl hn
    | arrive hn => exact absurd rfl hn
    | turn hn => exact absurd rfl hn
  | enter hn ha hb hpass _ ih =>
    cases h' with
    | up => exact absurd rfl hn
    | enter _ _ _ _ h' => exact ih hgoal h'
    | arrive => exact absurd rfl ha
    | turn _ _ _ hl' => exact absurd hl' (hp _ _ hb hpass)
  | arrive hn hf =>
    cases h' with
    | up => exact absurd rfl hn
    | enter _ ha => exact absurd rfl ha
    | arrive => rfl
    | turn _ ha _ hl' => exact absurd (hgoal _ hl') (hf (ha.resolve_left (absurd rfl)) _)
  | turn hn ha hb hlink _ ih =>
    cases h' with
    | up => exact absurd rfl hn
    | enter _ _ _ hpass => exact absurd hpass (hl _ _ hb hlink).not_passable
    | arrive _ hf => exact absurd (hl _ _ hb hlink) (hf (ha.resolve_left (absurd rfl)) _)
    | turn _ _ _ hl' h' =>
      obtain rfl := (hl _ _ hb hlink).unique hl'
      exact ih hgoal h'

theorem unique (h : Way v shut follow base names goal) (h' : Way v shut' follow base names goal') :
    goal = goal' :=
  h.retrace (fun _ _ _ hp hl => hl.not_passable hp) (fun _ _ _ hl => hl) (fun _ hl => hl) h'

/-- What stands off the shut places decides over a way, and whether a link is at its end. -/
theorem congr (hp : ∀ w, ¬ shut w → v.Passable w → v'.Passable w)
    (hl : ∀ w target, ¬ shut w → v.Links w target → v'.Links w target)
    (hgoal : ∀ target, v'.Links goal target → v.Links goal target)
    (h : Way v shut follow base names goal) : Way v' shut follow base names goal := by
  induction h with
  | stay => exact .stay _
  | up _ ih => exact .up (ih hgoal)
  | enter hn ha hb hpass _ ih => exact .enter hn ha hb (hp _ hb hpass) (ih hgoal)
  | arrive hn hf => exact .arrive hn fun hfollow target hlink => hf hfollow target (hgoal target hlink)
  | turn hn ha hb hlink _ ih => exact .turn hn ha hb (hl _ _ hb hlink) (ih hgoal)

theorem followed (h : Way v shut false base names goal) (hgoal : ∀ target, ¬ v.Links goal target) :
    Way v shut follow base names goal := by
  induction h with
  | stay => exact .stay _
  | up _ ih => exact .up (ih hgoal)
  | enter hn ha hb hp _ ih => exact .enter hn ha hb hp (ih hgoal)
  | arrive hn _ => exact .arrive hn fun _ => hgoal
  | turn hn ha hb hl _ ih => exact .turn hn (.inl (ha.resolve_right Bool.false_ne_true)) hb hl (ih hgoal)

/-- From the end of a way, if it can be passed, another one leads on. -/
theorem append {more : List Name} (h : Way v shut follow base names goal)
    (hs : ∀ w, shut' w → shut w) (hb : ¬ shut' goal) (hp : v.Passable goal) (hm : more ≠ [])
    (h' : Way v shut' follow' goal more goal') : Way v shut' follow' base (names ++ more) goal' := by
  induction h with
  | stay => exact h'
  | up _ ih => exact .up (ih hb hp h')
  | enter hn _ hb' hp' _ ih =>
    exact .enter hn (List.append_ne_nil_of_right_ne_nil _ hm) (fun h => hb' (hs _ h)) hp' (ih hb hp h')
  | arrive hn _ => exact .enter hn hm hb hp h'
  | @turn base name ahead _ target hn _ hb' hl _ ih =>
    have hway := ih hb hp h'
    rw [List.append_assoc] at hway
    exact .turn hn (.inl (List.append_ne_nil_of_right_ne_nil _ hm)) (fun h => hb' (hs _ h)) hl hway

/-- The first names of a way lead somewhere that is not shut. -/
theorem initial {more : List Name} (h : Way v shut follow base (names ++ more) goal)
    (hup : ∀ w, shut w.dropLast → shut w) (hroot : ¬ shut []) (hbase : ¬ shut base) (hm : more ≠ []) :
    ∃ w, Way v shut true base names w ∧ ¬ shut w := by
  generalize hall : names ++ more = all at h
  induction h generalizing names with
  | stay base => exact absurd hall (List.append_ne_nil_of_right_ne_nil _ hm)
  | up _ ih =>
    rcases List.append_eq_cons_iff.mp hall with ⟨rfl, -⟩ | ⟨rest, rfl, rfl⟩
    · exact ⟨_, .stay _, hbase⟩
    · obtain ⟨w, hw, hns⟩ := ih (fun h => hbase (hup _ h)) rfl
      exact ⟨w, .up hw, hns⟩
  | enter hn ha hb hp _ ih =>
    rcases List.append_eq_cons_iff.mp hall with ⟨rfl, -⟩ | ⟨rest, rfl, rfl⟩
    · exact ⟨_, .stay _, hbase⟩
    · obtain ⟨w, hw, hns⟩ := ih hb rfl
      refine ⟨w, ?_, hns⟩
      rcases rest with _ | ⟨next, rest⟩
      · cases hw
        exact .arrive hn fun _ _ hl => hl.not_passable hp
      · exact .enter hn (List.cons_ne_nil _ _) hb hp hw
  | arrive hn hf =>
    rcases List.append_eq_cons_iff.mp hall with ⟨rfl, -⟩ | ⟨rest, rfl, hrest⟩
    · exact ⟨_, .stay _, hbase⟩
    · exact absurd hrest.symm (List.append_ne_nil_of_right_ne_nil _ hm)
  | @turn base name _ _ target hn ha hb hl _ ih =>
    rcases List.append_eq_cons_iff.mp hall with ⟨rfl, -⟩ | ⟨rest, rfl, rfl⟩
    · exact ⟨_, .stay _, hbase⟩
    · have horigin : ¬ shut (origin base target) := by
        unfold origin
        split
        · exact hroot
        · exact hbase
      obtain ⟨w, hw, hns⟩ := ih horigin (List.append_assoc _ _ _)
      exact ⟨w, .turn hn (.inr rfl) hb hl hw, hns⟩

/-! ### The first name of a way -/

theorem after_up (h : Way v shut follow base (Path.up :: ahead) goal) :
    Way v shut follow base.dropLast ahead goal := by
  cases h with
  | up h => exact h
  | enter hn => exact absurd rfl hn
  | arrive hn => exact absurd rfl hn
  | turn hn => exact absurd rfl hn

section First

variable (hn : name ≠ Path.up) (h : Way v shut follow base (name :: ahead) goal)

include hn h

theorem not_shut_first (hgoal : ¬ shut goal) : ¬ shut (base ++ [name]) := by
  cases h with
  | up => exact absurd rfl hn
  | enter _ _ hb => exact hb
  | arrive => exact hgoal
  | turn _ _ hb => exact hb

theorem after_name (hl : ∀ target, ¬ v.Links (base ++ [name]) target) :
    Way v shut follow (base ++ [name]) ahead goal := by
  cases h with
  | up => exact absurd rfl hn
  | enter _ _ _ _ h => exact h
  | arrive => exact .stay _
  | turn _ _ _ hl' => exact absurd hl' (hl _)

theorem after_link (hl : v.Links (base ++ [name]) target) (hmore : ahead ≠ [] ∨ follow) :
    Way v shut follow (origin base target) (target.names ++ ahead) goal := by
  cases h with
  | up => exact absurd rfl hn
  | enter _ _ _ hp => exact absurd hp hl.not_passable
  | arrive _ hf => exact absurd hl (hf (hmore.resolve_left (absurd rfl)) target)
  | turn _ _ _ hl' h => exact hl.unique hl' ▸ h

theorem last_name (hp : ¬ v.Passable (base ++ [name])) (hl : ∀ target, ¬ v.Links (base ++ [name]) target) :
    ahead = [] := by
  cases h with
  | up => exact absurd rfl hn
  | enter _ _ _ hp' => exact absurd hp' hp
  | arrive => rfl
  | turn _ _ _ hl' => exact absurd hl' (hl _)

end First

/-- From where the first names of a way lead, the way goes on. -/
theorem rest {more : List Name} (h : Way v shut' true base names place)
    (h' : Way v shut follow base (names ++ more) goal) (hm : more ≠ []) : Way v shut follow place more goal := by
  induction h with
  | stay => exact h'
  | up _ ih => exact ih h'.after_up
  | enter hn _ _ hp _ ih => exact ih (after_name hn h' fun _ hl => hl.not_passable hp)
  | arrive hn hf => exact after_name hn h' (hf rfl)
  | turn hn _ _ hl _ ih =>
    refine ih ?_
    rw [List.append_assoc]
    exact after_link hn h' hl (.inl (List.append_ne_nil_of_right_ne_nil _ hm))

/-- A way passes what is shut neither to it nor to another one along the same names. -/
theorem both (h : Way v shut follow base names goal) (h' : Way v shut' follow base names goal') :
    Way v (fun w => shut w ∨ shut' w) follow base names goal := by
  induction h generalizing goal' with
  | stay => exact .stay _
  | up _ ih => exact .up (ih h'.after_up)
  | enter hn ha hb hp _ ih =>
    cases h' with
    | up => exact absurd rfl hn
    | enter _ _ hb' _ h' => exact .enter hn ha (fun h => h.elim hb hb') hp (ih h')
    | arrive => exact absurd rfl ha
    | turn _ _ _ hl => exact absurd hp hl.not_passable
  | arrive hn hf => exact .arrive hn hf
  | turn hn ha hb hl _ ih =>
    cases h' with
    | up => exact absurd rfl hn
    | enter _ _ _ hp => exact absurd hp hl.not_passable
    | arrive _ hf => exact absurd hl (hf (ha.resolve_left (absurd rfl)) _)
    | turn _ _ hb' hl' h' =>
      obtain rfl := hl.unique hl'
      exact .turn hn ha (fun h => h.elim hb hb') hl (ih h')

/-- Over what exists a way ends at what exists, or at a new name in a directory. -/
theorem ends (hs : v.Sound) (h : Way v v.Vacant follow base names goal) (hbase : v.isDirectory base)
    (hnames : ∀ n ∈ names, n ≠ Path.up → Path.IsPlain n) (hgoal : v.Vacant goal) :
    ∃ directory name, goal = directory ++ [name] ∧ v.isDirectory directory ∧ Path.IsPlain name := by
  induction h with
  | stay base =>
    exact absurd hgoal (not_vacant_of_isDirectory hbase)
  | @up base _ _ _ ih =>
    exact ih (hs.isDirectory_dropLast hbase) (fun n hn => hnames n (List.mem_cons_of_mem _ hn)) hgoal
  | enter _ _ hb hp _ ih =>
    exact ih ((hs.passable_iff.mp hp).resolve_left hb)
      (fun n hn => hnames n (List.mem_cons_of_mem _ hn)) hgoal
  | @arrive base name hn _ =>
    exact ⟨base, name, rfl, hbase, hnames name List.mem_cons_self hn⟩
  | @turn base name ahead _ target _ _ _ _ _ ih =>
    refine ih (hs.isDirectory_origin hbase) (fun n hn hup => ?_) hgoal
    · rcases List.mem_append.mp hn with h | h
      · exact Path.isPlain_of_mem_names h hup
      · exact hnames n (List.mem_cons_of_mem _ h) hup

theorem not_links (hs : v.Sound) (h : Way v v.Vacant true base names goal) (hbase : v.isDirectory base) :
    ¬ v.Links goal target := by
  induction h with
  | stay => exact fun hl => hl.not_passable (passable_of_isDirectory hbase)
  | up _ ih => exact ih (hs.isDirectory_dropLast hbase)
  | enter _ _ hb hp _ ih => exact ih ((hs.passable_iff.mp hp).resolve_left hb)
  | arrive _ hf => exact hf rfl target
  | turn _ _ _ _ _ ih => exact ih (hs.isDirectory_origin hbase)

end Way

/-! ## Paths -/

theorem isPlain_of_mem_route (h : name ∈ v.route p) (hup : name ≠ Path.up) : Path.IsPlain name := by
  unfold route at h
  split at h
  · exact Path.isPlain_of_mem_names h hup
  · rcases List.mem_append.mp h with h | h <;> exact Path.isPlain_of_mem_names h hup

theorem route_join (h : Path.IsPlain name) : v.route (p.join name) = v.route p ++ [name] := by
  unfold route
  rw [Path.isAbsolute_join h, Path.names_join h]
  split
  · rfl
  · rw [List.append_assoc]

theorem asks_of_names_eq_nil (h : p.names = []) : v.asks p = false := by
  rw [asks, Path.asksDirectory_of_names_eq_nil h, Bool.and_false]

theorem asks_join (h : Path.IsPlain name) : v.asks (p.join name) = false := by
  rw [asks, Path.asksDirectory_join h, Bool.and_false]

@[simp] theorem follows_join (h : Path.IsPlain name) : v.follows follow (p.join name) = follow := by
  rw [follows, asks_join h, Bool.or_false]

theorem Leads.unique (h : v.Leads shut follow p goal) (h' : v.Leads shut' follow p goal') :
    goal = goal' :=
  Way.unique h h'

theorem Leads.followed (h : v.Leads shut false p goal) (hgoal : ∀ target, ¬ v.Links goal target) :
    v.Leads shut follow p goal := by
  unfold Leads follows at h ⊢
  cases hn : v.asks p || p.names.isEmpty with
  | true => simpa [Bool.or_assoc, hn] using h
  | false =>
    rw [Bool.or_assoc, hn] at h
    exact Way.followed h hgoal

theorem Leads.join (h : v.Leads shut follow p place) (hs : ∀ w, shut' w → shut w)
    (hb : ¬ shut' place) (hp : v.Passable place) (hn : Path.IsPlain name)
    (hfollow : follow' → ∀ target, ¬ v.Links (place ++ [name]) target) :
    v.Leads shut' follow' (p.join name) (place ++ [name]) := by
  rw [Leads, route_join hn, Path.names_join hn, follows, asks_join hn]
  refine Way.append h hs hb hp (List.cons_ne_nil _ _) (.arrive hn.2.2.1 fun hf => hfollow ?_)
  simpa using hf

end Bytework.Volume
