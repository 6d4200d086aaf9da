import Bytework.Proofs.Volume.Reach
import Bytework.Volume.Calls

/-!
# Bounds of a change

What a change of a volume can have touched. Entries come and go only at some places, apart from
directories that are made where nothing stood before.

* `Bounded`: a change with its bounds, which compose; `Thinned`: a change that only takes away.
* `bounded_create`, `bounded_drop`, `bounded_alter`: the changes that all calls are made of.
* `Bounded.passable`, `Bounded.links`: what leads on outside the bounds still does.
-/

namespace Bytework.Volume

variable {v v' v'' : Volume} {within within' made made' shut : Place → Prop} {follow : Bool}
  {place goal w : Place} {name : Name} {number : Nat} {object : Object} {p target : Path}

/-- An object that calls can change: it can be written to, and it takes part in a copy. -/
def Rewritable (v : Volume) (object : Object) : Prop := object.content.Writable ∧ v.rewrites object

theorem Rewritable.congr (h : v'.rules = v.rules) : v'.Rewritable object ↔ v.Rewritable object := by
  rw [Rewritable, rewrites, h, ← rewrites, ← Rewritable]

theorem Rewritable.rules_eq_plain (h : v.Rewritable object) (hfile : object.content.type ≠ .file) :
    v.rules = .plain := by
  have hrewrites := h.2
  cases hrules : v.rules with
  | plain => rfl
  | posix umask => simp [rewrites, hrules, Rules.isPosix, hfile] at hrewrites

theorem Rewritable.type_eq_file (h : v.Rewritable object) (hspecial : ∀ kind, object.content ≠ .special kind) :
    object.content.type = .file := by
  cases hc : object.content with
  | file => rfl
  | directory => exact absurd hc h.1.1
  | symlink target => exact absurd hc (h.1.2 target)
  | special kind => exact absurd hc (hspecial kind)

/-- A change of a volume that touches entries only `within` some places. Elsewhere directories can
be made at the places for which `made` holds. An object can change if it stands within the bounds and
can be written to, and then at most in its data and attributes; a new object stands at one place. -/
structure Bounded (within made : Place → Prop) (v v' : Volume) : Prop where
  sound : v.Sound → v'.Sound
  cwd : v'.cwd = v.cwd
  rules : v'.rules = v.rules
  outside : ∀ w, ¬ within w → v'.number? w = v.number? w ∨ v.Vacant w ∧ made w ∧ v'.isDirectory w
  old : ∀ {w number}, v'.number? w = some number → v.number? w = some number ∨ v.objects.size ≤ number
  shared : ∀ {w w' number}, w ≠ w' → v'.number? w = some number → v'.number? w' = some number →
    v.number? w = some number
  outlines : v.KeepsOutlines v'
  object : ∀ {number object}, v.objects[number]? = some object → v'.objects[number]? = some object ∨
    v.Rewritable object ∧ ∃ w, within w ∧ v.number? w = some number

/-- A change that takes entries away and does nothing else. -/
structure Thinned (v v' : Volume) : Prop where
  objects : v'.objects = v.objects
  number : ∀ {w number}, v'.number? w = some number → v.number? w = some number

namespace Thinned

theorem refl (v : Volume) : Thinned v v := ⟨rfl, id⟩

theorem trans (h : Thinned v v') (h' : Thinned v' v'') : Thinned v v'' :=
  ⟨h'.objects.trans h.objects, fun hn => h.number (h'.number hn)⟩

theorem vacant (h : Thinned v v') (hw : v.Vacant w) : v'.Vacant w := by
  by_contra hne
  obtain ⟨number, hn⟩ := Option.ne_none_iff_exists'.mp hne
  rw [Vacant, h.number hn] at hw
  exact absurd hw (by simp)

theorem object? (h : Thinned v v') (ho : v'.object? w = some object) : v.object? w = some object := by
  obtain ⟨number, hn, hobj⟩ := object?_eq_some.mp ho
  rw [h.objects] at hobj
  exact object?_eq_some.mpr ⟨number, h.number hn, hobj⟩

theorem isDirectory (h : Thinned v v') (hd : v'.isDirectory w) : v.isDirectory w := by
  obtain ⟨object, ho, hc⟩ := isDirectory_iff.mp hd
  exact isDirectory_iff.mpr ⟨object, h.object? ho, hc⟩

theorem object?_eq (h : Thinned v v') (hn : v'.number? w = v.number? w) : v'.object? w = v.object? w := by
  rw [Volume.object?, h.objects, hn, Volume.object?]

theorem passable (h : Thinned v v') (hp : v.Passable w) : v'.Passable w :=
  fun object ho => hp object (h.object? ho)

theorem links (h : Thinned v v') (hl : v'.Links w target) : v.Links w target := by
  obtain ⟨object, ho, hc⟩ := hl
  exact ⟨object, h.object? ho, hc⟩

end Thinned

theorem thinned_drop (place : Place) (name : Name) : Thinned v (v.drop (place ++ [name])) := by
  refine ⟨rfl, fun {w number} hn => ?_⟩
  rw [number?_drop] at hn
  split at hn
  · exact absurd hn (by simp)
  · exact hn

namespace Bounded

theorem refl (v : Volume) : Bounded within made v v where
  sound := id
  cwd := rfl
  rules := rfl
  outside _ _ := .inl rfl
  old := .inl
  shared _ hn _ := hn
  outlines := .refl v
  object := .inl

theorem trans (h : Bounded within made v v') (h' : Bounded within made v' v'') :
    Bounded within made v v'' where
  sound := h'.sound ∘ h.sound
  cwd := h'.cwd.trans h.cwd
  rules := h'.rules.trans h.rules
  outside w hw := by
    rcases h.outside w hw with he | ⟨hv, hm, hd⟩
    · rcases h'.outside w hw with he' | ⟨hv', hm', hd'⟩
      · exact .inl (he'.trans he)
      · exact .inr ⟨he.symm.trans hv', hm', hd'⟩
    · rcases h'.outside w hw with he' | ⟨hv', -, -⟩
      · exact .inr ⟨hv, hm, h'.outlines.isDirectory he' hd⟩
      · exact absurd hv' (not_vacant_of_isDirectory hd)
  old hn := by
    rcases h'.old hn with hn | hle
    · exact h.old hn
    · exact .inr (Nat.le_trans h.outlines.size_le hle)
  shared hne hn hn' := h.shared hne (h'.shared hne hn hn') (h'.shared hne.symm hn' hn)
  outlines := h.outlines.trans h'.outlines
  object ho := by
    rcases h.object ho with ho' | hw
    · rcases h'.object ho' with ho'' | ⟨hw, w, hin, hn⟩
      · exact .inl ho''
      · rcases h.old hn with hn | hle
        · exact .inr ⟨(Rewritable.congr h.rules).mp hw, w, hin, hn⟩
        · exact absurd (Array.getElem?_eq_some_iff.mp ho).1 (Nat.not_lt.mpr hle)
    · exact .inr hw

theorem mono (h : Bounded within made v v') (hw : ∀ w, within w → within' w)
    (hm : ∀ w, v.Vacant w → made w → made' w) : Bounded within' made' v v' where
  sound := h.sound
  cwd := h.cwd
  rules := h.rules
  outside w hn := (h.outside w fun hw' => hn (hw w hw')).imp_right fun ⟨hv, hmade, hd⟩ =>
    ⟨hv, hm w hv hmade, hd⟩
  old := h.old
  shared := h.shared
  outlines := h.outlines
  object ho := (h.object ho).imp_right fun ⟨hwrite, w, hin, hn⟩ => ⟨hwrite, w, hw w hin, hn⟩

/-- What only takes away, and below a place that is no directory, takes away that place at most. -/
theorem of_thinned (h : Bounded (place <+: ·) made v v') (hs : v.Sound) (ht : Thinned v v')
    (hd : ¬ v.isDirectory place) : Bounded (· = place) made v v' where
  sound := h.sound
  cwd := h.cwd
  rules := h.rules
  outside w hw := by
    by_cases hbelow : place <+: w
    · obtain ⟨below, rfl⟩ := hbelow
      have hne : below ≠ [] := by
        rintro rfl
        exact hw (List.append_nil _)
      have hv : v.Vacant (place ++ below) := by
        by_contra hv
        exact hd (hs.isDirectory_of_append hne (Option.isSome_iff_ne_none.mpr hv))
      exact .inl ((ht.vacant hv).trans hv.symm)
    · exact h.outside w hbelow
  old := h.old
  shared := h.shared
  outlines := h.outlines
  object ho := .inl (by rwa [ht.objects])

/-! ## Outside the bounds -/

theorem passable (h : Bounded within made v v') (hs : v.Sound) (hw : ¬ within w) (hp : v.Passable w) :
    v'.Passable w := by
  have hs' := h.sound hs
  rcases h.outside w hw with he | ⟨-, -, hd⟩
  · rcases hs.passable_iff.mp hp with hv | hd
    · exact hs'.passable_iff.mpr (.inl (he.trans hv))
    · exact passable_of_isDirectory (h.outlines.isDirectory he hd)
  · exact passable_of_isDirectory hd

theorem links (h : Bounded within made v v') (hw : ¬ within w) (hl : v.Links w target) :
    v'.Links w target := by
  obtain ⟨object, ho, hc⟩ := hl
  rcases h.outside w hw with he | ⟨hv, -, -⟩
  · obtain ⟨object', ho', hout⟩ := h.outlines.object? he ho
    rw [hc] at hout
    exact ⟨object', ho', Content.outline_eq_symlink.mp hout⟩
  · exact absurd hv (not_vacant_of_object? ho)

theorem links_of_links (h : Bounded within made v v') (hs : v.Sound) (hw : ¬ within w)
    (hl : v'.Links w target) : v.Links w target := by
  rcases h.outside w hw with he | ⟨-, -, hd⟩
  · obtain ⟨object', ho', hc⟩ := hl
    obtain ⟨number, hn, -⟩ := object?_eq_some.mp ho'
    have hsome : (v.number? w).isSome := by
      rw [← he, hn]
      rfl
    obtain ⟨object, ho⟩ := hs.isSome_object? hsome
    obtain ⟨object'', ho'', hout⟩ := h.outlines.object? he ho
    obtain rfl := Option.some.inj (ho'.symm.trans ho'')
    rw [hc] at hout
    exact ⟨object, ho, Content.outline_eq_symlink.mp hout.symm⟩
  · exact absurd (passable_of_isDirectory hd) hl.not_passable

theorem passable_of_passable (h : Bounded within made v v') (hw : ¬ within w) (hp : v'.Passable w) : v.Passable w := by
  intro object ho
  have hn := (h.outside w hw).resolve_right fun hnew => not_vacant_of_object? ho hnew.1
  obtain ⟨object', ho', hout⟩ := h.outlines.object? hn ho
  rw [hp object' ho'] at hout
  exact Content.outline_eq_directory.mp hout.symm

theorem isDirectory (h : Bounded within made v v') (hw : ¬ within w) (hd : v.isDirectory w) :
    v'.isDirectory w := by
  rcases h.outside w hw with he | ⟨-, -, hd'⟩
  · exact h.outlines.isDirectory he hd
  · exact hd'

theorem number?_eq (h : Bounded within made v v') (hw : ¬ within w) (hv : ¬ v.Vacant w) :
    v'.number? w = v.number? w :=
  (h.outside w hw).resolve_right fun hvacant => hv hvacant.1

theorem not_vacant (h : Bounded within made v v') (hw : ¬ within w) (hv : ¬ v.Vacant w) :
    ¬ v'.Vacant w := by
  rwa [Vacant, h.number?_eq hw hv]

theorem object?_eq (h : Bounded within made v v') (hout : ¬ within w) (ho : v.object? w = some object)
    (hw : v.Rewritable object → ∀ w', within w' → v.number? w' ≠ v.number? w) :
    v'.object? w = some object := by
  obtain ⟨number, hn, hobj⟩ := object?_eq_some.mp ho
  have he := h.number?_eq hout (not_vacant_of_object? ho)
  rcases h.object hobj with hobj' | ⟨hwrite, w', hin, hn'⟩
  · exact object?_eq_some.mpr ⟨number, he.trans hn, hobj'⟩
  · exact absurd (hn'.trans hn.symm) (hw hwrite w' hin)

theorem leads (h : Bounded within made v v') (hs : v.Sound) (hw : ∀ w, within w → shut w)
    (hgoal : ∀ target, v'.Links goal target → v.Links goal target) (hl : v.Leads shut follow p goal) :
    v'.Leads shut follow p goal := by
  have hroute : v'.route p = v.route p := by rw [route, h.cwd, route]
  rw [Leads, hroute, follows_congr h.rules]
  exact hl.congr (fun w hn => h.passable hs fun hin => hn (hw w hin))
    (fun w target hn => h.links fun hin => hn (hw w hin)) hgoal

theorem leads_of_leads (h : Bounded (fun _ => False) made v v') (hs : v.Sound) (hl : v'.Leads shut follow p goal) :
    v.Leads shut follow p goal := by
  have hroute : v'.route p = v.route p := by rw [route, h.cwd, route]
  rw [Leads, hroute, follows_congr h.rules] at hl
  exact hl.congr (fun _ _ => h.passable_of_passable id) (fun _ _ _ => h.links_of_links hs id) fun _ => h.links id

end Bounded

/-- Where entries have been taken away, a path that leads to what is left led there before. -/
theorem Thinned.leads (h : Thinned v v') (hs' : v'.Sound) (hcwd : v'.cwd = v.cwd) (hrules : v'.rules = v.rules)
    (hr : v'.reach follow p = .ok goal) (hstands : ¬ v'.Vacant goal) :
    v.Leads (fun _ => False) follow p goal := by
  have hsame {w : Place} {object : Object} (ho : v.object? w = some object) (hw : ¬ v'.Vacant w) :
      v'.object? w = some object := by
    obtain ⟨object', ho'⟩ := hs'.isSome_object? (Option.isSome_iff_ne_none.mpr hw)
    exact ho'.trans ((h.object? ho').symm.trans ho)
  have hleads := leads_of_reach hs' hr
  have hroute : v'.route p = v.route p := by rw [route, hcwd, route]
  rw [Leads, hroute, follows_congr hrules] at hleads
  have hway : Way v v'.Vacant (v.follows follow p || p.names.isEmpty) [] (v.route p) goal := by
    refine hleads.congr (fun w hw hp object ho => hp object (hsame ho hw)) (fun w target _ hl => h.links hl) ?_
    rintro target ⟨object, ho, hc⟩
    exact ⟨object, hsame ho hstands, hc⟩
  exact hway.mono fun _ => False.elim

/-! ## Changes with their bounds -/

theorem bounded_create (hs : v.Sound) (hd : v.isDirectory place) (hv : v.Vacant (place ++ [name]))
    (hn : Path.IsPlain name)
    (hb : within (place ++ [name]) ∨ made (place ++ [name]) ∧ object.content = .directory) :
    Bounded within made v (v.create (place ++ [name]) object) := by
  have hnumber : ∀ w, (v.create (place ++ [name]) object).number? w =
      if w = place ++ [name] then some v.objects.size else v.number? w :=
    number?_create (isSome_number?_of_isDirectory hd) hv
  refine ⟨fun _ => hs.create hd hv hn, rfl, rfl, fun w hw => ?_, ?_, ?_, keepsOutlines_create, ?_⟩
  · rw [hnumber]
    split
    case isTrue he =>
      subst he
      obtain ⟨hm, hdir⟩ := hb.resolve_left hw
      refine .inr ⟨hv, hm, isDirectory_iff.mpr ⟨object, ?_, hdir⟩⟩
      rw [object?_create hs (isSome_number?_of_isDirectory hd) hv, if_pos rfl]
    case isFalse => exact .inl rfl
  · intro w number hn
    rw [hnumber] at hn
    split at hn
    · exact .inr (Nat.le_of_eq (Option.some.inj hn))
    · exact .inl hn
  · intro w w' number hne hn hn'
    rw [hnumber] at hn hn'
    split at hn
    case isTrue he =>
      rw [if_neg (fun he' => hne (he.trans he'.symm))] at hn'
      rw [← Option.some.inj hn] at hn'
      exact absurd (hs.stored hn') (Nat.lt_irrefl _)
    case isFalse => exact hn
  · intro number old ho
    obtain ⟨hlt, -⟩ := Array.getElem?_eq_some_iff.mp ho
    exact .inl (by rw [create, Array.getElem?_push, if_neg (Nat.ne_of_lt hlt), ho])

theorem bounded_drop (place : Place) (name : Name) :
    Bounded (place ++ [name] <+: ·) made v (v.drop (place ++ [name])) := by
  have hthin := thinned_drop (v := v) place name
  refine ⟨Sound.drop, rfl, rfl, fun w hw => ?_, fun hn => .inl (hthin.number hn),
    fun _ hn _ => hthin.number hn, keepsOutlines_drop, .inl⟩
  rw [number?_drop, if_neg hw]
  exact .inl rfl

@[simp] theorem rules_alter (v : Volume) (place : Place) (change : Object → Object) :
    (v.alter place change).rules = v.rules := by
  unfold alter
  split <;> rfl

theorem bounded_alter {change : Object → Object} (hw : within place)
    (hwrite : ∀ object, v.object? place = some object → v.Rewritable object ∨ change object = object)
    (hc : ∀ object, (change object).content.outline = object.content.outline) :
    Bounded within made v (v.alter place change) := by
  refine ⟨fun hs => hs.alter hc, ?_, rules_alter _ _ _, fun w _ => .inl (number?_alter _ _ _ _), fun hn => .inl ?_,
    fun _ hn _ => ?_, keepsOutlines_alter hc, fun {number object} ho => ?_⟩
  · unfold alter
    split <;> rfl
  · rwa [number?_alter] at hn
  · rwa [number?_alter] at hn
  · cases hnum : v.number? place with
    | none => exact .inl (by simpa [alter, hnum] using ho)
    | some altered =>
      by_cases he : number = altered
      · subst he
        rcases hwrite object (object?_eq_some.mpr ⟨number, hnum, ho⟩) with hwrite | hsame
        · exact .inr ⟨hwrite, place, hw, hnum⟩
        · exact .inl (by rw [getElem?_alter hnum, if_pos rfl, ho, Option.map_some, hsame])
      · exact .inl (by rw [getElem?_alter hnum, if_neg he, ho])

end Bytework.Volume
