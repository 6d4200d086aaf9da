import Bytework.Proofs.Volume.Places

/-!
# Sound volumes

What holds of a volume however calls have changed it.

* `Content.outline`: a content without the data of a file; links and directories are known by it.
* `Sound`: names are plain and stand once in a directory, and only directories have entries.
* `Sound.create`, `Sound.drop`, `Sound.alter`: the changes keep that.
-/

namespace Bytework

/-! ## Outlines -/

namespace Content

/-- A content without the data of a file. -/
def outline (content : Content) : Content := content.filled []

@[simp] theorem outline_filled (data : Bytes) (content : Content) :
    (content.filled data).outline = content.outline := by
  cases content <;> rfl

@[simp] theorem type_outline (content : Content) : content.outline.type = content.type := by
  cases content <;> rfl

theorem outline_eq_directory {content : Content} :
    content.outline = .directory ↔ content = .directory := by
  cases content <;> simp [outline, filled]

theorem outline_eq_symlink {content : Content} {target : Path} :
    content.outline = .symlink target ↔ content = .symlink target := by
  cases content <;> simp [outline, filled]

/-- A content that something can be written to. -/
def Writable (content : Content) : Prop := content ≠ .directory ∧ ∀ target, content ≠ .symlink target

theorem Writable.of_outline {a b : Content} (h : a.Writable) (he : b.outline = a.outline) : b.Writable := by
  refine ⟨fun hc => h.1 (outline_eq_directory.mp ?_), fun target hc => h.2 target (outline_eq_symlink.mp ?_)⟩
  · rw [← he, hc]
    rfl
  · rw [← he, hc]
    rfl

theorem eq_of_outline {a b : Content} (h : a.outline = b.outline) (hfile : b.type ≠ .file) :
    a = b := by
  cases b with
  | file => exact absurd rfl hfile
  | directory => exact outline_eq_directory.mp h
  | symlink target => exact outline_eq_symlink.mp h
  | special kind => cases a <;> simp_all [outline, filled]

end Content

namespace Volume

/-- Every object of a volume is still there in another one, at most with other data. -/
def KeepsOutlines (v v' : Volume) : Prop :=
  ∀ ⦃number : Nat⦄ ⦃object : Object⦄, v.objects[number]? = some object →
    ∃ object' : Object, v'.objects[number]? = some object' ∧
      object'.content.outline = object.content.outline

variable {v v' : Volume} {place other : Place} {name : Name} {number : Nat} {object : Object}

theorem KeepsOutlines.refl (v : Volume) : KeepsOutlines v v := fun _ _ h => ⟨_, h, rfl⟩

theorem KeepsOutlines.trans {w : Volume} (h : KeepsOutlines v v') (h' : KeepsOutlines v' w) :
    KeepsOutlines v w := by
  intro number object ho
  obtain ⟨object', ho', he⟩ := h ho
  obtain ⟨object'', ho'', he'⟩ := h' ho'
  exact ⟨object'', ho'', he'.trans he⟩

theorem KeepsOutlines.size_le (h : KeepsOutlines v v') : v.objects.size ≤ v'.objects.size := by
  by_contra hlt
  rw [Nat.not_le] at hlt
  obtain ⟨object', ho', -⟩ := h (Array.getElem?_eq_getElem hlt)
  exact absurd (Array.getElem?_eq_some_iff.mp ho').1 (Nat.lt_irrefl _)

theorem KeepsOutlines.object? (h : KeepsOutlines v v') (hn : v'.number? place = v.number? place)
    (ho : v.object? place = some object) :
    ∃ object', v'.object? place = some object' ∧
      object'.content.outline = object.content.outline := by
  obtain ⟨number, hnum, hobj⟩ := object?_eq_some.mp ho
  obtain ⟨object', ho', he⟩ := h hobj
  exact ⟨object', object?_eq_some.mpr ⟨number, hn.trans hnum, ho'⟩, he⟩

theorem KeepsOutlines.isDirectory (h : KeepsOutlines v v')
    (hn : v'.number? place = v.number? place) (hd : v.isDirectory place) :
    v'.isDirectory place := by
  obtain ⟨object, ho, hc⟩ := isDirectory_iff.mp hd
  obtain ⟨object', ho', he⟩ := h.object? hn ho
  rw [hc] at he
  exact isDirectory_iff.mpr ⟨object', ho', Content.outline_eq_directory.mp he⟩

/-! ## Soundness -/

/-- What holds of every volume that calls have made: names are plain and stand once in a directory,
only directories have entries, and every entry has an object. -/
structure Sound (v : Volume) : Prop where
  root : v.isDirectory []
  stored : ∀ {place number}, v.number? place = some number → number < v.objects.size
  enclosed : ∀ {place name}, (v.number? (place ++ [name])).isSome → v.isDirectory place
  plain : ∀ {place name}, (v.number? (place ++ [name])).isSome → Path.IsPlain name
  distinct : ∀ place, (v.names place).Nodup

theorem Sound.isSome_object? (h : v.Sound) (hs : (v.number? place).isSome) :
    ∃ object, v.object? place = some object := by
  obtain ⟨number, hn⟩ := Option.isSome_iff_exists.mp hs
  exact ⟨_, object?_eq_some.mpr ⟨number, hn, Array.getElem?_eq_getElem (h.stored hn)⟩⟩

theorem Sound.object?_eq_none (h : v.Sound) : v.object? place = none ↔ v.number? place = none := by
  constructor
  · intro ho
    by_contra hn
    obtain ⟨object, hobj⟩ := h.isSome_object? (Option.isSome_iff_ne_none.mpr hn)
    simp [ho] at hobj
  · intro hn
    rw [Volume.object?, hn, Option.bind_none]

theorem Sound.isDirectory_of_append (h : v.Sound) {below : Place} (hb : below ≠ [])
    (hs : (v.number? (place ++ below)).isSome) : v.isDirectory place := by
  obtain ⟨name, rest, rfl⟩ := List.exists_cons_of_ne_nil hb
  have hpre : place ++ [name] <+: place ++ name :: rest :=
    (List.prefix_append_right_inj place).mpr (List.cons_prefix_cons.mpr ⟨rfl, List.nil_prefix⟩)
  exact h.enclosed (isSome_number?_of_isPrefix hpre hs)

theorem Sound.isDirectory_of_isPrefix (h : v.Sound) (hpre : place <+: other) (hd : v.isDirectory other) :
    v.isDirectory place := by
  obtain ⟨below, rfl⟩ := hpre
  rcases List.eq_nil_or_concat below with rfl | ⟨_, _, hb⟩
  · rwa [List.append_nil] at hd
  · exact h.isDirectory_of_append (by simp [hb]) (isSome_number?_of_isDirectory hd)

/-! ## Making an entry -/

theorem keepsOutlines_create : KeepsOutlines v (v.create place object) := by
  intro number old ho
  refine ⟨old, ?_, rfl⟩
  rw [create, Array.getElem?_push, if_neg, ho]
  exact Nat.ne_of_lt (Array.getElem?_eq_some_iff.mp ho).1

theorem object?_create (h : v.Sound) (hd : (v.number? place).isSome)
    (hv : v.number? (place ++ [name]) = none) (other : Place) :
    (v.create (place ++ [name]) object).object? other =
      if other = place ++ [name] then some object else v.object? other := by
  rw [Volume.object?, number?_create hd hv]
  split
  · simp [create]
  · rw [Volume.object?]
    cases hn : v.number? other with
    | none => rfl
    | some number =>
      have hlt := Nat.ne_of_lt (h.stored hn)
      simp [create, Array.getElem?_push, hlt]

/-- A volume with one entry more, which has a plain name in a directory, is as sound as before. -/
theorem Sound.of_entry {v' : Volume} {number : Nat} (h : v.Sound) (hd : v.isDirectory place)
    (hv : v.number? (place ++ [name]) = none) (hname : Path.IsPlain name) (hkeeps : KeepsOutlines v v')
    (hnumber : ∀ other, v'.number? other = if other = place ++ [name] then some number else v.number? other)
    (hstored : number < v'.objects.size) (hdistinct : ∀ other, (v'.names other).Nodup) : v'.Sound := by
  have hold : ∀ {other}, v.isDirectory other → v'.isDirectory other := by
    intro other ho
    refine hkeeps.isDirectory ?_ ho
    rw [hnumber, if_neg]
    rintro rfl
    simpa [hv] using isSome_number?_of_isDirectory ho
  have hparent : ∀ {other new}, (v'.number? (other ++ [new])).isSome →
      other = place ∧ new = name ∨ (v.number? (other ++ [new])).isSome := by
    intro other new ho
    rw [hnumber] at ho
    split at ho
    case isTrue he =>
      obtain ⟨ho, hn⟩ := List.append_inj' he rfl
      exact .inl ⟨ho, List.head_eq_of_cons_eq hn⟩
    case isFalse => exact .inr ho
  refine ⟨hold h.root, ?_, ?_, ?_, hdistinct⟩
  · intro other k hn
    rw [hnumber] at hn
    split at hn
    · obtain rfl := Option.some.inj hn
      exact hstored
    · exact Nat.lt_of_lt_of_le (h.stored hn) hkeeps.size_le
  · intro other new ho
    rcases hparent ho with ⟨rfl, -⟩ | ho
    · exact hold hd
    · exact hold (h.enclosed ho)
  · intro other new ho
    rcases hparent ho with ⟨-, rfl⟩ | ho
    · exact hname
    · exact h.plain ho

theorem Sound.create (h : v.Sound) (hd : v.isDirectory place)
    (hv : v.number? (place ++ [name]) = none) (hname : Path.IsPlain name) :
    (v.create (place ++ [name]) object).Sound := by
  have hs := isSome_number?_of_isDirectory hd
  refine h.of_entry hd hv hname keepsOutlines_create (number?_create hs hv) ?_ (nodup_names_create hs hv h.distinct)
  rw [Volume.create, Array.size_push]
  exact Nat.lt_succ_self _

/-! ## Taking an entry away -/

theorem keepsOutlines_drop : KeepsOutlines v (v.drop place) := fun _ _ h => ⟨_, h, rfl⟩

theorem Sound.drop (h : v.Sound) : (v.drop (place ++ [name])).Sound := by
  have hof : ∀ {other}, ((v.drop (place ++ [name])).number? other).isSome →
      ¬ place ++ [name] <+: other ∧ (v.number? other).isSome := by
    intro other ho
    rw [number?_drop] at ho
    split at ho
    · exact absurd ho (by simp)
    · exact ⟨by assumption, ho⟩
  have hold : ∀ {other}, ¬ place ++ [name] <+: other → v.isDirectory other →
      (v.drop (place ++ [name])).isDirectory other := by
    intro other hne ho
    refine keepsOutlines_drop.isDirectory ?_ ho
    rw [number?_drop, if_neg hne]
  refine ⟨hold ?_ h.root, ?_, ?_, ?_, nodup_names_drop h.distinct⟩
  · intro hpre
    simpa using hpre.length_le
  · intro other number hn
    rw [number?_drop] at hn
    split at hn
    · exact absurd hn (by simp)
    · exact h.stored hn
  · intro other new ho
    obtain ⟨hne, ho⟩ := hof ho
    exact hold (fun hpre => hne (hpre.trans (List.prefix_append _ _))) (h.enclosed ho)
  · intro other new ho
    exact h.plain (hof ho).2

/-! ## Changing an object -/

section Alter

variable {change : Object → Object}

@[simp] theorem branch?_alter (v : Volume) (place : Place) (change : Object → Object)
    (other : Place) : (v.alter place change).branch? other = v.branch? other := by
  unfold alter
  split <;> rfl

@[simp] theorem number?_alter (v : Volume) (place : Place) (change : Object → Object)
    (other : Place) : (v.alter place change).number? other = v.number? other := by
  rw [number?, branch?_alter, number?]

@[simp] theorem names_alter (v : Volume) (place : Place) (change : Object → Object)
    (other : Place) : (v.alter place change).names other = v.names other := by
  rw [names, branch?_alter, names]

theorem getElem?_alter (hn : v.number? place = some number) (i : Nat) :
    (v.alter place change).objects[i]? =
      if i = number then v.objects[i]?.map change else v.objects[i]? := by
  simp only [alter, hn, Array.getElem?_modify]
  by_cases h : number = i
  · simp [h]
  · simp [h, Ne.symm h]

theorem keepsOutlines_alter
    (hc : ∀ object, (change object).content.outline = object.content.outline) :
    KeepsOutlines v (v.alter place change) := by
  intro number object ho
  cases hn : v.number? place with
  | none => exact ⟨object, by simpa [alter, hn] using ho, rfl⟩
  | some altered =>
    rw [getElem?_alter hn, ho]
    split
    · exact ⟨_, rfl, hc object⟩
    · exact ⟨_, rfl, rfl⟩

theorem Sound.alter (h : v.Sound)
    (hc : ∀ object, (change object).content.outline = object.content.outline) :
    (v.alter place change).Sound := by
  have hkeeps : KeepsOutlines v (v.alter place change) := keepsOutlines_alter hc
  have hold {other} : v.isDirectory other → (v.alter place change).isDirectory other :=
    hkeeps.isDirectory (number?_alter _ _ _ _)
  refine ⟨hold h.root, ?_, ?_, ?_, ?_⟩
  · intro other number hn
    rw [number?_alter] at hn
    exact Nat.lt_of_lt_of_le (h.stored hn) hkeeps.size_le
  · intro other name ho
    rw [number?_alter] at ho
    exact hold (h.enclosed ho)
  · intro other name ho
    rw [number?_alter] at ho
    exact h.plain ho
  · intro other
    rw [names_alter]
    exact h.distinct other

end Alter

end Volume

end Bytework
