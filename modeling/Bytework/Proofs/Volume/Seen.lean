import Bytework.Proofs.Volume.Effects
import Bytework.Proofs.Volume.Grown

/-!
# What is seen at a place

The content of what stands at a place, or its outline where files may share their data with others.

* `seen`: what is seen; `Alone`: no regular file at or below a place has another name.
* **`Bounded.seen_eq`**: outside its bounds a change leaves what is seen.
* `Beside`: two places of which one is not touched by work at the other; `Separate`: they start so.
* `Counterparts`: where the copies of what stands below one place are to stand below another one;
  `Copied`: they stand there.
-/

namespace Bytework

namespace Content

/-- What is seen of a content: all of it, or its outline. -/
def seen (full : Bool) (content : Content) : Content := if full then content else content.outline

/-- A content that is a file, a directory or a link. -/
def Ordinary (content : Content) : Prop := ∀ kind, content ≠ .special kind

theorem ordinary_iff {content : Content} : content.Ordinary ↔ content.type ∈ [.file, .directory, .symlink] := by
  cases content <;> simp [Ordinary, Content.type]

instance : DecidablePred Ordinary := fun _ => decidable_of_iff _ ordinary_iff.symm

theorem Ordinary.of_outline {a b : Content} (h : a.Ordinary) (he : b.outline = a.outline) : b.Ordinary := by
  rintro kind rfl
  cases a with
  | special kind' => exact h kind' rfl
  | _ => simp [outline, filled] at he

theorem type_eq_file {content : Content} (ho : content.Ordinary) (hw : content.Writable) :
    content.type = .file := by
  cases content with
  | file => rfl
  | directory => exact absurd rfl hw.1
  | symlink target => exact absurd rfl (hw.2 target)
  | special kind => exact absurd rfl (ho kind)

end Content

namespace Volume

variable {v v' : Volume} {within made made' : Place → Prop} {full follow : Bool} {calm : Prop}
  {top origin place goal w : Place} {object : Object} {name : Name} {source target : Path}

/-- What is seen at a place. -/
def seen (v : Volume) (full : Bool) (w : Place) : Option Content :=
  (v.object? w).map (·.content.seen full)

theorem ordinary_of_objects (h : ∀ object ∈ v.objects.toList, object.content.Ordinary)
    (ho : v.object? w = some object) : object.content.Ordinary :=
  h object (mem_objects ho)

theorem seen_of_content {content : Content} (hc : (v.object? w).map (·.content) = some content) :
    v.seen full w = some (content.seen full) := by
  obtain ⟨object, ho, rfl⟩ := Option.map_eq_some_iff.mp hc
  rw [seen, ho, Option.map_some]

theorem seen_of_object? (ho : v.object? w = some object) :
    v.seen full w = some (object.content.seen full) := by
  rw [seen, ho, Option.map_some]

theorem seen_of_isDirectory (h : v.isDirectory w) : v.seen full w = some .directory := by
  obtain ⟨object, ho, hc⟩ := isDirectory_iff.mp h
  rw [seen_of_object? ho, hc]
  cases full <;> rfl

theorem seen_of_links (h : v.Links w target) : v.seen full w = some (.symlink target) := by
  obtain ⟨object, ho, hc⟩ := h
  rw [seen_of_object? ho, hc]
  cases full <;> rfl

theorem seen_eq_none (hs : v.Sound) : v.seen full w = none ↔ v.Vacant w := by
  rw [seen, Option.map_eq_none_iff]
  exact hs.object?_eq_none

theorem seen_congr (hs : v.Sound) (hs' : v'.Sound) {w' : Place} (h : v'.seen full w' = v.seen full w) :
    v'.Vacant w' ↔ v.Vacant w := by
  calc v'.Vacant w' ↔ v'.seen full w' = none := (seen_eq_none hs').symm
    _ ↔ v.seen full w = none := by rw [h]
    _ ↔ v.Vacant w := seen_eq_none hs

theorem seen_false_of_seen {w' : Place} (h : v'.seen full w' = v.seen full w) :
    v'.seen false w' = v.seen false w := by
  cases full with
  | false => exact h
  | true =>
    have hmap := congrArg (Option.map Content.outline) h
    rwa [seen, seen, Option.map_map, Option.map_map] at hmap

/-- The kind of what stands at a place. -/
def type? (v : Volume) (w : Place) : Option EntryType := (v.object? w).map (·.content.type)

theorem type?_eq_some {type : EntryType} :
    v.type? w = some type ↔ ∃ object, v.object? w = some object ∧ type = object.content.type := by
  rw [type?, Option.map_eq_some_iff]
  exact exists_congr fun _ => and_congr_right fun _ => eq_comm

theorem isDirectory_iff_type? : v.isDirectory w ↔ v.type? w = some .directory := by
  rw [isDirectory_iff, type?_eq_some]
  refine exists_congr fun object => and_congr_right fun _ => ?_
  cases object.content <;> simp [Content.type]

theorem type?_congr {w' : Place} (h : v'.seen full w' = v.seen full w) : v'.type? w' = v.type? w := by
  have hmap := congrArg (Option.map Content.type) (seen_false_of_seen h)
  rw [seen, seen, Option.map_map, Option.map_map] at hmap
  have htype : Content.type ∘ (fun object : Object => object.content.seen false) = (·.content.type) :=
    funext fun object => Content.type_outline object.content
  rwa [htype] at hmap

theorem seen_eq_outline (h : v.type? w ≠ some .file) : v.seen full w = v.seen false w := by
  cases ho : v.object? w with
  | none => rw [seen, seen, ho, Option.map_none, Option.map_none]
  | some object =>
    have hfile : object.content.type ≠ .file := fun hf => h (type?_eq_some.mpr ⟨object, ho, hf.symm⟩)
    rw [seen_of_object? ho, seen_of_object? ho]
    cases hc : object.content with
    | file => exact absurd (by rw [hc]; rfl) hfile
    | _ => cases full <;> rfl

theorem isDirectory_congr {w' : Place} (h : v'.seen full w' = v.seen full w) :
    v'.isDirectory w' ↔ v.isDirectory w := by
  rw [isDirectory_iff_type?, isDirectory_iff_type?, type?_congr h]

/-! ## Regular files with one name -/

/-- No regular file at or below a place has another name. -/
def Alone (v : Volume) (top : Place) : Prop :=
  ∀ w w' object, top <+: w → w ≠ w' → v.number? w = v.number? w' → v.object? w = some object →
    object.content.type ≠ .file

theorem Unshared.alone (h : v.Unshared) (top : Place) : v.Alone top := by
  intro w w' object _ hne hn ho
  exact absurd (h.eq hn ho) hne

theorem Alone.of_bounded (h : v.Alone top) (hs : v.Sound) (hb : Bounded within made v v') :
    v'.Alone top := by
  intro w w' object hw hne hn ho hfile
  obtain ⟨number, hnumber, hobject⟩ := object?_eq_some.mp ho
  have hold := hb.shared hne hnumber (hn.symm.trans hnumber)
  have hold' := hb.shared hne.symm (hn.symm.trans hnumber) hnumber
  have hlast := Array.getElem?_eq_getElem (hs.stored hold)
  obtain ⟨object', ho', hout⟩ := hb.outlines hlast
  obtain rfl := Option.some.inj (ho'.symm.trans hobject)
  refine h w w' _ hw hne (hold.trans hold'.symm) (object?_eq_some.mpr ⟨number, hold, hlast⟩) ?_
  rw [← Content.type_outline, ← hout, Content.type_outline]
  exact hfile

/-- Outside its bounds a change leaves outlines. -/
theorem Bounded.outline_eq (h : Bounded within made v v') (hs : v.Sound) (hout : ¬ within w)
    (hm : v.Vacant w → ¬ made w) : v'.seen false w = v.seen false w := by
  have hnumber : v'.number? w = v.number? w :=
    (h.outside w hout).resolve_right fun hnew => hm hnew.1 hnew.2.1
  cases ho : v.object? w with
  | none =>
    have hv : v'.Vacant w := hnumber.trans (hs.object?_eq_none.mp ho)
    rw [(seen_eq_none (h.sound hs)).mpr hv, seen, ho, Option.map_none]
  | some object =>
    obtain ⟨object', ho', houtline⟩ := h.outlines.object? hnumber ho
    rw [seen_of_object? ho', seen_of_object? ho]
    exact congrArg some houtline

/-- Outside its bounds a change leaves what is seen. -/
theorem Bounded.seen_eq (h : Bounded within made v v') (hs : v.Sound) (hout : ¬ within w)
    (hm : v.Vacant w → ¬ made w) (halone : full → v.Alone top) (hw : ∀ w, within w → top <+: w) :
    v'.seen full w = v.seen full w := by
  have houtline := h.outline_eq hs hout hm
  cases full with
  | false => exact houtline
  | true =>
    by_cases hfile : v.type? w = some .file
    · obtain ⟨object, ho, htype⟩ := type?_eq_some.mp hfile
      have hsame := h.object?_eq hout ho fun _ w' hw' hn => by
        have ho' : v.object? w' = some object := by rw [Volume.object?, hn, ← Volume.object?, ho]
        exact halone rfl w' w object (hw w' hw') (fun he => hout (he ▸ hw')) hn ho' htype.symm
      rw [seen, seen, hsame, ho]
    · rw [seen_eq_outline hfile, seen_eq_outline (type?_congr houtline ▸ hfile), houtline]

theorem Thinned.seen_of_object? (h : Thinned v v') (ho : v'.object? w = some object) :
    v.seen full w = some (object.content.seen full) :=
  Volume.seen_of_object? (h.object? ho)

/-! ## Two places -/

/-- A path leads to an origin that no change at `top` touches, and the place beside it is there. Where
directories are to be made on the way, that is neither there nor at the origin. -/
structure Beside (v : Volume) (made : Place → Prop) (top : Place) (source : Path) (origin place : Place) :
    Prop where
  leads : v.Leads (top <+: ·) false source origin
  apart : ∀ below, ¬ top <+: origin ++ below
  inside : top <+: place
  unmade : ∀ w, made w → ¬ top <+: w ∧ (v.Vacant w → ¬ origin <+: w)

namespace Beside

theorem apart_origin (h : v.Beside made top source origin place) : ¬ top <+: origin := by
  have happart := h.apart []
  rwa [List.append_nil] at happart

theorem seen_origin (h : v.Beside made top source origin place) (hs : v.Sound)
    (hb : Bounded within made v v') (hw : ∀ w, within w → top <+: w) (halone : full → v.Alone top)
    (below : Place) : v'.seen full (origin ++ below) = v.seen full (origin ++ below) :=
  hb.seen_eq hs (fun hin => h.apart below (hw _ hin))
    (fun hv hm => (h.unmade _ hm).2 hv (List.prefix_append _ _)) halone hw

theorem outline_origin (h : v.Beside made top source origin place) (hs : v.Sound)
    (hb : Bounded within made v v') (hw : ∀ w, within w → top <+: w) (below : Place) :
    v'.seen false (origin ++ below) = v.seen false (origin ++ below) :=
  h.seen_origin hs hb hw (fun hf => absurd hf Bool.false_ne_true) below

theorem vacant_origin (h : v.Beside made top source origin place) (hs : v.Sound)
    (hb : Bounded within made v v') (hw : ∀ w, within w → top <+: w) (below : Place) :
    v'.Vacant (origin ++ below) ↔ v.Vacant (origin ++ below) :=
  seen_congr hs (hb.sound hs) (h.outline_origin hs hb hw below)

theorem of_bounded (h : v.Beside made top source origin place) (hs : v.Sound)
    (hb : Bounded within made v v') (hw : ∀ w, within w → top <+: w) (hm : ∀ w, made' w → made w) :
    v'.Beside made' top source origin place where
  leads := by
    have hout : ¬ within origin := fun hin => h.apart_origin (hw _ hin)
    exact hb.leads hs hw (fun _ => hb.links_of_links hs hout) h.leads
  apart := h.apart
  inside := h.inside
  unmade w hmade := by
    refine ⟨(h.unmade w (hm w hmade)).1, ?_⟩
    rintro hv ⟨below, rfl⟩
    exact (h.unmade _ (hm _ hmade)).2 ((h.vacant_origin hs hb hw below).mp hv) (List.prefix_append _ _)

/-- A name in a directory beside the same name in another one. -/
theorem child (h : v.Beside (fun _ => False) top source origin place) (hd : v.isDirectory origin)
    (hn : Path.IsPlain name) :
    v.Beside (fun _ => False) top (source.join name) (origin ++ [name]) (place ++ [name]) where
  leads := h.leads.join (fun _ hw => hw) h.apart_origin (passable_of_isDirectory hd) hn fun hf =>
    absurd hf Bool.false_ne_true
  apart below := by
    rw [List.append_assoc]
    exact h.apart _
  inside := h.inside.trans (List.prefix_append _ _)
  unmade _ := False.elim

theorem eq_of_reach (h : v.Beside made top source origin place) (hs : v.Sound)
    (hl : follow → ∀ target, ¬ v.Links origin target) (hr : v.reach follow source = .ok goal) :
    goal = origin := by
  cases follow with
  | false => exact (leads_of_reach hs hr).unique h.leads
  | true => exact (leads_of_reach hs hr).unique (h.leads.followed (hl rfl))

end Beside

/-- Two places of which neither is below the other, with a path to each of them. Neither path leads through the
second place, and nothing that its path lacks is to be made at the first. -/
structure Separate (v : Volume) (source : Path) (origin : Place) (target : Path) (top : Place) : Prop where
  sound : v.Sound
  sourceLeads : v.Leads (top <+: ·) false source origin
  targetLeads : v.Leads (top <+: ·) false target top
  /-- A path to what is no directory lacks nothing on its way. -/
  resolved : v.Passable top ∨ v.reach false target = .ok top
  notBelow : ¬ top <+: origin
  notAbove : ¬ origin <+: top
  parents : ∀ w, v.IsParent target w → v.Vacant w → ¬ origin <+: w

/-- At two places and below are only files, directories and links. -/
def Plain (v : Volume) (origin top : Place) : Prop :=
  ∀ w object, origin <+: w ∨ top <+: w → v.object? w = some object → object.content.Ordinary

/-- At a place and below are only files, directories and links, and no special file is where one of the files is
to be copied to. -/
structure Suited (v : Volume) (origin top : Place) : Prop where
  ordinary : ∀ below object, v.object? (origin ++ below) = some object → object.content.Ordinary
  regular : ∀ below object, v.object? (top ++ below) = some object → v.type? (origin ++ below) = some .file →
    object.content.Ordinary

theorem Plain.suited (h : v.Plain origin top) : v.Suited origin top :=
  ⟨fun _ object => h _ object (.inl (List.prefix_append _ _)),
    fun _ object ho _ => h _ object (.inr (List.prefix_append _ _)) ho⟩

namespace Separate

theorem not_isPrefix (h : v.Separate source origin target top) (below : Place) :
    ¬ top <+: origin ++ below := fun hpre =>
  (List.prefix_or_prefix_of_prefix hpre (List.prefix_append origin below)).elim h.notBelow h.notAbove

theorem ne_nil (h : v.Separate source origin target top) : top ≠ [] :=
  fun he => h.notBelow (he ▸ List.nil_prefix)

theorem foothold (h : v.Separate source origin target top) : Foothold v (v.IsParent target) target top :=
  .of_leads h.ne_nil h.targetLeads

theorem beside (h : v.Separate source origin target top) :
    v.Beside (v.IsParent target) top source origin top where
  leads := h.sourceLeads
  apart := h.not_isPrefix
  inside := List.prefix_refl _
  unmade w hm := ⟨(h.foothold.of_isParent hm).1, h.parents w hm⟩

end Separate

/-! ## Counterparts -/

/-- The places below one place that answer to what stands below another one; where all may be touched,
the places below. -/
def Counterparts (calm : Prop) (v : Volume) (origin place w : Place) : Prop :=
  ∃ below, w = place ++ below ∧ (calm → ¬ v.Vacant (origin ++ below))

/-- What stands below a place is seen in the same way below another one, later on. -/
def Copied (full : Bool) (v : Volume) (origin place : Place) (v' : Volume) : Prop :=
  ∀ below, ¬ v.Vacant (origin ++ below) → v'.seen full (place ++ below) = v.seen full (origin ++ below)

theorem Counterparts.isPrefix (h : Counterparts calm v origin place w) : place <+: w := by
  obtain ⟨below, rfl, -⟩ := h
  exact List.prefix_append _ _

theorem counterparts_of_eq (hv : ¬ v.Vacant origin) (h : w = place) : Counterparts calm v origin place w :=
  ⟨[], by rw [h, List.append_nil], fun _ => by rwa [List.append_nil]⟩

theorem Counterparts.congr (hv : ∀ below, v'.Vacant (origin ++ below) → v.Vacant (origin ++ below))
    (h : Counterparts calm v origin place w) : Counterparts calm v' origin place w := by
  obtain ⟨below, rfl, hstands⟩ := h
  exact ⟨below, rfl, fun hc hv' => hstands hc (hv below hv')⟩

/-- The counterparts of a name in a directory and of what is below it. -/
def CounterpartsOf (calm : Prop) (v : Volume) (origin place : Place) (name : Name) : Place → Prop :=
  Counterparts calm v (origin ++ [name]) (place ++ [name])

theorem CounterpartsOf.outward (h : CounterpartsOf calm v origin place name w) :
    Counterparts calm v origin place w := by
  obtain ⟨below, rfl, hstands⟩ := h
  refine ⟨name :: below, by simp, fun hc => ?_⟩
  simpa using hstands hc

theorem copied_of_seen (hs : v.Sound) (hd : ¬ v.isDirectory origin)
    (h : v'.seen full place = v.seen full origin) : Copied full v origin place v' := by
  intro below hstands
  obtain rfl : below = [] := by
    by_contra hne
    exact hd (hs.isDirectory_of_append hne (Option.isSome_iff_ne_none.mpr hstands))
  rwa [List.append_nil, List.append_nil]

end Volume

end Bytework
