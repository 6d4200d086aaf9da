import Bytework.Proofs.Directory.Frames
import Bytework.Proofs.Volume.Grown

/-!
# Copies keep to their place

What copying leaves of a volume beside the place that it copies to.

* `FilesApart`: no regular file at or below a place has a name elsewhere; `Confined`: what is left as it is.
* **`confined_of_mem`**: copying leaves all else as it is, and makes missing parents at most.
* **`object?_mirror`**: a mirror leaves all else as it is even if files have names elsewhere.
-/

namespace Bytework.Volume

open Bytework.Action Directory

variable {v v' : Volume} {top w : Place} {source target : Path} {object : Object}

/-- No regular file at or below a place has another name that is neither. -/
def FilesApart (v : Volume) (top : Place) : Prop :=
  ∀ w w' object, top <+: w → ¬ top <+: w' → v.number? w = v.number? w' → v.object? w = some object →
    object.content.type ≠ .file

theorem Unshared.filesApart (h : v.Unshared) (top : Place) : v.FilesApart top := by
  intro w w' object hw hw' hn ho
  exact absurd (h.eq hn ho ▸ hw) hw'

/-- An object that has a further name at or below a place, and that takes on the attributes of what is copied
there though it has no data: a special file by the plain rules. -/
def Lent (v : Volume) (top w : Place) (object : Object) : Prop :=
  v.rules = .plain ∧ (∃ kind, object.content = .special kind) ∧ ∃ w', top <+: w' ∧ v.number? w' = v.number? w

/-- A volume has changed at and below a place only, apart from parents of a path that were missing and
are directories now. -/
structure Confined (v : Volume) (p : Path) (top : Place) (v' : Volume) : Prop where
  kept : ∀ w object, ¬ top <+: w → v.object? w = some object → v'.number? w = v.number? w ∧
    ∃ object', v'.object? w = some object' ∧ object'.content = object.content ∧
      (object' = object ∨ v.Lent top w object)
  made : ∀ w, ¬ top <+: w → v.Vacant w → v'.Vacant w ∨ v.IsParent p w ∧ v'.isDirectory w

theorem Bounded.confined (h : Bounded (top <+: ·) (v.IsParent target) v v') (ha : v.FilesApart top) :
    v.Confined target top v' where
  kept w object hw ho := by
    have hnumber := h.number?_eq hw (not_vacant_of_object? ho)
    refine ⟨hnumber, ?_⟩
    obtain ⟨object', ho', hout⟩ := h.outlines.object? hnumber ho
    have hshared : ∀ w', top <+: w' → v.number? w' = v.number? w → object.content.type ≠ .file := by
      intro w' hw' hn
      refine ha w' w object hw' hw hn ?_
      rw [Volume.object?, hn, ← Volume.object?, ho]
    by_cases hchanges : v.Rewritable object ∧ ∃ w', top <+: w' ∧ v.number? w' = v.number? w
    · -- no file has a name at the place of the copy, so this is a special file that lets itself be rewritten
      obtain ⟨hrewritable, w', hw', hn⟩ := hchanges
      have hfile := hshared w' hw' hn
      refine ⟨object', ho', Content.eq_of_outline hout hfile, .inr ⟨hrewritable.rules_eq_plain hfile, ?_, w', hw', hn⟩⟩
      by_contra hspecial
      exact hfile (hrewritable.type_eq_file (not_exists.mp hspecial))
    · have hsame := h.object?_eq hw ho fun hrewritable w' hw' hn => hchanges ⟨hrewritable, w', hw', hn⟩
      exact ⟨object, hsame, rfl, .inl rfl⟩
  made w hw hv := by
    rcases h.outside w hw with he | ⟨-, hm, hd⟩
    · exact .inl (he.trans hv)
    · exact .inr ⟨hm, hd⟩

theorem target_of_leads (hs : v.Sound) (hne : top ≠ []) (hl : v.Leads (top <+: ·) false target top)
    (hp : v.Passable top) : Target reading v (v.IsParent target) target top :=
  Target.of_leads reading hs hne hl hp fun _ _ _ hb => hb

/-- Copying changes what is at and below its place, and makes missing parents of it. It does so with
a result or without, and whatever links there are on either side. -/
theorem confined_of_mem (hs : v.Sound) (hl : v.Leads (top <+: ·) false target top)
    (hp : v.Passable top) (ha : v.FilesApart top) {action : Action Volume Unit}
    (hmem : action ∈ [copy platform source target, copyRecursive platform source target,
      sync platform source target false, sync platform source target true,
      mirror platform source target]) :
    v.Confined target top (action.apply v).2 := by
  by_cases hroot : top = []
  · subst hroot
    exact ⟨fun w _ hw => absurd List.nil_prefix hw, fun w hw => absurd List.nil_prefix hw⟩
  have ht := target_of_leads hs hroot hl hp
  have hu : Unlinked v target top := unlinked_of_passable hp
  suffices hc : reading.Changes (top <+: ·) (v.IsParent target) v (action.apply v).2 from
    hc.bounded.confined ha
  simp only [List.mem_cons, List.not_mem_nil, or_false] at hmem
  rcases hmem with rfl | rfl | rfl | rfl | rfl
  · exact (ends_copy falters_platform ht hu).always
  · exact (ends_copyRecursive falters_platform ht).always
  · exact (ends_sync falters_platform ht hu false).always
  · exact (ends_sync falters_platform ht hu true).always
  · exact (ends_mirror falters_platform ht).always.changes

/-- A directory with a link `/a/dst/l`, in whose place a directory is to be copied. -/
def crossed : Volume :=
  grown [(placeOf ["src"], .directory), (placeOf ["src", "l"], .directory),
    (placeOf ["src", "l", "a"], .file [0x78]), (placeOf ["z"], .directory), (placeOf ["a"], .directory),
    (placeOf ["a", "dst"], .directory), (placeOf ["a", "dst", "l"], .symlink "/z".toList)]

theorem sound_crossed : crossed.Sound := sound_grown (by decide +kernel)

theorem unshared_crossed : crossed.Unshared := unshared_grown (by decide +kernel)

theorem leads_crossed :
    crossed.Leads (placeOf ["a", "dst"] <+: ·) false "/a/dst".toList (placeOf ["a", "dst"]) := by
  have hd : crossed.isDirectory (placeOf ["a"]) := by decide +kernel
  refine leads_of_names sound_crossed hd (by decide) (fun _ => by decide +kernel) (by decide +kernel) (by decide)
    fun w hw hshut => ?_
  have hlength := (hshut.trans hw).length_le
  simp [placeOf] at hlength

theorem confined_sync_crossed :
    (crossed.Sound ∧ crossed.Leads (placeOf ["a", "dst"] <+: ·) false "/a/dst".toList (placeOf ["a", "dst"]) ∧
      crossed.Passable (placeOf ["a", "dst"]) ∧ crossed.FilesApart (placeOf ["a", "dst"])) ∧
    crossed.Confined "/a/dst".toList (placeOf ["a", "dst"])
      ((sync platform "/src".toList "/a/dst".toList true).apply crossed).2 := by
  have hp : crossed.Passable (placeOf ["a", "dst"]) := passable_of_isDirectory (by decide +kernel)
  have ha := unshared_crossed.filesApart (placeOf ["a", "dst"])
  have hmem : sync platform "/src".toList "/a/dst".toList true ∈
      [copy platform "/src".toList "/a/dst".toList, copyRecursive platform "/src".toList "/a/dst".toList,
        sync platform "/src".toList "/a/dst".toList false, sync platform "/src".toList "/a/dst".toList true,
        mirror platform "/src".toList "/a/dst".toList] := by simp
  exact ⟨⟨sound_crossed, leads_crossed, hp, ha⟩, confined_of_mem sound_crossed leads_crossed hp ha hmem⟩

/-- A path that leads through its own place leads elsewhere once a link on the way is a directory, and
then work goes on elsewhere. -/
theorem sync_through_crossed :
    crossed.FilesApart (placeOf ["a", "dst"]) ∧
    crossed.reach true "/src".toList = .ok (placeOf ["src"]) ∧
    crossed.reach true "/a/dst/l/../../a/dst".toList = .ok (placeOf ["a", "dst"]) ∧
    crossed.isDirectory (placeOf ["a", "dst"]) ∧ crossed.number? (placeOf ["a", "a"]) = none ∧
    ((sync platform "/src".toList "/a/dst/l/../../a/dst".toList true).apply crossed).1.isOk ∧
    ((sync platform "/src".toList "/a/dst/l/../../a/dst".toList true).apply crossed).2.isDirectory
      (placeOf ["a", "a", "dst", "l"]) := by
  refine ⟨unshared_crossed.filesApart _, ?_⟩
  decide +kernel

/-! ## Mirrors -/

/-- A mirror leaves what stands elsewhere as it is, even what it has in common with the place of the
mirror: there all is new. -/
theorem object?_mirror (hs : v.Sound) (hl : v.Leads (top <+: ·) false target top)
    (hd : v.Vacant top ∨ v.reach false target = .ok top) (hw : ¬ top <+: w)
    (ho : v.object? w = some object) :
    (((mirror platform source target).apply v).2.number? w = v.number? w) ∧
      ((mirror platform source target).apply v).2.object? w = some object := by
  have hne : top ≠ [] := fun he => hw (he ▸ List.nil_prefix)
  have hfoothold := Foothold.of_leads hne hl
  have ht : Target reading v (v.IsParent target) target top := by
    refine ⟨hs, hfoothold, fun link hlink => ?_, fun _ _ _ hb => hb⟩
    rcases hd with hv | hr
    · exact absurd (hs.passable_iff.mpr (.inl hv)) hlink.not_passable
    · exact hfoothold.firm hs hr
  have hmirrors : Mirrors reading (v.IsParent target) target top v ((mirror platform source target).apply v).2 :=
    (ends_mirror falters_platform ht).always
  obtain ⟨v₁, hremoves, hc, hcleared⟩ := hmirrors
  have hnumber : v₁.number? w = v.number? w := hremoves.bounded.number?_eq hw (not_vacant_of_object? ho)
  have ho₁ : v₁.object? w = some object := (hremoves.thinned.object?_eq hnumber).trans ho
  rcases hcleared with hcleared | he
  · have hv : v₁.Vacant top := hcleared.vacant id hremoves.thinned hd
    -- where nothing is left, nothing has an object in common with what stands elsewhere
    have hnone : ∀ w', top <+: w' → v₁.number? w' ≠ v₁.number? w := by
      rintro _ ⟨below, rfl⟩ hn
      refine not_vacant_of_object? ho₁ ?_
      rw [Vacant, ← hn, number?_append_eq_none below hv]
    refine ⟨?_, hc.bounded.object?_eq hw ho₁ fun _ => hnone⟩
    exact (hc.bounded.number?_eq hw (not_vacant_of_object? ho₁)).trans hnumber
  · rw [he]
    exact ⟨hnumber, ho₁⟩

theorem object?_mirror_crossed :
    (crossed.Sound ∧ crossed.Leads (placeOf ["a", "dst"] <+: ·) false "/a/dst".toList (placeOf ["a", "dst"]) ∧
      crossed.reach false "/a/dst".toList = .ok (placeOf ["a", "dst"]) ∧
      ¬ placeOf ["a", "dst"] <+: placeOf ["src", "l", "a"] ∧
      crossed.object? (placeOf ["src", "l", "a"]) = some (.new (.file [0x78]) 0o755)) ∧
    ((mirror platform "/src".toList "/a/dst".toList).apply crossed).2.number? (placeOf ["src", "l", "a"]) =
      crossed.number? (placeOf ["src", "l", "a"]) ∧
    ((mirror platform "/src".toList "/a/dst".toList).apply crossed).2.object? (placeOf ["src", "l", "a"]) =
      some (.new (.file [0x78]) 0o755) := by
  have hr : crossed.reach false "/a/dst".toList = .ok (placeOf ["a", "dst"]) := by decide +kernel
  have hw : ¬ placeOf ["a", "dst"] <+: placeOf ["src", "l", "a"] := by decide
  have ho : crossed.object? (placeOf ["src", "l", "a"]) = some (.new (.file [0x78]) 0o755) := by decide +kernel
  exact ⟨⟨sound_crossed, leads_crossed, hr, hw, ho⟩, object?_mirror sound_crossed leads_crossed (.inr hr) hw ho⟩

/-- A mirror of a directory in its own place takes the directory away before it is copied. -/
theorem mirror_itself_crossed :
    crossed.object? (placeOf ["src", "l", "a"]) = some (.new (.file [0x78]) 0o755) ∧
    ((mirror platform "/src".toList "/src".toList).apply crossed).1 =
      .error (.system (.lstat "/src".toList) .noEntry) ∧
    ((mirror platform "/src".toList "/src".toList).apply crossed).2.object? (placeOf ["src", "l", "a"]) = none := by
  decide +kernel

end Bytework.Volume
