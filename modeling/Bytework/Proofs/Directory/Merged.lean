import Bytework.Proofs.Directory.Synced

/-!
# Merged trees

What a copy of a tree leaves where there was a tree before: what has no counterpart in the first one stays.

* `Covered`: the places that a copy may touch; `Spares`: what is no file keeps all its attributes.
* `ends_copyEntry_merges`: a copy touches nothing else.
* **`copyRecursive_merged`**: what is copied, and what is as it was.
-/

namespace Bytework

open Bytework.Action Directory

namespace Volume

variable {v v' v'' : Volume} {made : Place → Prop} {origin place w : Place} {name : Name} {object : Object} {p : Path}

/-! ## What a copy may touch -/

/-- The places that answer to what stands below another place, and what is below one that answers to no
directory. -/
def Covered (v : Volume) (origin place w : Place) : Prop :=
  ∃ below rest, w = place ++ below ++ rest ∧ ¬ v.Vacant (origin ++ below) ∧
    (rest = [] ∨ ¬ v.isDirectory (origin ++ below))

theorem Covered.isPrefix (h : v.Covered origin place w) : place <+: w := by
  obtain ⟨below, rest, rfl, -⟩ := h
  rw [List.append_assoc]
  exact List.prefix_append _ _

theorem covered_of_eq (hv : ¬ v.Vacant origin) (h : w = place) : v.Covered origin place w :=
  ⟨[], [], by simpa using h, by rwa [List.append_nil], .inl rfl⟩

theorem covered_of_leaf (hv : ¬ v.Vacant origin) (hd : ¬ v.isDirectory origin) (h : place <+: w) :
    v.Covered origin place w := by
  obtain ⟨rest, rfl⟩ := h
  exact ⟨[], rest, by simp, by rwa [List.append_nil], .inr (by rwa [List.append_nil])⟩

theorem Covered.outward (h : v.Covered (origin ++ [name]) (place ++ [name]) w) : v.Covered origin place w := by
  obtain ⟨below, rest, rfl, hstands, hrest⟩ := h
  refine ⟨name :: below, rest, by simp, ?_, hrest.imp_right fun hd => ?_⟩
  · simpa using hstands
  · simpa using hd

theorem Covered.congr (hs : v.Sound) (hs' : v'.Sound)
    (hseen : ∀ below, v'.seen false (origin ++ below) = v.seen false (origin ++ below))
    (h : v'.Covered origin place w) : v.Covered origin place w := by
  obtain ⟨below, rest, rfl, hstands, hrest⟩ := h
  refine ⟨below, rest, rfl, fun hv => hstands ((seen_congr hs hs' (hseen below)).mpr hv), hrest.imp_right ?_⟩
  exact fun hd hd' => hd ((isDirectory_congr (hseen below)).mpr hd')

/-! ## What is no file -/

/-- Objects that are no files stay as they are. -/
def Spares (v v' : Volume) : Prop :=
  ∀ ⦃number : Nat⦄ ⦃object : Object⦄, v.objects[number]? = some object → object.content.type ≠ .file →
    v'.objects[number]? = some object

theorem Spares.trans (h : Spares v v') (h' : Spares v' v'') : Spares v v'' :=
  fun _ _ ho hf => h' (h ho hf) hf

theorem Thinned.spares (h : Thinned v v') : Spares v v' := fun _ _ ho _ => by rwa [h.objects]

theorem Bounded.spares (h : Bounded (fun _ => False) made v v') : Spares v v' :=
  fun _ _ ho _ => (h.object ho).resolve_right fun ⟨_, _, hf, _⟩ => hf

theorem Creates.spares (h : v.Creates p object v') : Spares v v' := by
  obtain ⟨directory, name, -, -, -, -, rfl⟩ := h
  intro number old ho _
  obtain ⟨hlt, -⟩ := Array.getElem?_eq_some_iff.mp ho
  rw [create, Array.getElem?_push, if_neg (Nat.ne_of_lt hlt), ho]

theorem Copies.spares {source : Place} {data : Bytes} (h : v.Copies source data place v')
    (hfile : ∀ old, v.object? place = some old → old.content.type = .file) : Spares v v' := by
  intro number object ho hf
  have hbounded : Bounded (· = place) (fun _ => False) v v' := h.bounded rfl
  refine (hbounded.object ho).resolve_right ?_
  rintro ⟨-, w, rfl, hn⟩
  exact hf (hfile object (object?_eq_some.mpr ⟨number, hn, ho⟩))

theorem Spares.object? (h : Spares v v') (hn : v'.number? w = v.number? w) (ho : v.object? w = some object)
    (hf : object.content.type ≠ .file) : v'.object? w = some object := by
  obtain ⟨number, hnumber, hobject⟩ := object?_eq_some.mp ho
  exact object?_eq_some.mpr ⟨number, hn.trans hnumber, h hobject hf⟩

end Volume

namespace Directory

open Volume

variable {σ η : Type} {platform : Platform σ η} {view : Reading σ η} {s : σ} {made : Place → Prop}
  {full : Bool} {calm : Prop} {top origin place : Place} {p : Path} {entry : Entry} {levels : Nat}

/-! ## Entries -/

/-- What a copy of an entry leaves alone. -/
structure Merges (view : Reading σ η) (made : Place → Prop) (origin place : Place) (s s' : σ) : Prop where
  changes : view.Changes ((view.volume s).Covered origin place) made s s'
  spares : Spares (view.volume s) (view.volume s')

/-- Of what is no file, nothing changes but where it stands. -/
theorem Pair.ends_spares (hp : Pair view s made full calm top entry.path origin p place) (h : Falters platform view)
    (htype : (view.volume s).type? origin = some entry.type) (hd : entry.type ≠ .directory) :
    (copyEntry platform (levels + 1) entry p).Ends s (fun _ s' => Spares (view.volume s) (view.volume s'))
      fun _ _ => True := by
  rw [copyEntry]
  refine (hp.ends_unlinkSymlink h).andThen (fun _ _ _ => trivial) ?_
  rintro - s₁ ⟨hc₁, hthin₁, hr₁⟩
  have hp₁ := hp.of_thinned hc₁ (fun _ => eq_isPrefix) hthin₁
  have htype₁ := (hp.type?_origin hc₁ fun w he => he ▸ hp.inside).trans htype
  cases he : entry.type with
  | directory => exact absurd he hd
  | symlink =>
    refine (h.readlink s₁ entry.path).andThen (fun _ _ _ => trivial) ?_
    rintro destination s₂ ⟨hstill, -⟩
    have ht₂ := hp₁.toTarget.of_still hstill
    refine (Directory.ends_removeRecursive h ht₂.sound ht₂.foothold).andThen (fun _ _ _ => trivial) ?_
    rintro - s₃ ⟨hremoves, -⟩
    refine (h.symlink s₃ destination p).mono (fun _ s₄ hlink => ?_) fun _ _ _ => trivial
    obtain ⟨v, hlink, hbecomes⟩ := hlink
    have hthin₃ := hremoves.thinned
    rw [hstill.1] at hthin₃
    rw [hbecomes.1]
    obtain ⟨_, -, hcreates⟩ := creates_of_symlink (ht₂.of_removes hremoves).sound hlink
    exact hthin₁.spares.trans (hthin₃.spares.trans hcreates.spares)
  | file =>
    refine Ends.bind ((h.copyFile s₁ entry.path p).mono (fun _ s₂ hcopy => ?_) fun _ _ _ => trivial)
      fun _ _ hend => Ends.pure hend
    obtain ⟨v, hcopy, hbecomes⟩ := hcopy
    obtain ⟨goal, data, goal', -, -, hreach, hcopies⟩ := copies_of_copyFile hp₁.sound hcopy
    obtain rfl := hr₁.eq_of_reach hp₁.sound hreach
    rw [hbecomes.1]
    have hregular := hp₁.regular hr₁ hreach hcopies.blocked (htype₁.trans (by rw [he]))
    exact hthin₁.spares.trans (hcopies.spares hregular)
  | special => exact Ends.pure hthin₁.spares

/-- A copy of an entry touches what answers to something in the tree that is copied, and nothing else. -/
theorem ends_copyEntry_merges (h : Falters platform view) (levels : Nat)
    (hp : Pair view s made full calm top entry.path origin p place)
    (htype : (view.volume s).type? origin = some entry.type) :
    (copyEntry platform levels entry p).Ends s (fun _ s' => Merges view made origin place s s') fun _ _ => True := by
  induction levels generalizing s p origin place entry made with
  | zero => exact Ends.throw trivial
  | succ levels ih =>
    by_cases hd : entry.type = .directory
    case neg =>
      have hleaf : ¬ (view.volume s).isDirectory origin := by
        rw [isDirectory_iff_type?, htype, Option.some.injEq]
        exact hd
      refine ((ends_copyEntry h (levels + 1) hp.toTarget).and (hp.ends_spares h htype hd)).mono
        (fun _ s' hend => ⟨hend.1.mono (fun _ => covered_of_leaf hp.stands hleaf) fun _ hm => hm, hend.2⟩)
        fun _ _ _ => trivial
    have ho : (view.volume s).isDirectory origin := isDirectory_iff_type?.mpr (hd ▸ htype)
    rw [copyEntry]
    refine (hp.ends_unlinkSymlink h).andThen (fun _ _ _ => trivial) ?_
    rintro - s₁ ⟨hc₁, hthin₁, hr₁⟩
    simp only [hd]
    refine ((hp.ends_create h hc₁ hr₁).and (ends_create_any h (hc₁.bounded.sound hp.sound))).andThen
      (fun _ _ _ => trivial) ?_
    rintro - s₂ ⟨⟨hc₂, hd₂, ht₂⟩, hany, -⟩
    have hp₂ := hp.of_create hc₂ ht₂ ho hd₂
    have hseen₂ := hp.outline_origin hp.sound hc₂.bounded fun w he => he ▸ hp.inside
    have ho₂ : (view.volume s₂).isDirectory origin := by
      have hseen := hseen₂ []
      rw [List.append_nil] at hseen
      exact (isDirectory_congr hseen).mpr ho
    refine (ends_children h hp₂.sound).andThen (fun _ _ _ => trivial) ?_
    rintro entries s₃ ⟨hstill, directory, hreach, -, hall⟩
    obtain rfl := hp₂.toBeside.eq_of_reach hp₂.sound
      (fun _ _ hl => hl.not_passable (passable_of_isDirectory ho₂)) hreach
    have hp₃ := hp₂.of_still hstill
    have hspares₃ : Spares (view.volume s) (view.volume s₃) := by
      rw [hstill.1]
      exact hthin₁.spares.trans hany.bounded.spares
    rw [← hstill.1] at hall hd₂ ho₂ hseen₂
    have hc₃ := hc₂.trans hstill.changes
    -- of the names that are done: what has been touched belongs to them
    refine (Ends.forM₂ (fun done s' => view.Changes (fun w => ∃ name ∈ done,
        (view.volume s₃).Covered (directory ++ [name]) (place ++ [name]) w) (fun _ => False) s₃ s' ∧
        Spares (view.volume s₃) (view.volume s')) hall ⟨.refl s₃, fun _ _ ho _ => ho⟩ ?_).mono
      (fun _ s' hend => ⟨?_, hspares₃.trans hend.2⟩) fun _ _ hbad => hbad
    · rintro done child name rest s' hnames hchild ⟨hchanges, hspares⟩
      have hnodup := hp₃.sound.distinct directory
      rw [hnames] at hnodup
      have hothers : view.Changes (Others (below place) ((view.volume s₃).names directory) name) (fun _ => False)
          s₃ s' := by
        rw [hnames]
        refine hchanges.mono (fun w hw => (others_of_done hnodup hw).mono fun _ _ => ?_) fun _ hm => hm
        exact Covered.isPrefix
      obtain ⟨hp', htype'⟩ := hp₃.of_isChild ho₂ hd₂ hchild hothers
      rw [hchild.childOf]
      refine (ih hp' htype').mono (fun _ s'' hend => ⟨?_, hspares.trans hend.spares⟩) fun _ _ _ => trivial
      refine (hchanges.mono ?_ fun _ hm => hm).trans (hend.changes.mono ?_ fun _ hm => hm)
      · rintro w ⟨other, hother, hw⟩
        exact ⟨other, List.mem_append_left _ hother, hw⟩
      · refine fun w hw => ⟨name, by simp, hw.congr hp₃.sound hp'.sound fun more => ?_⟩
        rw [List.append_assoc]
        exact hp₃.outline_origin hp₃.sound hothers.bounded (fun _ => hp₃.top_of_others) _
    · refine (hc₃.mono (fun _ => covered_of_eq hp.stands) fun _ hm => hm).trans
        (hend.1.mono ?_ fun _ => False.elim)
      rintro w ⟨name, -, hw⟩
      exact hw.outward.congr hp.sound hp₃.sound hseen₂

end Directory

/-! ## Trees -/

namespace Volume

variable {v v' : Volume} {made : Place → Prop} {calm : Prop} {origin top : Place} {source p : Path}

/-- What a copy of a tree over another one comes to. -/
structure Merged (v : Volume) (origin top : Place) (v' : Volume) : Prop where
  /-- Whatever stands in the first tree stands at the same names in the second one. -/
  copied : Copied true v origin top v'
  /-- What has no counterpart in the first tree, and is not below one that is no directory, is as it was. -/
  kept : ∀ w, top <+: w → ¬ v.Covered origin top w → v'.number? w = v.number? w ∧ v'.object? w = v.object? w
  /-- The first tree is as it was. -/
  origin : ∀ below, v'.number? (origin ++ below) = v.number? (origin ++ below) ∧
    v'.object? (origin ++ below) = v.object? (origin ++ below)

theorem Merged.of_pair (hp : Pair reading v made true calm top source origin p top)
    (hcopies : Directory.Copies reading true calm made origin top v v')
    (hmerges : Merges reading made origin top v v') :
    Merged v origin top v' := by
  have hc : Bounded (v.Covered origin top) made v v' := hmerges.changes.bounded
  refine ⟨hcopies.copied, fun w hw hout => ?_, fun below => ⟨?_, ?_⟩⟩
  · have hn : v'.number? w = v.number? w :=
      (hc.outside w hout).resolve_right fun hnew => (hp.unmade w hnew.2.1).1 hw
    refine ⟨hn, ?_⟩
    cases ho : v.object? w with
    | none => exact (hc.sound hp.sound).object?_eq_none.mpr (hn.trans (hp.sound.object?_eq_none.mp ho))
    | some object =>
      by_cases hf : object.content.type = .file
      · -- a file has no other name at which the copy could have written to it
        refine hc.object?_eq hout ho fun _ w' hw' hn' => ?_
        exact hp.alone rfl w w' object hw (fun he => hout (he ▸ hw')) hn'.symm ho hf
      · exact hmerges.spares.object? hn ho hf
  · refine (hc.outside _ fun hin => hp.apart below hin.isPrefix).resolve_right fun hnew => ?_
    exact (hp.unmade _ hnew.2.1).2 hnew.1 (List.prefix_append _ _)
  · exact hp.object?_origin hmerges.changes (fun _ hw => hw.isPrefix) below

/-- A copy of a tree over another one that is apart from it, if it succeeds: whatever is in the first tree is in
the second one, what has no counterpart there is as it was, and so is the first tree. -/
theorem copyRecursive_merged (hsep : v.Separate source origin p top) (hsuited : v.Suited origin top)
    (halone : v.Alone top) (hrun : (copyRecursive platform source p).apply v = (.ok (), v')) :
    Merged v origin top v' := by
  have hends : (copyRecursive platform source p).Ends v (fun _ v' => Merged v origin top v') fun _ _ => True := by
    refine ends_copyRecursive_of falters_platform (fun _ _ _ => trivial) fun entry v₁ levels hstill hstat => ?_
    obtain rfl : v₁ = v := hstill.1
    obtain ⟨goal, object, hreach, ho, rfl⟩ := stat_eq_ok.mp hstat
    obtain rfl := hsep.beside.eq_of_reach hsep.sound (fun hf => absurd hf Bool.false_ne_true) hreach
    have hp : Pair reading v₁ (v₁.IsParent p) true False top source goal p top :=
      .of_separate hsep (fun _ _ _ hb => hb) hsuited (not_vacant_of_object? ho) (fun _ => halone) False.elim
    have htype : v₁.type? goal = some (object.entry source).type := type?_eq_some.mpr ⟨object, ho, rfl⟩
    exact ((ends_copyEntry_pair falters_platform levels hp htype).and
      (ends_copyEntry_merges falters_platform levels hp htype)).mono (fun _ _ hend => .of_pair hp hend.1 hend.2)
      fun _ _ _ => trivial
  have hend := hends.ok (x := ()) (by rw [hrun])
  rwa [hrun] at hend

theorem copyRecursive_merged_crossed :
    (crossed.Separate "/src".toList (placeOf ["src"]) "/a/dst".toList (placeOf ["a", "dst"]) ∧
      crossed.Suited (placeOf ["src"]) (placeOf ["a", "dst"]) ∧ crossed.Alone (placeOf ["a", "dst"]) ∧
      ((copyRecursive platform "/src".toList "/a/dst".toList).apply crossed).1 = .ok ()) ∧
    Merged crossed (placeOf ["src"]) (placeOf ["a", "dst"])
      ((copyRecursive platform "/src".toList "/a/dst".toList).apply crossed).2 := by
  have hsuited : crossed.Suited (placeOf ["src"]) (placeOf ["a", "dst"]) := Plain.suited copyable_crossed.ordinary
  have halone := unshared_crossed.alone (placeOf ["a", "dst"])
  have hok : ((copyRecursive platform "/src".toList "/a/dst".toList).apply crossed).1 = .ok () := by decide +kernel
  exact ⟨⟨copyable_crossed.separate, hsuited, halone, hok⟩,
    copyRecursive_merged copyable_crossed.separate hsuited halone (apply_eq_ok hok)⟩

/-- A file beside a special file in whose place it is to be copied. -/
def choked : Volume :=
  grown [(placeOf ["src"], .directory), (placeOf ["src", "f"], .file [0x78]), (placeOf ["dst"], .directory),
    (placeOf ["dst", "f"], .special .fifo)]

/-- A copy that succeeds lacks what is in the tree if its path leads through its own place, where a link has been
replaced by then, or if a special file is in the place of a file. It adds to the tree if its path leads through a
directory that is missing there. -/
theorem copyRecursive_lacks :
    (crossed.Sound ∧ crossed.Alone (placeOf ["a", "dst"]) ∧
      crossed.reach true "/src".toList = .ok (placeOf ["src"]) ∧
      crossed.reach true "/a/dst/l/../../a/dst".toList = .ok (placeOf ["a", "dst"]) ∧
      ((copyRecursive platform "/src".toList "/a/dst/l/../../a/dst".toList).apply crossed).1 = .ok () ∧
      crossed.contents (placeOf ["src"]) (placeOf ["l", "a"]) = some (.file [0x78]) ∧
      ((copyRecursive platform "/src".toList "/a/dst/l/../../a/dst".toList).apply crossed).2.contents
        (placeOf ["a", "dst"]) (placeOf ["l", "a"]) = none) ∧
    (choked.Sound ∧ choked.Alone (placeOf ["dst"]) ∧
      ((copyRecursive platform "/src".toList "/dst".toList).apply choked).1 = .ok () ∧
      ((copyRecursive platform "/src".toList "/dst".toList).apply choked).2.contents (placeOf ["dst"])
        (placeOf ["f"]) = some (.special .fifo) ∧
      choked.contents (placeOf ["src"]) (placeOf ["new"]) = none ∧
      ((copyRecursive platform "/src".toList "/src/new/../../copy".toList).apply choked).1 = .ok () ∧
      ((copyRecursive platform "/src".toList "/src/new/../../copy".toList).apply choked).2.contents
        (placeOf ["src"]) (placeOf ["new"]) = some .directory) := by
  refine ⟨⟨sound_crossed, unshared_crossed.alone _, ?_⟩, sound_grown (by decide +kernel),
    (unshared_grown (by decide +kernel)).alone _, ?_⟩
  · decide +kernel
  · decide +kernel

end Volume

end Bytework
