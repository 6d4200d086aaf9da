import Bytework.Proofs.Directory.Steps

/-!
# Frames of copying

How far operations on whole trees reach. Whatever fails, an operation that works at a foothold touches
the place of the foothold and what is below it, and makes directories at parents of the path.

* `Watched`: `lstat` sees every link at and below a place, so none is written through.
* `ends_forM_children`: a loop over the names in a directory, each with its own part of what is below.
* **`ends_copyEntry`**, **`ends_syncTree`**, **`ends_prune`**: the recursive operations.
* `ends_copy`, `ends_copyRecursive`, `ends_sync`, `ends_mirror`: the operations made of them.
-/

namespace Bytework.Directory

open Bytework.Action Volume

variable {σ η : Type} {platform : Platform σ η} {view : Reading σ η} {s s' : σ} {made made' : Place → Prop}
  {place : Place} {p source : Path} {entry : Entry} {name : Name} {names : List Name}

/-! ## Loops over names -/

/-- What belongs to a name other than the given one. -/
def Others (region : Name → Place → Prop) (names : List Name) (name : Name) (w : Place) : Prop :=
  ∃ other ∈ names, other ≠ name ∧ region other w

theorem others_of_done {region : Name → Place → Prop} {done rest : List Name} {w : Place}
    (hnames : (done ++ name :: rest).Nodup) (h : ∃ other ∈ done, region other w) :
    Others region (done ++ name :: rest) name w := by
  obtain ⟨other, hother, hw⟩ := h
  refine ⟨other, List.mem_append_left _ hother, ?_, hw⟩
  rintro rfl
  exact (List.nodup_append.mp hnames).2.2 other hother other List.mem_cons_self rfl

/-- A loop over names, each of which has its own region: every body finds its region as it was at the
start, and leaves it to the end as it made it. -/
theorem ends_forM_children (region : Name → Place → Prop) (good : Name → σ → σ → Prop)
    {r : Entry → Name → Prop} {entries : List Entry} {body : Entry → Action σ Unit}
    (hall : List.Forall₂ r entries names) (hnames : names.Nodup)
    (step : ∀ child name s', r child name → name ∈ names →
      view.Changes (Others region names name) made s s' →
      (body child).Ends s' (fun _ s'' => view.Changes (region name) made s' s'' ∧ good name s' s'')
        fun _ s'' => view.Changes (region name) made s' s'') :
    (entries.forM body).Ends s
      (fun _ s' => view.Changes (fun w => ∃ name ∈ names, region name w) made s s' ∧
        ∀ name ∈ names, ∃ s₁ s₂, view.Changes (Others region names name) made s s₁ ∧
          view.Changes (region name) made s₁ s₂ ∧ good name s₁ s₂ ∧
          view.Changes (Others region names name) made s₂ s')
      fun _ s' => view.Changes (fun w => ∃ name ∈ names, region name w) made s s' := by
  have hmono {s₁ s₂ : σ} {some : Name} (hm : some ∈ names) (hc : view.Changes (region some) made s₁ s₂) :
      view.Changes (fun w => ∃ name ∈ names, region name w) made s₁ s₂ :=
    hc.mono (fun w hw => ⟨some, hm, hw⟩) fun _ hw => hw
  -- of each name that is done: what was done before its turn and after it belongs to other names
  refine Ends.forM₂ (fun done s' => view.Changes (fun w => ∃ name ∈ done, region name w) made s s' ∧
      ∀ name ∈ done, ∃ s₁ s₂, view.Changes (Others region names name) made s s₁ ∧
        view.Changes (region name) made s₁ s₂ ∧ good name s₁ s₂ ∧
        view.Changes (Others region names name) made s₂ s') hall ⟨.refl s, by simp⟩ ?_
  rintro done child name rest s' rfl hr ⟨hchanges, hdone⟩
  have hmem : name ∈ done ++ name :: rest := by simp
  have hbefore : view.Changes (Others region (done ++ name :: rest) name) made s s' :=
    hchanges.mono (fun w hw => others_of_done hnames hw) fun _ hw => hw
  have hall' : view.Changes (fun w => ∃ other ∈ done ++ name :: rest, region other w) made s s' :=
    hchanges.mono (fun w ⟨other, ho, hw⟩ => ⟨other, List.mem_append_left _ ho, hw⟩) fun _ hw => hw
  refine (step child name s' hr hmem hbefore).mono (fun _ s'' hend => ⟨?_, ?_⟩)
    fun _ s'' hend => hall'.trans (hmono hmem hend)
  · refine (hchanges.mono ?_ fun _ hw => hw).trans (hend.1.mono ?_ fun _ hw => hw)
    · exact fun w ⟨other, ho, hw⟩ => ⟨other, List.mem_append_left _ ho, hw⟩
    · exact fun w hw => ⟨name, by simp, hw⟩
  · intro other ho
    rcases List.mem_append.mp ho with ho | ho
    · obtain ⟨s₁, s₂, hs₁, hmade, hgood, hs₂⟩ := hdone other ho
      refine ⟨s₁, s₂, hs₁, hmade, hgood, hs₂.trans (hend.1.mono (fun w hw => ?_) fun _ hw => hw)⟩
      refine ⟨name, hmem, ?_, hw⟩
      rintro rfl
      exact (List.nodup_append.mp hnames).2.2 name ho name List.mem_cons_self rfl
    · obtain rfl := List.mem_singleton.mp ho
      exact ⟨s', s'', hbefore, hend.1, hend.2, .refl s''⟩

/-! ## Below a directory -/

/-- The region of a name in a directory: its place and what is below. -/
def below (place : Place) (name : Name) (w : Place) : Prop := place ++ [name] <+: w

theorem not_below_others {w : Place} (h : below place name w) :
    ¬ Others (below place) names name w := by
  rintro ⟨other, -, hne, hw⟩
  obtain ⟨more, rfl⟩ := h
  obtain ⟨more', he⟩ := hw
  rw [List.append_assoc, List.append_assoc] at he
  exact hne (List.head_eq_of_cons_eq (List.append_cancel_left he))

theorem not_others_self : ¬ Others (below place) names name place := by
  rintro ⟨other, -, -, hw⟩
  exact not_concat_isPrefix place other hw

theorem prefix_of_others {w : Place} (h : Others (below place) names name w) : place <+: w := by
  obtain ⟨other, -, -, hw⟩ := h
  exact (List.prefix_append _ _).trans hw

/-- `lstat` cannot fail of a link at or below a place, each under the path that leads to it. -/
def Watched (view : Reading σ η) (s : σ) (p : Path) (place : Place) : Prop :=
  ∀ more target, (view.volume s).Links (place ++ more) target → ¬ view.blind s (more.foldl Path.join p)

theorem Watched.below {within : Place → Prop} (h : Watched view s p place)
    (hs : (view.volume s).Sound) (hc : view.Changes within made s s')
    (hout : ∀ w, Directory.below place name w → ¬ within w) :
    Watched view s' (p.join name) (place ++ [name]) := by
  intro more target hl hb
  have hpre : Directory.below place name (place ++ [name] ++ more) := List.prefix_append _ _
  have hl' := hc.bounded.links_of_links hs (hout _ hpre) hl
  rw [List.append_assoc] at hl'
  exact h (name :: more) target hl' (hc.blind _ hb)

theorem Watched.of_isDirectory (h : Watched view s p place) (hs : (view.volume s).Sound)
    (hc : view.Changes (· = place) made s s') (hd : (view.volume s').isDirectory place) :
    Watched view s' p place := by
  intro more target hl hb
  rcases more with _ | ⟨name, more⟩
  · rw [List.append_nil] at hl
    exact hl.not_passable (passable_of_isDirectory hd)
  · refine h (name :: more) target (hc.bounded.links_of_links hs (fun he => ?_) hl) (hc.blind _ hb)
    simp at he

/-- What copying an entry, or a tree, needs of the place that it copies to. -/
structure Target (view : Reading σ η) (s : σ) (made : Place → Prop) (p : Path) (place : Place) : Prop where
  sound : (view.volume s).Sound
  foothold : Foothold (view.volume s) made p place
  firm : ∀ target, (view.volume s).Links place target → Foothold (view.volume s) (fun _ => False) p place
  watched : Watched view s p place

theorem eq_isPrefix {w : Place} (h : w = place) : place <+: w := h ▸ List.prefix_refl _

namespace Target

theorem of_leads (view : Reading σ η) {s : σ} (hs : (view.volume s).Sound) (hne : place ≠ [])
    (hl : (view.volume s).Leads (place <+: ·) false p place) (hp : (view.volume s).Passable place)
    (hw : Watched view s p place) : Target view s ((view.volume s).IsParent p) p place :=
  ⟨hs, .of_leads hne hl, fun _ hl => absurd hp hl.not_passable, hw⟩

theorem child (ht : Target view s (fun _ => False) p place) (hd : (view.volume s).isDirectory place)
    (hn : Path.IsPlain name) (hc : view.Changes (Others (below place) names name) made s s') :
    Target view s' (fun _ => False) (p.join name) (place ++ [name]) := by
  have hd' := hc.bounded.isDirectory not_others_self hd
  have hf := (ht.foothold.of_bounded ht.sound hc.bounded (fun _ => prefix_of_others) fun target =>
    hc.bounded.links_of_links ht.sound not_others_self).join hd' hn
  exact ⟨hc.bounded.sound ht.sound, hf, fun _ _ => hf, ht.watched.below ht.sound hc fun _ => not_below_others⟩

theorem ready (ht : Target view s made p place) (hu : Unlinked (view.volume s) p place) :
    Ready (view.volume s) made p place :=
  ⟨ht.foothold, hu, ht.firm⟩

theorem not_blind {target : Path} (ht : Target view s made p place)
    (hl : (view.volume s).Links place target) : ¬ view.blind s p :=
  ht.watched [] target (by rwa [List.append_nil])

theorem of_thinned {within : Place → Prop} (ht : Target view s made p place)
    (hc : view.Changes within made' s s') (hw : ∀ w, within w → place <+: w)
    (hthin : Thinned (view.volume s) (view.volume s')) : Target view s' made p place := by
  have hlasts {made : Place → Prop} (hf : Foothold (view.volume s) made p place) :
      Foothold (view.volume s') made p place :=
    hf.of_bounded ht.sound hc.bounded hw fun target => hthin.links
  exact ⟨hc.bounded.sound ht.sound, hlasts ht.foothold, fun target hl => hlasts (ht.firm target (hthin.links hl)),
    fun more target hl hb => ht.watched more target (hthin.links hl) (hc.blind _ hb)⟩

theorem of_removes (ht : Target view s made p place) (h : view.Removes place made' s s') :
    Target view s' made p place :=
  ht.of_thinned h.toChanges (fun _ hw => hw) h.thinned

theorem ends_unlinkSymlink (ht : Target view s made p place) (h : Falters platform view) :
    (unlinkSymlink platform p).Ends s
      (fun _ s' => view.Changes (· = place) made s s' ∧ Thinned (view.volume s) (view.volume s') ∧
        Ready (view.volume s') made p place)
      fun _ s' => view.Changes (· = place) made s s' := by
  refine (Directory.ends_unlinkSymlink h ht.sound ht.foothold fun _ => ht.not_blind).mono
    (fun _ s' hend => ?_) fun _ _ hend => hend
  obtain ⟨hc, hthin, hunlinked⟩ := hend
  exact ⟨hc, hthin, (ht.of_thinned hc (fun _ => eq_isPrefix) hthin).ready hunlinked⟩

/-- A target at which a directory is made is one to work below. -/
theorem ends_create (ht : Target view s made p place) (h : Falters platform view)
    (hc : view.Changes (· = place) made s s') (hr : Ready (view.volume s') made p place) :
    (create platform p).Ends s'
      (fun _ s'' => view.Changes (· = place) made s s'' ∧ (view.volume s'').isDirectory place ∧
        Target view s'' (fun _ => False) p place)
      fun _ s'' => view.Changes (· = place) made s s'' := by
  refine (Directory.ends_create h (hc.bounded.sound ht.sound) hr).mono (fun _ s'' hend => ?_)
    fun _ _ hend => hc.trans hend
  obtain ⟨hc', hd, hf⟩ := hend
  have hc' := hc.trans hc'
  exact ⟨hc', hd, hc'.bounded.sound ht.sound, hf, fun _ _ => hf, ht.watched.of_isDirectory ht.sound hc' hd⟩

theorem of_still (ht : Target view s made p place) (h : view.Still s s') : Target view s' made p place := by
  obtain ⟨hv, hb⟩ := h
  refine ⟨hv ▸ ht.sound, hv ▸ ht.foothold, hv ▸ ht.firm, fun more target hl hblind => ?_⟩
  rw [hv] at hl
  exact ht.watched more target hl (hb _ hblind)

end Target

/-! ## Copies of entries -/

/-- What a body does with a name in a directory that is worked on: it keeps to what is below the name. -/
def KeepsBelow (view : Reading σ η) (p : Path) (place : Place) (body : Entry → Action σ Unit) : Prop :=
  ∀ child name s, childOf p child = p.join name →
    Target view s (fun _ => False) (p.join name) (place ++ [name]) →
    (body child).Ends s (fun _ s' => view.Changes (place ++ [name] <+: ·) (fun _ => False) s s')
      fun _ s' => view.Changes (place ++ [name] <+: ·) (fun _ => False) s s'

/-- Work in a directory, name by name, leaves the directory itself as it is. -/
theorem ends_forM_below (ht : Target view s (fun _ => False) p place)
    (hd : (view.volume s).isDirectory place) {v : Volume} {directory : Place}
    {entries : List Entry} (hv : v.Sound) {body : Entry → Action σ Unit}
    (hall : List.Forall₂ (IsChild v source directory) entries (v.names directory))
    (hbody : KeepsBelow view p place body) :
    (entries.forM body).Ends s
      (fun _ s' => view.Changes (fun w => place <+: w ∧ w ≠ place) (fun _ => False) s s')
      fun _ s' => view.Changes (fun w => place <+: w ∧ w ≠ place) (fun _ => False) s s' := by
  have hregion : ∀ w, (∃ name ∈ v.names directory, below place name w) → place <+: w ∧ w ≠ place := by
    rintro w ⟨name, -, hw⟩
    refine ⟨(List.prefix_append _ _).trans hw, ?_⟩
    rintro rfl
    exact not_concat_isPrefix w name hw
  have hstep : ∀ child name s', IsChild v source directory child name → name ∈ v.names directory →
      view.Changes (Others (below place) (v.names directory) name) (fun _ => False) s s' →
      (body child).Ends s'
        (fun _ s'' => view.Changes (below place name) (fun _ => False) s' s'' ∧ True)
        fun _ s'' => view.Changes (below place name) (fun _ => False) s' s'' := by
    intro child name s' hchild _ hc
    exact (hbody child name s' (hchild.childOf p) (ht.child hd hchild.plain hc)).mono
      (fun _ _ hend => ⟨hend, trivial⟩) fun _ _ hend => hend
  refine (ends_forM_children _ (fun _ _ _ => True) hall (hv.distinct directory) hstep).mono
    (fun _ _ hend => ?_) fun _ _ hend => ?_
  · exact hend.1.mono hregion fun _ hm => hm
  · exact hend.mono hregion fun _ hm => hm

/-- A directory is made, and work is done in it for each name in another one. -/
theorem Target.ends_directory (ht : Target view s made p place) (h : Falters platform view)
    (hc : view.Changes (· = place) made s s') (hr : Ready (view.volume s') made p place)
    {body : Entry → Action σ Unit} (hbody : KeepsBelow view p place body) :
    (do create platform p
        (← children platform source).forM body).Ends s'
      (fun _ s'' => view.Changes (place <+: ·) made s s'' ∧ (view.volume s'').isDirectory place ∧
        Foothold (view.volume s'') (fun _ => False) p place)
      fun _ s'' => view.Changes (place <+: ·) made s s'' := by
  refine (ht.ends_create h hc hr).andThen (fun _ _ => Reading.Changes.downward) ?_
  rintro - s₁ ⟨hc₁, hd₁, ht₁⟩
  refine (ends_children h ht₁.sound).andThen (fun _ _ h => hc₁.downward.trans h.changes) ?_
  rintro entries s₂ ⟨hstill, directory, -, -, hall⟩
  have ht₂ := ht₁.of_still hstill
  have hd₂ := hstill.1 ▸ hd₁
  have hall' {s₃ : σ} (hc₃ : view.Changes (fun w => place <+: w ∧ w ≠ place) (fun _ => False) s₂ s₃) :
      view.Changes (place <+: ·) made s s₃ :=
    (hc₁.downward.trans hstill.changes).trans (hc₃.mono (fun _ hw => hw.1) fun _ => False.elim)
  refine (ends_forM_below ht₂ hd₂ ht₁.sound hall hbody).mono (fun _ s₃ hc₃ => ?_) fun _ _ => hall'
  have hout : ¬ (place <+: place ∧ place ≠ place) := fun hw => hw.2 rfl
  refine ⟨hall' hc₃, hc₃.bounded.isDirectory hout hd₂, ?_⟩
  exact ht₂.foothold.of_bounded ht₂.sound hc₃.bounded (fun _ hw => hw.1) fun target =>
    hc₃.bounded.links_of_links ht₂.sound hout

theorem ends_copyEntry (h : Falters platform view) (levels : Nat) (ht : Target view s made p place) :
    (copyEntry platform levels entry p).Ends s
      (fun _ s' => view.Changes (place <+: ·) made s s')
      fun _ s' => view.Changes (place <+: ·) made s s' := by
  -- the levels bound the depth; below the first directory no parent is missing, so `made` changes on the way
  induction levels generalizing s p place entry made with
  | zero => exact Ends.throw (.refl s)
  | succ levels ih =>
    rw [copyEntry]
    refine (ht.ends_unlinkSymlink h).andThen (fun _ _ => Reading.Changes.downward) ?_
    rintro - s₁ ⟨hc₁, -, hr₁⟩
    have hs₁ := hc₁.bounded.sound ht.sound
    cases entry.type with
    | directory =>
      refine (ht.ends_directory h hc₁ hr₁ ?_).mono (fun _ _ hend => hend.1) fun _ _ hend => hend
      intro child name s' hchild ht'
      dsimp only
      rw [hchild]
      exact ih ht'
    | symlink =>
      refine (h.readlink s₁ entry.path).andThen (fun _ _ hstill => hc₁.downward.trans hstill.changes) ?_
      rintro destination s₂ ⟨hstill, -⟩
      have hc₂ := hc₁.downward.trans hstill.changes
      rw [← hstill.1] at hs₁ hr₁
      refine (ends_removeRecursive h hs₁ hr₁.foothold).andThen (fun _ _ h => hc₂.trans h.toChanges) ?_
      rintro - s₃ ⟨hremoves, -⟩
      have hs₃ := hremoves.bounded.sound hs₁
      have hf₃ := hr₁.foothold.of_bounded hs₁ hremoves.bounded (fun _ hw => hw)
        fun target => hremoves.thinned.links
      have hc₃ := hc₂.trans hremoves.toChanges
      refine (h.symlink s₃ destination p).mono (fun _ s₄ hlink => ?_) fun _ _ hstill => hc₃.trans hstill.changes
      obtain ⟨v, hlink, hbecomes⟩ := hlink
      obtain ⟨_, -, hcreates⟩ := creates_of_symlink hs₃ hlink
      refine hc₃.trans (hbecomes.changes (hcreates.bounded hs₃ fun goal hreach _ => ?_))
      exact .inl (eq_isPrefix (hf₃.eq_of_reach hs₃ hreach))
    | file =>
      refine Ends.bind ((h.copyFile s₁ entry.path p).mono (fun _ s₂ hcopy => ?_)
        fun _ _ hstill => hc₁.downward.trans hstill.changes) fun _ _ hc => Ends.pure hc
      obtain ⟨v, hcopy, hbecomes⟩ := hcopy
      obtain ⟨from_, data, goal, -, -, hreach, hcopies⟩ := copies_of_copyFile hs₁ hcopy
      obtain rfl := hr₁.eq_of_reach hs₁ hreach
      have hc₂ := hc₁.trans (hbecomes.changes (hcopies.bounded rfl))
      exact hc₂.downward
    | special => exact Ends.pure hc₁.downward

/-! ## Trees brought up to date -/

/-- What is in the way of a copy is a directory in the place of something else, or the other way
round. -/
theorem ends_namesSuch (h : Falters platform view) (ht : Target view s made p place) (dir : Bool)
    {bad : Failure → σ → Prop} :
    (namesSuch platform p fun e => e.isDirectory != dir).Ends s
      (fun inTheWay s' => view.Still s s' ∧
        if inTheWay then (view.volume s).isDirectory place = !dir
        else dir → Unlinked (view.volume s) p place) bad := by
  refine (ends_lstat h ht.sound ht.foothold.leads).succeeds ?_ ?_
  · rintro entry s' ⟨hstill, -, object, ho, htype⟩
    refine ⟨hstill, ?_⟩
    have hd : (view.volume s).isDirectory place = entry.isDirectory := by
      rw [Bool.eq_iff_iff, isDirectory_of_type htype, Volume.isDirectory, ho, Option.any_some, beq_iff_eq]
    split
    case isTrue hne =>
      rw [hd]
      exact Bool.eq_not_of_ne (bne_iff_ne.mp hne)
    case isFalse heq =>
      rintro rfl target goal hl
      have hdir : entry.isDirectory = true := by simpa using heq
      exact absurd (passable_of_isDirectory (hd.trans hdir)) hl.not_passable
  · rintro e s' ⟨hstill, hnot⟩
    refine ⟨hstill, fun _ target goal hl => ?_⟩
    rcases hnot (ht.not_blind hl) with hv | hr
    · exact absurd (ht.sound.passable_iff.mpr (.inl hv)) hl.not_passable
    · exact hr goal

/-- Where something was to be taken away, no link is left, or none that can be reached. -/
theorem Target.ends_removeRecursive (ht : Target view s made p place) (h : Falters platform view) :
    (removeRecursive platform p).Ends s
      (fun _ s' => view.Removes place made s s' ∧ Unlinked (view.volume s') p place)
      fun _ s' => view.Removes place made s s' := by
  refine (Directory.ends_removeRecursive h ht.sound ht.foothold).mono (fun _ s' hend => ⟨hend.1, ?_⟩)
    fun _ _ hend => hend
  obtain ⟨hremoves, hcleared⟩ := hend
  intro target goal hl
  rcases hcleared (ht.not_blind (hremoves.thinned.links hl)) with hv | ⟨he, hr⟩
  · exact absurd ((hremoves.bounded.sound ht.sound).passable_iff.mpr (.inl hv)) hl.not_passable
  · rw [he]
    exact hr goal

theorem ends_syncTree (h : Falters platform view) (levels : Nat) (ht : Target view s made p place)
    (hu : Unlinked (view.volume s) p place) :
    (syncTree platform levels source p).Ends s
      (fun _ s' => view.Changes (place <+: ·) made s s' ∧ (view.volume s').isDirectory place ∧
        Foothold (view.volume s') (fun _ => False) p place)
      fun _ s' => view.Changes (place <+: ·) made s s' := by
  induction levels generalizing s p place source made with
  | zero => exact Ends.throw (.refl s)
  | succ levels ih =>
    rw [syncTree]
    refine ht.ends_directory h (.refl s) (ht.ready hu) fun child name s₁ hchild ht₁ => ?_
    dsimp only
    rw [hchild]
    have hcopy {s₂ : σ} (ht₂ : Target view s₂ (fun _ => False) (p.join name) (place ++ [name]))
        (hu₂ : child.isDirectory → Unlinked (view.volume s₂) (p.join name) (place ++ [name])) :
        (if child.isDirectory then syncTree platform levels child.path (p.join name)
          else withLevels platform (p.join name) fun levels =>
            copyEntry platform levels child (p.join name)).Ends s₂
          (fun _ s₃ => view.Changes (place ++ [name] <+: ·) (fun _ => False) s₂ s₃)
          fun _ s₃ => view.Changes (place ++ [name] <+: ·) (fun _ => False) s₂ s₃ := by
      split
      case isTrue hd => exact (ih ht₂ (hu₂ hd)).mono (fun _ _ hend => hend.1) fun _ _ hend => hend
      case isFalse => exact ends_withLevels fun levels => ends_copyEntry h levels ht₂
    refine (ends_namesSuch h ht₁ child.isDirectory).bind ?_
    rintro inTheWay s₂ ⟨hstill, hway⟩
    have ht₂ := ht₁.of_still hstill
    split
    case isTrue =>
      refine (ht₂.ends_removeRecursive h).andThen (fun _ _ hc => hstill.changes.trans hc.toChanges) ?_
      rintro - s₃ ⟨hremoves, hu₃⟩
      have hc₃ := hstill.changes.trans hremoves.toChanges
      exact (hcopy (ht₂.of_removes hremoves) fun _ => hu₃).mono (fun _ _ => hc₃.trans) fun _ _ => hc₃.trans
    case isFalse hnot =>
      rw [if_neg hnot, ← hstill.1] at hway
      exact (hcopy ht₂ hway).mono (fun _ _ => hstill.changes.trans) fun _ _ => hstill.changes.trans

/-- Pruning only takes away, below a directory. -/
theorem ends_prune (h : Falters platform view) (levels : Nat) (hs : (view.volume s).Sound)
    (hf : Foothold (view.volume s) made p place) (hp : (view.volume s).Passable place) :
    (prune platform levels source p).Ends s (fun _ s' => view.Removes place made s s')
      fun _ s' => view.Removes place made s s' := by
  induction levels generalizing s p place source with
  | zero => exact Ends.throw (.refl s)
  | succ levels ih =>
    rw [prune]
    refine (ends_children h hs).andThen (fun _ _ h => h.removes) ?_
    rintro _ s₁ ⟨hstill₁, -⟩
    have hs₁ := hs
    rw [← hstill₁.1] at hs₁ hf hp
    refine (ends_children h hs₁).andThen (fun _ _ h => (hstill₁.trans h).removes) ?_
    rintro extras s₂ ⟨hstill₂, directory, hreach, hdirectory, hall⟩
    obtain rfl := hf.eq_of_reach_true hs₁ (fun _ hl => hl.not_passable hp) hreach
    rw [← hstill₂.1] at hs₁ hf hdirectory hall
    have hremoves : view.Removes directory made s s₂ := (hstill₁.trans hstill₂).removes
    refine (ends_forM_removes hs₁ hf hdirectory hall ?_).mono (fun _ _ hend => hremoves.trans hend.1)
      fun _ _ hend => hremoves.trans hend
    intro extra name s' hextra hs' hf' hp'
    rw [hextra.fileName?]
    dsimp only
    split
    · exact ends_withLevels fun levels =>
        (ends_removeEntry h hs' hf' hp').mono (fun _ _ hend => hend.1) fun _ _ hend => hend
    · split
      case isTrue hd => exact ih hs' hf' (hp' hd)
      case isFalse => exact Ends.pure (.refl s')

/-! ## Operations on two paths -/

theorem ends_requireDirectory (h : Falters platform view) (s : σ) (p : Path) :
    (requireDirectory platform p).Ends s
      (fun _ s' => view.Still s s' ∧ ∃ goal, (view.volume s).reach true p = .ok goal ∧
        (view.volume s).isDirectory goal)
      fun _ s' => view.Still s s' := by
  refine (h.stat s p).bind ?_
  rintro entry s' ⟨hstill, hstat⟩
  obtain ⟨goal, object, hreach, ho, rfl⟩ := stat_eq_ok.mp hstat
  split
  case isTrue => exact Ends.throw hstill
  case isFalse hd =>
    have hd : (object.entry p).isDirectory = true := by simpa using hd
    exact Ends.pure ⟨hstill, goal, hreach, isDirectory_iff.mpr ⟨object, ho, (isDirectory_of_type rfl).mp hd⟩⟩

theorem ends_copy (h : Falters platform view) (ht : Target view s made p place)
    (hu : Unlinked (view.volume s) p place) :
    (copy platform source p).Ends s
      (fun _ s' => view.Changes (place <+: ·) made s s')
      fun _ s' => view.Changes (place <+: ·) made s s' := by
  rw [copy]
  refine (ends_requireDirectory h s source).andThen (fun _ _ h => h.changes) ?_
  rintro - s₁ ⟨hstill, -⟩
  refine (ht.ends_directory h hstill.changes (hstill.1 ▸ ht.ready hu) ?_).mono (fun _ _ hend => hend.1)
    fun _ _ hend => hend
  intro child name s' hchild ht'
  dsimp only
  rw [hchild]
  split
  case isTrue =>
    refine (ht'.ends_unlinkSymlink h).andThen (fun _ _ => Reading.Changes.downward) ?_
    rintro - s₂ ⟨hc₂, -, hr₂⟩
    exact (ht'.ends_create h hc₂ hr₂).mono (fun _ _ hend => hend.1.downward) fun _ _ => Reading.Changes.downward
  case isFalse => exact ends_withLevels fun levels => ends_copyEntry h levels ht'

theorem ends_isWithin (h : Falters platform view) (s : σ) (p top : Path) :
    (isWithin platform p top).Ends s (fun _ s' => view.Still s s') fun _ s' => view.Still s s' :=
  (h.getcwd s).bind fun _ _ hstill => Ends.pure hstill

/-- Before an entry is copied by `copyRecursive`, it is looked at, and nothing changes. -/
theorem ends_copyRecursive_of (h : Falters platform view) {good : Unit → σ → Prop} {bad : Failure → σ → Prop}
    (hbad : ∀ e s', view.Still s s' → bad e s')
    (hcopy : ∀ entry s' levels, view.Still s s' → (view.volume s).stat false source = .ok entry →
      (copyEntry platform levels entry p).Ends s' good bad) :
    (copyRecursive platform source p).Ends s good bad := by
  refine (h.lstat s source).andThen (fun e s' hend => hbad e s' hend.1) ?_
  rintro entry s₁ ⟨hstill, hstat⟩
  split
  case isTrue =>
    refine (ends_isWithin h s₁ p source).andThen (fun e s' hend => hbad e s' (hstill.trans hend)) ?_
    rintro inside s₂ hstill'
    split
    · exact Ends.throw (hbad _ _ (hstill.trans hstill'))
    · exact ends_withLevels fun levels => hcopy entry s₂ levels (hstill.trans hstill') hstat
  case isFalse => exact ends_withLevels fun levels => hcopy entry s₁ levels hstill hstat

theorem ends_copyRecursive (h : Falters platform view) (ht : Target view s made p place) :
    (copyRecursive platform source p).Ends s
      (fun _ s' => view.Changes (place <+: ·) made s s')
      fun _ s' => view.Changes (place <+: ·) made s s' := by
  refine ends_copyRecursive_of h (fun _ _ => Reading.Still.changes) fun entry s' levels hstill _ => ?_
  exact (ends_copyEntry h levels (ht.of_still hstill)).mono (fun _ _ => hstill.changes.trans)
    fun _ _ => hstill.changes.trans

theorem ends_sync (h : Falters platform view) (ht : Target view s made p place)
    (hu : Unlinked (view.volume s) p place) (deleteExtraneous : Bool) :
    (sync platform source p deleteExtraneous).Ends s
      (fun _ s' => view.Changes (place <+: ·) made s s')
      fun _ s' => view.Changes (place <+: ·) made s s' := by
  refine (ends_requireDirectory h s source).andThen (fun _ _ h => h.changes) ?_
  rintro - s₁ ⟨hstill, -⟩
  have htree : (withLevels platform p fun levels => syncTree platform levels source p).Ends s₁
      (fun _ s' => view.Changes (place <+: ·) made s₁ s' ∧ (view.volume s').isDirectory place ∧
        Foothold (view.volume s') (fun _ => False) p place)
      fun _ s' => view.Changes (place <+: ·) made s₁ s' :=
    ends_withLevels fun levels => ends_syncTree h levels (ht.of_still hstill) (hstill.1 ▸ hu)
  refine htree.andThen (fun _ _ hc => hstill.changes.trans hc) ?_
  rintro - s₂ ⟨hc₂, hd₂, hf₂⟩
  have hc := hstill.changes.trans hc₂
  split
  · have hprune {s₃ : σ} (hr : view.Removes place (fun _ => False) s₂ s₃) :
        view.Changes (place <+: ·) made s s₃ :=
      hc.trans (hr.toChanges.mono (fun _ hw => hw) fun _ => False.elim)
    exact ends_withLevels fun levels => (ends_prune h levels (hc.bounded.sound ht.sound) hf₂
      (passable_of_isDirectory hd₂)).mono (fun _ _ => hprune) fun _ _ => hprune
  · exact Ends.pure hc

/-- What `mirror` does, however far it comes: it takes away, and then copies to where nothing is left. -/
def Mirrors (view : Reading σ η) (made : Place → Prop) (p : Path) (place : Place) (s s' : σ) : Prop :=
  ∃ s₁, view.Removes place made s s₁ ∧ view.Changes (place <+: ·) made s₁ s' ∧
    (Cleared view p place s s₁ ∨ s' = s₁)

theorem Mirrors.changes (h : Mirrors view made p place s s') : view.Changes (place <+: ·) made s s' := by
  obtain ⟨s₁, hremoves, hc, -⟩ := h
  exact hremoves.toChanges.trans hc

theorem ends_mirror (h : Falters platform view) (ht : Target view s made p place) :
    (mirror platform source p).Ends s (fun _ s' => Mirrors view made p place s s')
      fun _ s' => Mirrors view made p place s s' := by
  refine (ends_requireDirectory h s source).andThen
    (fun _ s' hstill => ⟨s', hstill.removes, .refl s', .inr rfl⟩) ?_
  rintro - s₁ ⟨hstill, -⟩
  have ht₁ := ht.of_still hstill
  refine (Directory.ends_removeRecursive h ht₁.sound ht₁.foothold).andThen
    (fun _ s' h => ⟨s', hstill.removes.trans h, .refl s', .inr rfl⟩) ?_
  rintro - s₂ ⟨hremoves, hcleared⟩
  have hcleared' : Cleared view p place s s₂ := by
    intro hb
    have hb' : ¬ view.blind s₁ p := fun hb' => hb (hstill.2 _ hb')
    rw [← hstill.1]
    exact hcleared hb'
  have hmirrors {s₃ : σ} (hc : view.Changes (place <+: ·) made s₂ s₃) : Mirrors view made p place s s₃ :=
    ⟨s₂, hstill.removes.trans hremoves, hc, .inl hcleared'⟩
  exact (ends_copyRecursive h (ht₁.of_removes hremoves)).mono (fun _ _ => hmirrors) fun _ _ => hmirrors

end Bytework.Directory
