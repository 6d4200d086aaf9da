import Bytework.Directory.Copy
import Bytework.Proofs.Directory.Falters
import Bytework.Proofs.Volume.Effects

/-!
# Children

What reading a directory gives on a platform that falters: nothing changes, and if no call fails, the
entries are those of all names in it.

* `ends_next`, `ends_drain`: a walk that stays in one directory.
* **`ends_children`**: the entries of a directory.
-/

namespace Bytework.Directory

open Bytework.Action

variable {σ η α : Type} {platform : Platform σ η} {view : Reading σ η} {s : σ} {p : Path} {handle : η}
  {walk : Walk η} {a : Action σ α} {good : α → σ → Prop} {bad : Failure → σ → Prop}

/-- A walk in one open directory, entries as the platform gives them. -/
def single (handle : η) : Walk η := ⟨{}, [handle], [], none⟩

theorem ends_current (view : Reading σ η) :
    (Walk.current : Walking σ η (Walk η)).Ends (s, walk) (fun w sw => w = walk ∧ sw = (s, walk)) fun _ sw =>
      view.Still s sw.1 :=
  ⟨rfl, rfl⟩

theorem ends_lift (h : a.Ends s good bad) :
    (Walk.lift a).Ends (s, walk) (fun x sw => good x sw.1 ∧ sw.2 = walk) fun e sw => bad e sw.1 := by
  have hrun : (Walk.lift a).apply (s, walk) = ((a.apply s).1, ((a.apply s).2, walk)) := rfl
  unfold Ends at h ⊢
  rw [hrun]
  split at h
  case h_1 he => rw [he]; exact ⟨h, rfl⟩
  case h_2 he => rw [he]; exact h

theorem ends_closeAll (h : Falters platform view) (handles : List η) (s : σ) :
    (Walk.closeAll platform handles).Ends s (fun _ => view.Still s) fun _ => view.Still s := by
  induction handles generalizing s with
  | nil => exact Ends.pure (.refl s)
  | cons handle outer ih =>
    refine Ends.bind_outcome (h.closedir s handle) (fun _ s' hs => ?_) fun _ s' hs => ?_
    · refine Ends.bind_outcome (ih s') (fun _ _ hs' => ?_) fun _ _ hs' => ?_
      · exact Ends.pure (hs.trans hs')
      · exact Ends.throw (hs.trans hs')
    · refine Ends.bind_outcome (ih s') (fun _ _ hs' => ?_) fun _ _ hs' => ?_
      · exact Ends.throw (hs.trans hs')
      · exact Ends.throw (hs.trans hs')

theorem ends_close (h : Falters platform view) :
    (Walk.close platform).Ends (s, walk) (fun _ sw => view.Still s sw.1) fun _ sw => view.Still s sw.1 := by
  have hclose : (Walk.lift (Walk.closeAll platform walk.handles)).Ends
      (s, ({ walk with handles := [] } : Walk η)) (fun _ sw => view.Still s sw.1)
      fun _ sw => view.Still s sw.1 :=
    (ends_lift (ends_closeAll h walk.handles s)).mono (fun _ _ h => h.1) fun _ _ h => h
  exact hclose

/-! ## One entry -/

/-- What a walk in one directory gives next. -/
def Gives (view : Reading σ η) (s : σ) (handle : η) (next? : Option Entry) (sw : σ × Walk η) : Prop :=
  view.Still s sw.1 ∧
    match next? with
    | none => (view.stream handle).ahead = []
    | some entry => ∃ rest name, sw.2 = single rest ∧
        (view.stream rest).path = (view.stream handle).path ∧
        (view.stream handle).ahead = name :: (view.stream rest).ahead ∧
        (view.volume s).stat false ((view.stream handle).path.join name) = .ok entry

theorem ends_advance_nil (steps : Nat) :
    (Walk.advance platform steps).Ends (s, ⟨{}, [], [], none⟩)
      (fun next? sw => next? = none ∧ sw.1 = s) fun _ sw => sw.1 = s := by
  cases steps with
  | zero => rfl
  | succ steps =>
    rw [Walk.advance]
    exact ⟨rfl, rfl⟩

theorem ends_advance (h : Falters platform view) (steps : Nat) :
    (Walk.advance platform steps).Ends (s, single handle) (Gives view s handle)
      fun _ sw => view.Still s sw.1 := by
  cases steps with
  | zero => exact Ends.throw (.refl s)
  | succ steps =>
    rw [Walk.advance]
    refine Ends.bind (ends_current view) ?_
    rintro _ _ ⟨rfl, rfl⟩
    refine Ends.bind (ends_lift (h.readdir s handle)) ?_
    rintro next? ⟨s', _⟩ ⟨⟨hs, hnext⟩, rfl⟩
    match next? with
    | none =>
      have hset : (Walk.setHandles []).Ends (s', single handle)
          (fun _ sw => sw = (s', (⟨{}, [], [], none⟩ : Walk η))) fun _ sw => view.Still s sw.1 := rfl
      refine hset.bind ?_
      rintro _ _ rfl
      refine Ends.andThen (ends_lift (h.closedir s' handle)) (fun _ _ h => hs.trans h) ?_
      rintro _ ⟨s'', _⟩ ⟨hs', rfl⟩
      refine (ends_advance_nil steps).mono (fun next? sw hend => ?_) fun _ sw hend => ?_
      · obtain ⟨rfl, rfl⟩ := hend
        exact ⟨hs.trans hs', hnext⟩
      · exact hend ▸ hs.trans hs'
    | some (entry, rest) =>
      obtain ⟨hpath, name, hahead, hstat⟩ := hnext
      have hgives : Gives view s handle (some entry) (s', single rest) :=
        ⟨hs, rest, name, rfl, hpath, hahead, hstat⟩
      exact hgives

theorem ends_next (h : Falters platform view) :
    (Walk.next platform).Ends (s, single handle) (Gives view s handle) fun _ sw => view.Still s sw.1 := by
  refine Ends.bind (ends_current view) ?_
  rintro _ _ ⟨rfl, rfl⟩
  have hadvance : (Walk.nextUnsorted platform).Ends (s, single handle) (Gives view s handle)
      fun _ sw => view.Still s sw.1 :=
    Ends.of (ends_advance h (Walk.steps platform s))
  refine hadvance.bind_outcome (fun next? sw hr => Ends.pure hr) fun e sw hr => ?_
  have hclose : (Walk.close platform).Ends sw (fun _ sw' => view.Still s sw'.1) fun _ sw' => view.Still s sw'.1 :=
    (ends_close h).mono (fun _ _ hend => hr.trans hend) fun _ _ hend => hr.trans hend
  have hignore : (Walk.close platform).ignore.Ends sw (fun _ sw' => view.Still s sw'.1)
      fun _ sw' => view.Still s sw'.1 :=
    hclose.bind_outcome (fun _ _ hend => Ends.pure hend) fun _ _ hend => Ends.pure hend
  exact hignore.bind fun _ _ hend => Ends.throw hend

/-! ## All entries -/

theorem ends_drain (h : Falters platform view) (n : Nat) :
    (Walk.drain (Walk.next platform) n).Ends (s, single handle)
      (fun entries sw => view.Still s sw.1 ∧
        List.Forall₂ (fun entry name =>
          (view.volume s).stat false ((view.stream handle).path.join name) = .ok entry)
          entries (view.stream handle).ahead)
      fun _ sw => view.Still s sw.1 := by
  induction n generalizing s handle with
  | zero => exact Ends.throw (.refl s)
  | succ n ih =>
    refine (ends_next h).bind fun next? sw hgives => ?_
    obtain ⟨hs, hgives⟩ := hgives
    match next? with
    | none =>
      refine Ends.pure ⟨hs, ?_⟩
      rw [hgives]
      exact .nil
    | some entry =>
      obtain ⟨s', _⟩ := sw
      obtain ⟨rest, name, rfl, hpath, hahead, hstat⟩ := hgives
      refine Ends.andThen ih (fun _ _ h => hs.trans h) ?_
      refine fun entries sw hall => Ends.pure ⟨hs.trans hall.1, ?_⟩
      rw [hahead]
      rw [hs.1, hpath] at hall
      exact .cons hstat hall.2

theorem ends_finish {after : α → Prop} (h : Falters platform view) {body : Walking σ η α}
    (hb : body.Ends (s, walk) (fun x sw => view.Still s sw.1 ∧ after x) fun _ sw => view.Still s sw.1) :
    (Walk.finish platform walk body).Ends s (fun x s' => view.Still s s' ∧ after x)
      fun _ s' => view.Still s s' := by
  have hrun : (Walk.finish platform walk body).apply s =
      ((body.apply (s, walk)).1, ((Walk.closeAll platform (body.apply (s, walk)).2.2.handles).apply
        (body.apply (s, walk)).2.1).2) := rfl
  unfold Ends at hb ⊢
  rw [hrun]
  split at hb
  case h_1 sw he =>
    rw [he]
    exact ⟨hb.1.trans (ends_closeAll h sw.2.handles sw.1).always, hb.2⟩
  case h_2 sw he =>
    rw [he]
    exact hb.trans (ends_closeAll h sw.2.handles sw.1).always

theorem ends_children_list (h : Falters platform view) (s : σ) (p : Path) :
    (children platform p).Ends s
      (fun entries s' => view.Still s s' ∧ ∃ names, (view.volume s).list p = .ok names ∧
        List.Forall₂ (fun entry name => (view.volume s).stat false (p.join name) = .ok entry) entries names)
      fun _ => view.Still s := by
  have hstart : (Walk.start platform {} p).Ends s (fun walk s' => view.Still s s' ∧
      ∃ handle, walk = single handle ∧ (view.stream handle).path = p ∧
        (view.volume s).list p = .ok (view.stream handle).ahead) fun _ => view.Still s :=
    (h.opendir s p).bind fun handle s' hopen => Ends.pure ⟨hopen.1, handle, rfl, hopen.2⟩
  refine hstart.bind ?_
  rintro _ s' ⟨hs, handle, rfl, hpath, hlist⟩
  have hdrain : (Walk.all platform (Walk.next platform)).Ends (s', single handle)
      (fun entries sw => view.Still s' sw.1 ∧ List.Forall₂ (fun entry name =>
        (view.volume s').stat false ((view.stream handle).path.join name) = .ok entry)
          entries (view.stream handle).ahead)
      fun _ sw => view.Still s' sw.1 := ends_drain h _
  refine (ends_finish h hdrain).mono (fun entries s'' hend => ?_) fun _ _ hs' => hs.trans hs'
  rw [hs.1, hpath] at hend
  exact ⟨hs.trans hend.1, _, hlist, hend.2⟩

/-! ## Children by their places -/

/-- An entry is that of a name in a directory, under a path of the directory. -/
structure IsChild (v : Volume) (p : Path) (directory : Place) (entry : Entry) (name : Name) : Prop where
  path : entry.path = p.join name
  plain : Path.IsPlain name
  object : ∃ object, v.object? (directory ++ [name]) = some object ∧ entry.type = object.content.type

theorem isDirectory_of_type {entry : Entry} {object : Object} (h : entry.type = object.content.type) :
    entry.isDirectory ↔ object.content = .directory := by
  rw [Entry.isDirectory, h]
  cases object.content <;> simp [Content.type]

namespace IsChild

variable {v : Volume} {directory : Place} {entry : Entry} {name : Name}

theorem childOf (h : IsChild v p directory entry name) (target : Path) :
    childOf target entry = target.join name := by
  rw [Directory.childOf, h.path, Path.fileName?_join h.plain, Option.getD_some]

theorem fileName? (h : IsChild v p directory entry name) : entry.path.fileName? = some name := by
  rw [h.path, Path.fileName?_join h.plain]

theorem isDirectory_iff (h : IsChild v p directory entry name) :
    entry.isDirectory ↔ v.isDirectory (directory ++ [name]) := by
  obtain ⟨object, ho, ht⟩ := h.object
  rw [isDirectory_of_type ht, Volume.isDirectory, ho, Option.any_some, beq_iff_eq]

end IsChild

/-- If no call fails, the children of a directory are the entries of the names in it. -/
theorem ends_children (h : Falters platform view) (hs : (view.volume s).Sound) :
    (children platform p).Ends s
      (fun entries s' => view.Still s s' ∧ ∃ directory, (view.volume s).reach true p = .ok directory ∧
        (view.volume s).isDirectory directory ∧
        List.Forall₂ (IsChild (view.volume s) p directory) entries ((view.volume s).names directory))
      fun _ => view.Still s := by
  refine (ends_children_list h s p).mono (fun entries s' hend => ⟨hend.1, ?_⟩) fun _ _ hend => hend
  obtain ⟨-, names, hlist, hall⟩ := hend
  obtain ⟨directory, hreach, hdir, rfl⟩ := Volume.list_eq_ok hlist
  refine ⟨directory, hreach, hdir, ?_⟩
  have hplain : ∀ name ∈ (view.volume s).names directory, Path.IsPlain name :=
    fun name hn => hs.plain (Volume.mem_names.mp hn)
  have hchild : ∀ {entry name}, Path.IsPlain name →
      (view.volume s).stat false (p.join name) = .ok entry →
      IsChild (view.volume s) p directory entry name := by
    intro entry name hn hstat
    obtain ⟨place, object, hr, ho, rfl⟩ := Volume.stat_eq_ok.mp hstat
    have hstands := Option.isSome_iff_ne_none.mp (Volume.isSome_number?_of_isDirectory hdir)
    obtain rfl := (Volume.leads_of_reach hs hr).unique
      ((Volume.leads_of_reach hs hreach).join (fun _ h => h) hstands
        (Volume.passable_of_isDirectory hdir) hn fun hf => absurd hf Bool.false_ne_true)
    exact ⟨rfl, hn, object, ho, rfl⟩
  generalize (view.volume s).names directory = names at hall hplain
  induction hall with
  | nil => exact .nil
  | cons hstat _ ih =>
    obtain ⟨hn, hrest⟩ := List.forall_mem_cons.mp hplain
    exact .cons (hchild hn hstat) (ih hrest)

end Bytework.Directory
