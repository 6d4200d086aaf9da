import Bytework.Directory.Query
import Bytework.Proofs.Directory.Alike

/-!
# Walks on two platforms

A walk meets its platform in five calls. If the calls of two platforms answer alike, and each of them
keeps what ties the states and the open directories of the two together, then walks do the same. That
what is tied speaks of the open directories says what becomes of each of them.

* `Custody`: the calls keep a tie; `Walk.Tied`: two walks under way that are tied.
* `alike_advance`, `alike_next`, `alike_close`: the steps of a walk.
* `alike_start`, `alike_finish`, **`alike_within`**: no open directory is left in the end, unless the
  start is `Walk.Stranded`.
-/

namespace Bytework

open Bytework.Action

variable {σ τ η θ α : Type} {P : Platform σ η} {Q : Platform τ θ} {tied : σ → List η → τ → List θ → Prop}

/-- The calls of two platforms answer alike and keep what ties states and open directories, the
innermost one first. -/
structure Custody (P : Platform σ η) (Q : Platform τ θ) (tied : σ → List η → τ → List θ → Prop) : Prop where
  length : ∀ {s held t held'}, tied s held t held' → held.length = held'.length
  extent : ∀ {s held t held'}, tied s held t held' → P.extent s = Q.extent t
  stat : ∀ {s held t held'} (p : Path), tied s held t held' → (P.stat p).Alike s (Q.stat p) t
    (fun x y s' t' => x = y ∧ tied s' held t' held') fun s' t' => tied s' held t' held'
  realpath : ∀ {s held t held'} (p : Path), tied s held t held' → (P.realpath p).Alike s (Q.realpath p) t
    (fun x y s' t' => x = y ∧ tied s' held t' held') fun s' t' => tied s' held t' held'
  opendir : ∀ {s held t held'} (p : Path), tied s held t held' → (P.opendir p).Alike s (Q.opendir p) t
    (fun h h' s' t' => tied s' (h :: held) t' (h' :: held')) fun s' t' => tied s' held t' held'
  readdir : ∀ {s h held t h' held'}, tied s (h :: held) t (h' :: held') →
    (P.readdir h).Alike s (Q.readdir h') t
      (fun x y s' t' => match x, y with
        | none, none => tied s' (h :: held) t' (h' :: held')
        | some (entry, k), some (entry', k') => entry = entry' ∧ tied s' (k :: held) t' (k' :: held')
        | _, _ => False)
      fun s' t' => tied s' (h :: held) t' (h' :: held')
  closedir : ∀ {s h held t h' held'}, tied s (h :: held) t (h' :: held') →
    (P.closedir h).Alike s (Q.closedir h') t (fun _ _ s' t' => tied s' held t' held')
      fun s' t' => tied s' held t' held'

namespace Walk

/-- Two walks under way that differ in their open directories only, and those are tied. -/
structure Tied (tied : σ → List η → τ → List θ → Prop) (sw : σ × Walk η) (tw : τ × Walk θ) : Prop where
  options : sw.2.options = tw.2.options
  visited : sw.2.visited = tw.2.visited
  sorted : sw.2.sorted? = tw.2.sorted?
  handles : tied sw.1 sw.2.handles tw.1 tw.2.handles

/-- A directory was opened for a walk, and finding out its real path failed. -/
def Stranded (platform : Platform σ η) (options : WalkOptions) (p : Path) (s : σ) : Prop :=
  options.followSymlinks = true ∧ ∃ handle s₁ e s₂,
    (platform.opendir p).apply s = (.ok handle, s₁) ∧ (platform.realpath p).apply s₁ = (.error e, s₂)

end Walk

namespace Walk

variable {options : WalkOptions} {entry : Entry}

/-! ## Which entries are entered -/

theorem enters_of_flat (hr : ¬ options.recursive) : enters P options entry = pure false := by
  unfold enters
  exact if_pos (by simpa using hr)

theorem enters_of_stay (hr : options.recursive) (hf : ¬ options.followSymlinks) :
    enters P options entry = pure entry.isDirectory := by
  unfold enters
  rw [if_neg (by simp [hr]), if_pos (by simpa using hf)]

theorem enters_of_follow (hr : options.recursive) (hf : options.followSymlinks) :
    enters P options entry =
      (if entry.isSymlink then lift ((P.stat entry.path).succeeds Entry.isDirectory)
        else pure entry.isDirectory) >>=
        fun leads => if !leads then pure false else lift (P.realpath entry.path) >>= visit := by
  unfold enters
  rw [if_neg (by simp [hr]), if_neg (by simp [hf])]
  cases entry.isSymlink <;> rfl

end Walk

namespace Custody

variable {s : σ} {t : τ} {w : Walk η} {w' : Walk θ}

/-- Two walks are left tied, with one result. -/
abbrev Same (tied : σ → List η → τ → List θ → Prop) (x y : α) (sw : σ × Walk η) (tw : τ × Walk θ) : Prop :=
  x = y ∧ Walk.Tied tied sw tw

/-- Two walks are left tied with the open directories they had, with one result. -/
abbrev Steady (tied : σ → List η → τ → List θ → Prop) (w : Walk η) (w' : Walk θ) (x y : α)
    (sw : σ × Walk η) (tw : τ × Walk θ) : Prop :=
  x = y ∧ Walk.Tied tied sw tw ∧ sw.2.handles = w.handles ∧ tw.2.handles = w'.handles

theorem alike_lift {β : Type} {a : Action σ α} {b : Action τ β} {good : α → β → σ → τ → Prop}
    {bad : σ → τ → Prop} (h : a.Alike s b t good bad) :
    (Walk.lift a).Alike (s, w) (Walk.lift b) (t, w')
      (fun x y sw tw => good x y sw.1 tw.1 ∧ w = sw.2 ∧ w' = tw.2)
      fun sw tw => bad sw.1 tw.1 ∧ w = sw.2 ∧ w' = tw.2 := by
  have hrun : (Walk.lift a).apply (s, w) = ((a.apply s).1, ((a.apply s).2, w)) := rfl
  have hrun' : (Walk.lift b).apply (t, w') = ((b.apply t).1, ((b.apply t).2, w')) := rfl
  obtain ⟨x, y, s', t', ha, hb, h⟩ | ⟨e, s', t', ha, hb, h⟩ := h.cases
  · rw [ha] at hrun
    rw [hb] at hrun'
    exact .of_ok hrun hrun' ⟨h, rfl, rfl⟩
  · rw [ha] at hrun
    rw [hb] at hrun'
    exact .of_error hrun hrun' ⟨h, rfl, rfl⟩

theorem alike_lift_same {a : Action σ α} {b : Action τ α} (hw : Walk.Tied tied (s, w) (t, w'))
    (h : a.Alike s b t (fun x y s' t' => x = y ∧ tied s' w.handles t' w'.handles)
      fun s' t' => tied s' w.handles t' w'.handles) :
    (Walk.lift a).Alike (s, w) (Walk.lift b) (t, w') (Steady tied w w') (Walk.Tied tied) := by
  refine (alike_lift h).mono ?_ ?_
  · rintro x y ⟨s', _⟩ ⟨t', _⟩ ⟨⟨hxy, hend⟩, rfl, rfl⟩
    exact ⟨hxy, ⟨hw.options, hw.visited, hw.sorted, hend⟩, rfl, rfl⟩
  · rintro ⟨s', _⟩ ⟨t', _⟩ ⟨hend, rfl, rfl⟩
    exact ⟨hw.options, hw.visited, hw.sorted, hend⟩

/-! ## Steps of a walk -/

theorem alike_visit (real : Path) (hw : Walk.Tied tied (s, w) (t, w')) :
    (Walk.visit real).Alike (s, w) (Walk.visit real) (t, w') (Steady tied w w') (Walk.Tied tied) := by
  have hvisited : w.visited = w'.visited := hw.visited
  by_cases hin : w.visited.contains real
  · have hin' : w'.visited.contains real := hvisited ▸ hin
    exact .of_ok (if_pos hin) (if_pos hin') ⟨rfl, hw, rfl, rfl⟩
  · have hin' : ¬ w'.visited.contains real := hvisited ▸ hin
    exact .of_ok (if_neg hin) (if_neg hin')
      ⟨rfl, ⟨hw.options, congrArg (real :: ·) hvisited, hw.sorted, hw.handles⟩, rfl, rfl⟩

theorem alike_enters (h : Custody P Q tied) (options : WalkOptions) (entry : Entry)
    (hw : Walk.Tied tied (s, w) (t, w')) :
    (Walk.enters P options entry).Alike (s, w) (Walk.enters Q options entry) (t, w') (Steady tied w w')
      (Walk.Tied tied) := by
  by_cases hr : options.recursive
  case neg =>
    rw [Walk.enters_of_flat hr, Walk.enters_of_flat hr]
    exact Alike.pure ⟨rfl, hw, rfl, rfl⟩
  by_cases hf : options.followSymlinks
  case neg =>
    rw [Walk.enters_of_stay hr hf, Walk.enters_of_stay hr hf]
    exact Alike.pure ⟨rfl, hw, rfl, rfl⟩
  rw [Walk.enters_of_follow hr hf, Walk.enters_of_follow hr hf]
  have hleads : Alike (if entry.isSymlink then Walk.lift ((P.stat entry.path).succeeds Entry.isDirectory)
      else pure entry.isDirectory) (s, w) (if entry.isSymlink then
        Walk.lift ((Q.stat entry.path).succeeds Entry.isDirectory) else pure entry.isDirectory) (t, w')
      (Steady tied w w') (Walk.Tied tied) := by
    split
    · refine alike_lift_same hw (Alike.bind (h.stat entry.path hw.handles).outcome ?_)
      rintro r _ s' t' ⟨rfl, hend⟩
      cases r with
      | ok x => exact Alike.pure ⟨rfl, hend⟩
      | error e => exact Alike.pure ⟨rfl, hend⟩
    · exact Alike.pure ⟨rfl, hw, rfl, rfl⟩
  refine hleads.bind ?_
  rintro leads _ ⟨s', v⟩ ⟨t', v'⟩ ⟨rfl, hw', hv, hv'⟩
  cases leads with
  | false => exact Alike.pure ⟨rfl, hw', hv, hv'⟩
  | true =>
    refine Alike.bind (alike_lift_same hw' (h.realpath entry.path hw'.handles)) ?_
    rintro real _ ⟨s'', u⟩ ⟨t'', u'⟩ ⟨rfl, hw'', hu, hu'⟩
    refine (alike_visit real hw'').mono ?_ fun _ _ hend => hend
    rintro x y sw tw ⟨hxy, hend, hheld, hheld'⟩
    exact ⟨hxy, hend, hheld.trans (hu.trans hv), hheld'.trans (hu'.trans hv')⟩

theorem tied_handles {s' : σ} {t' : τ} {held : List η} {held' : List θ} (hw : Walk.Tied tied (s, w) (t, w'))
    (hend : tied s' held t' held') :
    Walk.Tied tied (s', { w with handles := held }) (t', { w' with handles := held' }) :=
  ⟨hw.options, hw.visited, hw.sorted, hend⟩

/-- Leaving a directory, and what comes then. -/
theorem alike_left (h : Custody P Q tied) {handle : η} {handle' : θ} {outer : List η} {outer' : List θ}
    {f : Walking σ η α} {g : Walking τ θ α} (hw : Walk.Tied tied (s, w) (t, w'))
    (hw₁ : w.handles = handle :: outer) (hw₂ : w'.handles = handle' :: outer')
    (hf : ∀ sw tw, Walk.Tied tied sw tw → f.Alike sw g tw (Same tied) (Walk.Tied tied)) :
    (Walk.setHandles outer >>= fun _ => Walk.lift (P.closedir handle) >>= fun _ => f).Alike (s, w)
      (Walk.setHandles outer' >>= fun _ => Walk.lift (Q.closedir handle') >>= fun _ => g) (t, w')
      (Same tied) (Walk.Tied tied) := by
  refine Alike.step rfl rfl ?_
  have hheld : tied s (handle :: outer) t (handle' :: outer') := by simpa [hw₁, hw₂] using hw.handles
  refine Alike.andThen (alike_lift (h.closedir hheld)) ?_ ?_
  · rintro ⟨s', _⟩ ⟨t', _⟩ ⟨hend, rfl, rfl⟩
    exact tied_handles hw hend
  · rintro _ _ ⟨s', _⟩ ⟨t', _⟩ ⟨hend, rfl, rfl⟩
    exact hf _ _ (tied_handles hw hend)

/-- Entering a directory, and what comes then. -/
theorem alike_entered (h : Custody P Q tied) (p : Path) {held : List η} {held' : List θ}
    {f : Walking σ η α} {g : Walking τ θ α} (hw : Walk.Tied tied (s, w) (t, w'))
    (hw₁ : w.handles = held) (hw₂ : w'.handles = held')
    (hf : ∀ sw tw, Walk.Tied tied sw tw → f.Alike sw g tw (Same tied) (Walk.Tied tied)) :
    (Walk.lift (P.opendir p) >>= fun i => Walk.setHandles (i :: held) >>= fun _ => f).Alike (s, w)
      (Walk.lift (Q.opendir p) >>= fun i => Walk.setHandles (i :: held') >>= fun _ => g) (t, w')
      (Same tied) (Walk.Tied tied) := by
  subst hw₁ hw₂
  refine Alike.andThen (alike_lift (h.opendir p hw.handles)) ?_ ?_
  · rintro ⟨s', _⟩ ⟨t', _⟩ ⟨hend, rfl, rfl⟩
    exact tied_handles hw hend
  · rintro i i' ⟨s', _⟩ ⟨t', _⟩ ⟨hend, rfl, rfl⟩
    refine Alike.step rfl rfl ?_
    exact hf _ _ (tied_handles hw hend)

theorem alike_advance (h : Custody P Q tied) (steps : Nat) (hw : Walk.Tied tied (s, w) (t, w')) :
    (Walk.advance P steps).Alike (s, w) (Walk.advance Q steps) (t, w') (Same tied) (Walk.Tied tied) := by
  induction steps generalizing s t w w' with
  | zero => exact Alike.throw hw
  | succ steps ih =>
    rw [Walk.advance, Walk.advance]
    refine Alike.step rfl rfl ?_
    match hw₁ : w.handles, hw₂ : w'.handles, h.length hw.handles with
    | [], [], _ => exact Alike.pure ⟨rfl, hw⟩
    | handle :: outer, handle' :: outer', _ =>
      have hheld : tied s (handle :: outer) t (handle' :: outer') := by simpa [hw₁, hw₂] using hw.handles
      refine Alike.andThen (alike_lift (h.readdir hheld)) ?_ ?_
      · rintro ⟨s', _⟩ ⟨t', _⟩ ⟨hend, rfl, rfl⟩
        exact ⟨hw.options, hw.visited, hw.sorted, by rwa [hw₁, hw₂]⟩
      rintro next next' ⟨s', _⟩ ⟨t', _⟩ ⟨hnext, rfl, rfl⟩
      match next, next', hnext with
      | none, none, hend =>
        have hw' : Walk.Tied tied (s', w) (t', w') :=
          ⟨hw.options, hw.visited, hw.sorted, by rwa [hw₁, hw₂]⟩
        exact alike_left h hw' hw₁ hw₂ fun _ _ => ih
      | some (entry, k), some (_, k'), ⟨rfl, hend⟩ =>
        refine Alike.step rfl rfl ?_
        have hw' : Walk.Tied tied (s', { w with handles := k :: outer })
            (t', { w' with options := w.options, handles := k' :: outer' }) :=
          ⟨rfl, hw.visited, hw.sorted, hend⟩
        have hgive : ∀ sw tw, Walk.Tied tied sw tw →
            Alike (if w.options.gives entry then pure (some entry) else Walk.advance P steps) sw
              (if w.options.gives entry then pure (some entry) else Walk.advance Q steps) tw
              (Same tied) (Walk.Tied tied) := by
          intro sw tw hv
          split
          · exact Alike.pure ⟨rfl, hv⟩
          · exact ih hv
        rw [← hw.options]
        by_cases hx : w.options.excludes entry
        case pos =>
          rw [if_pos hx, if_pos hx]
          exact ih hw'
        rw [if_neg hx, if_neg hx]
        refine Alike.bind (alike_enters h w.options entry hw') ?_
        rintro inner _ sw tw ⟨rfl, hv, hv₁, hv₂⟩
        cases inner with
        | false => exact hgive sw tw hv
        | true => exact alike_entered h entry.path hv hv₁ hv₂ hgive

theorem alike_nextUnsorted (h : Custody P Q tied) (hw : Walk.Tied tied (s, w) (t, w')) :
    (Walk.nextUnsorted P).Alike (s, w) (Walk.nextUnsorted Q) (t, w') (Same tied) (Walk.Tied tied) := by
  have hsteps : Walk.steps P s = Walk.steps Q t := by rw [Walk.steps, Walk.steps, h.extent hw.handles]
  have hadvance := alike_advance h (Walk.steps P s) hw
  exact Alike.of (f := fun sw => Walk.advance P (Walk.steps P sw.1))
    (g := fun tw => Walk.advance Q (Walk.steps Q tw.1)) (hsteps ▸ hadvance)

/-! ## Giving directories back -/

theorem alike_closeAll (h : Custody P Q tied) {held : List η} {held' : List θ} (hheld : tied s held t held') :
    (Walk.closeAll P held).Alike s (Walk.closeAll Q held') t (fun x y s' t' => x = y ∧ tied s' [] t' [])
      fun s' t' => tied s' [] t' [] := by
  induction held generalizing s t held' with
  | nil =>
    obtain rfl := List.length_eq_zero_iff.mp (h.length hheld).symm
    exact Alike.pure ⟨rfl, hheld⟩
  | cons handle outer ih =>
    obtain ⟨handle', outer', rfl⟩ := List.exists_cons_of_length_eq_add_one (h.length hheld).symm
    have hclose : (P.closedir handle).Alike s (Q.closedir handle') t
        (fun x y s' t' => x = y ∧ tied s' outer t' outer') fun s' t' => tied s' outer t' outer' :=
      (h.closedir hheld).mono (fun _ _ _ _ hend => ⟨rfl, hend⟩) fun _ _ hend => hend
    refine Alike.bind hclose.outcome ?_
    rintro first _ s₁ t₁ ⟨rfl, hend⟩
    refine Alike.bind (ih hend).outcome ?_
    rintro others _ s₂ t₂ ⟨rfl, hend'⟩
    match first, others with
    | .ok (), .ok () => exact Alike.pure ⟨rfl, hend'⟩
    | .ok (), .error e => exact Alike.throw hend'
    | .error e, _ => exact Alike.throw hend'

theorem alike_close (h : Custody P Q tied) (hw : Walk.Tied tied (s, w) (t, w')) :
    (Walk.close P).Alike (s, w) (Walk.close Q) (t, w') (Same tied) (Walk.Tied tied) := by
  refine Alike.step rfl rfl ?_
  refine Alike.step rfl rfl ?_
  refine (alike_lift (alike_closeAll h hw.handles)).mono ?_ ?_
  · rintro x y ⟨s', _⟩ ⟨t', _⟩ ⟨⟨hxy, hend⟩, rfl, rfl⟩
    exact ⟨hxy, tied_handles hw hend⟩
  · rintro ⟨s', _⟩ ⟨t', _⟩ ⟨hend, rfl, rfl⟩
    exact tied_handles hw hend

/-! ## Whole walks -/

theorem alike_next (h : Custody P Q tied) (hw : Walk.Tied tied (s, w) (t, w')) :
    (Walk.next P).Alike (s, w) (Walk.next Q) (t, w') (Same tied) (Walk.Tied tied) := by
  refine Alike.step rfl rfl ?_
  have hsorted : w.sorted? = w'.sorted? := hw.sorted
  rw [← hsorted]
  match hw₁ : w.sorted? with
  | some [] => exact Alike.pure ⟨rfl, hw⟩
  | some (entry :: entries) =>
    refine Alike.step rfl rfl ?_
    exact Alike.pure ⟨rfl, hw.options, hw.visited, rfl, hw.handles⟩
  | none =>
    refine Alike.bind (alike_nextUnsorted h hw).outcome ?_
    rintro r _ ⟨s', v⟩ ⟨t', v'⟩ ⟨rfl, hv⟩
    match r with
    | .ok entry? => exact Alike.pure ⟨rfl, hv⟩
    | .error e =>
      have hignore : (Walk.close P).ignore.Alike (s', v) (Walk.close Q).ignore (t', v')
          (fun _ _ => Walk.Tied tied) (Walk.Tied tied) :=
        Alike.bind (alike_close h hv).outcome fun _ _ _ _ hend => Alike.pure hend.2
      exact hignore.bind fun _ _ _ _ hend => Alike.throw hend

theorem alike_drain {a : Walking σ η (Option Entry)} {b : Walking τ θ (Option Entry)}
    (ha : ∀ sw tw, Walk.Tied tied sw tw → a.Alike sw b tw (Same tied) (Walk.Tied tied)) (n : Nat)
    (hw : Walk.Tied tied (s, w) (t, w')) :
    (Walk.drain a n).Alike (s, w) (Walk.drain b n) (t, w') (Same tied) (Walk.Tied tied) := by
  induction n generalizing s t w w' with
  | zero => exact Alike.throw hw
  | succ n ih =>
    refine Alike.bind (ha _ _ hw) ?_
    rintro next _ sw tw ⟨rfl, hv⟩
    match next with
    | none => exact Alike.pure ⟨rfl, hv⟩
    | some entry =>
      refine Alike.bind (ih hv) ?_
      rintro entries _ sw' tw' ⟨rfl, hv'⟩
      exact Alike.pure ⟨rfl, hv'⟩

theorem alike_all (h : Custody P Q tied) {a : Walking σ η (Option Entry)} {b : Walking τ θ (Option Entry)}
    (ha : ∀ sw tw, Walk.Tied tied sw tw → a.Alike sw b tw (Same tied) (Walk.Tied tied))
    (hw : Walk.Tied tied (s, w) (t, w')) :
    (Walk.all P a).Alike (s, w) (Walk.all Q b) (t, w') (Same tied) (Walk.Tied tied) := by
  have hdrain := alike_drain ha (P.extent s + 1) hw
  exact Alike.of (f := fun sw => Walk.drain a (P.extent sw.1 + 1))
    (g := fun tw => Walk.drain b (Q.extent tw.1 + 1)) (h.extent hw.handles ▸ hdrain)

/-- However a computation on a walk ends, no open directory of the walk is left. -/
theorem alike_finish (h : Custody P Q tied) {a : Walking σ η α} {b : Walking τ θ α}
    (hab : a.Alike (s, w) b (t, w') (Same tied) (Walk.Tied tied)) :
    (Walk.finish P w a).Alike s (Walk.finish Q w' b) t (fun x y s' t' => x = y ∧ tied s' [] t' [])
      fun s' t' => tied s' [] t' [] := by
  have hrun : (Walk.finish P w a).apply s = ((a.apply (s, w)).1,
      ((Walk.closeAll P (a.apply (s, w)).2.2.handles).apply (a.apply (s, w)).2.1).2) := rfl
  have hrun' : (Walk.finish Q w' b).apply t = ((b.apply (t, w')).1,
      ((Walk.closeAll Q (b.apply (t, w')).2.2.handles).apply (b.apply (t, w')).2.1).2) := rfl
  have hclosed : ∀ sw tw, Walk.Tied tied sw tw → tied ((Walk.closeAll P sw.2.handles).apply sw.1).2 []
      ((Walk.closeAll Q tw.2.handles).apply tw.1).2 [] := by
    intro sw tw hv
    obtain ⟨_, _, s', t', ha, hb, -, hend⟩ | ⟨_, s', t', ha, hb, hend⟩ := (alike_closeAll h hv.handles).cases
    · rwa [ha, hb]
    · rwa [ha, hb]
  obtain ⟨x, y, sw, tw, ha, hb, hxy, hend⟩ | ⟨e, sw, tw, ha, hb, hend⟩ := hab.cases
  · rw [ha] at hrun
    rw [hb] at hrun'
    exact .of_ok hrun hrun' ⟨hxy, hclosed sw tw hend⟩
  · rw [ha] at hrun
    rw [hb] at hrun'
    exact .of_error hrun hrun' (hclosed sw tw hend)

/-- A start that fails leaves nothing open, unless it strands. -/
theorem alike_start (h : Custody P Q tied) (options : WalkOptions) (p : Path)
    (hs : ¬ Walk.Stranded P options p s) (ht : tied s [] t []) :
    (Walk.start P options p).Alike s (Walk.start Q options p) t
      (fun w w' s' t' => Walk.Tied tied (s', w) (t', w')) fun s' t' => tied s' [] t' [] := by
  refine Alike.andThen (h.opendir p ht).attest (fun _ _ hend => hend.1) ?_
  rintro handle handle' s₁ t₁ ⟨hheld, hopen⟩
  have hrest : ∀ visited s' t', tied s' [handle] t' [handle'] →
      Alike (if options.sort = .none then pure ⟨options, [handle], visited, none⟩ else do
          let entries ← Walk.finish P ⟨options, [handle], visited, none⟩ (Walk.all P (Walk.nextUnsorted P))
          return ⟨options, [], visited, some (Entry.sorted entries options.sort)⟩) s'
        (if options.sort = .none then pure ⟨options, [handle'], visited, none⟩ else do
          let entries ← Walk.finish Q ⟨options, [handle'], visited, none⟩ (Walk.all Q (Walk.nextUnsorted Q))
          return ⟨options, [], visited, some (Entry.sorted entries options.sort)⟩) t'
        (fun w w' s' t' => Walk.Tied tied (s', w) (t', w')) fun s' t' => tied s' [] t' [] := by
    intro visited s' t' hheld'
    split
    · exact Alike.pure ⟨rfl, rfl, rfl, hheld'⟩
    · have hw : Walk.Tied tied (s', (⟨options, [handle], visited, none⟩ : Walk η))
          (t', (⟨options, [handle'], visited, none⟩ : Walk θ)) := ⟨rfl, rfl, rfl, hheld'⟩
      have hall := alike_all h (fun _ _ => alike_nextUnsorted h) hw
      refine Alike.bind (alike_finish h hall) ?_
      rintro entries _ s'' t'' ⟨rfl, hend⟩
      exact Alike.pure ⟨rfl, rfl, rfl, hend⟩
  by_cases hf : options.followSymlinks
  case neg =>
    rw [if_neg hf, if_neg hf]
    exact hrest [] s₁ t₁ hheld
  rw [if_pos hf, if_pos hf]
  have hreal : Alike ((fun real => [real]) <$> P.realpath p) s₁ ((fun real => [real]) <$> Q.realpath p) t₁
      (fun x y s' t' => x = y ∧ tied s' [handle] t' [handle']) fun s' t' => tied s' [] t' [] := by
    rw [map_eq_pure_bind, map_eq_pure_bind]
    refine Alike.andThen (h.realpath p hheld).attest ?_ ?_
    · rintro s' t' ⟨-, e, hfail⟩
      exact absurd ⟨hf, handle, s₁, e, s', hopen, hfail⟩ hs
    · rintro real _ s' t' ⟨⟨rfl, hend⟩, -⟩
      exact Alike.pure ⟨rfl, hend⟩
  refine Alike.bind hreal ?_
  rintro visited _ s' t' ⟨rfl, hend⟩
  exact hrest visited s' t' hend

theorem alike_within (h : Custody P Q tied) (options : WalkOptions) (p : Path)
    (hs : ¬ Walk.Stranded P options p s) (ht : tied s [] t []) {a : Walking σ η α} {b : Walking τ θ α}
    (hab : ∀ sw tw, Walk.Tied tied sw tw → a.Alike sw b tw (Same tied) (Walk.Tied tied)) :
    (Walk.within P options p a).Alike s (Walk.within Q options p b) t (fun x y s' t' => x = y ∧ tied s' [] t' [])
      fun s' t' => tied s' [] t' [] :=
  (h.alike_start options p hs ht).bind fun _ _ _ _ hw => h.alike_finish (hab _ _ hw)

end Custody

end Bytework
