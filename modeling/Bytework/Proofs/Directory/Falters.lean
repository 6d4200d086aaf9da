import Bytework.Directory.Faults
import Bytework.Directory.OnVolume
import Bytework.Proofs.Directory.Ends

/-!
# Platforms that falter

A platform that answers as a volume does, or fails without effect. Which calls fail, and when, is left
open.

* `Reading`: how the state of a platform is read as a volume; `Falters`: what its calls do.
* `falters_platform`: a volume itself; `Falters.withFaults`: a plan of faults makes a platform falter.
-/

namespace Bytework

open Bytework.Action

/-- How the state of a platform is read: as a volume, with its open directories, and with the paths
of which `lstat` may fail though something is there. -/
structure Reading (σ η : Type) where
  volume : σ → Volume
  stream : η → Volume.Stream
  blind : σ → Path → Prop

namespace Reading

variable {σ η : Type} {view : Reading σ η} {s s' s'' : σ} {v : Volume}

/-- A state follows another one with a volume. No more paths become blind. -/
def Becomes (view : Reading σ η) (s : σ) (v : Volume) (s' : σ) : Prop :=
  view.volume s' = v ∧ ∀ p, view.blind s' p → view.blind s p

/-- A state follows another one with the same volume. -/
def Still (view : Reading σ η) (s s' : σ) : Prop := view.Becomes s (view.volume s) s'

theorem Still.refl (s : σ) : view.Still s s := ⟨rfl, fun _ => id⟩

theorem Still.trans (h : view.Still s s') (h' : view.Still s' s'') : view.Still s s'' :=
  ⟨h'.1.trans h.1, fun p hp => h.2 p (h'.2 p hp)⟩

end Reading

/-- The calls of a platform answer as those of a volume, or fail without effect. Only a path that is
blind makes `lstat` fail of what is there. -/
structure Falters {σ η : Type} (platform : Platform σ η) (view : Reading σ η) : Prop where
  stat : ∀ s p, (platform.stat p).Ends s
    (fun entry s' => view.Still s s' ∧ (view.volume s).stat true p = .ok entry) fun _ => view.Still s
  lstat : ∀ s p, (platform.lstat p).Ends s
    (fun entry s' => view.Still s s' ∧ (view.volume s).stat false p = .ok entry)
    fun _ s' => view.Still s s' ∧
      (¬ view.blind s p → ∀ entry, (view.volume s).stat false p ≠ .ok entry)
  opendir : ∀ s p, (platform.opendir p).Ends s
    (fun handle s' => view.Still s s' ∧ (view.stream handle).path = p ∧
      (view.volume s).list p = .ok (view.stream handle).ahead) fun _ => view.Still s
  readdir : ∀ s handle, (platform.readdir handle).Ends s
    (fun next? s' => view.Still s s' ∧
      match next? with
      | none => (view.stream handle).ahead = []
      | some (entry, rest) => (view.stream rest).path = (view.stream handle).path ∧
          ∃ name, (view.stream handle).ahead = name :: (view.stream rest).ahead ∧
            (view.volume s).stat false ((view.stream handle).path.join name) = .ok entry)
    fun _ => view.Still s
  closedir : ∀ s handle, (platform.closedir handle).Ends s (fun _ => view.Still s) fun _ => view.Still s
  mkdir : ∀ s p mode, (platform.mkdir p mode).Ends s
    (fun _ s' => ∃ v, (view.volume s).mkdir p mode = .ok v ∧ view.Becomes s v s') fun _ => view.Still s
  rmdir : ∀ s p, (platform.rmdir p).Ends s
    (fun _ s' => ∃ v, (view.volume s).rmdir p = .ok v ∧ view.Becomes s v s') fun _ => view.Still s
  unlink : ∀ s p, (platform.unlink p).Ends s
    (fun _ s' => ∃ v, (view.volume s).unlink p = .ok v ∧ view.Becomes s v s') fun _ => view.Still s
  symlink : ∀ s target p, (platform.symlink target p).Ends s
    (fun _ s' => ∃ v, (view.volume s).symlink target p = .ok v ∧ view.Becomes s v s')
    fun _ => view.Still s
  readlink : ∀ s p, (platform.readlink p).Ends s
    (fun target s' => view.Still s s' ∧ (view.volume s).readlink p = .ok target) fun _ => view.Still s
  copyFile : ∀ s p q, (platform.copyFile p q).Ends s
    (fun bytes s' => ∃ v, (view.volume s).copyFile p q = .ok (bytes, v) ∧ view.Becomes s v s')
    fun _ => view.Still s
  getcwd : ∀ s, platform.getcwd.Ends s (fun _ => view.Still s) fun _ => view.Still s

/-! ## A volume -/

namespace Volume

/-- A volume read as itself. -/
def reading : Reading Volume Stream := ⟨id, id, fun _ _ => False⟩

theorem ends_ask {α : Type} (call : Call) (question : Volume → Except Errno α) (v : Volume) :
    (ask call question).Ends v (fun x v' => v' = v ∧ question v = .ok x)
      fun _ v' => v' = v ∧ ∀ x, question v ≠ .ok x := by
  have hrun : (ask call question).apply v = ((question v).mapError (Failure.system call), v) := rfl
  rw [Ends, hrun]
  cases hq : question v with
  | ok => exact ⟨rfl, rfl⟩
  | error => exact ⟨rfl, by simp⟩

theorem ends_perform {α : Type} (call : Call) (change : Volume → Except Errno (α × Volume))
    (v : Volume) :
    (perform call change).Ends v (fun x v' => change v = .ok (x, v')) fun _ v' => v' = v := by
  rw [Ends, perform, apply_of]
  cases hc : change v with
  | ok r => rfl
  | error e => rfl

theorem ends_update (call : Call) (change : Volume → Except Errno Volume) (v : Volume) :
    (update call change).Ends v (fun _ v' => change v = .ok v') fun _ v' => v' = v := by
  refine (ends_perform call _ v).mono (fun _ v' h => ?_) fun _ _ => id
  cases hc : change v with
  | ok v'' =>
    rw [hc] at h
    obtain ⟨-, rfl⟩ := Prod.mk.inj (Except.ok.inj h)
    rfl
  | error =>
    rw [hc] at h
    exact absurd h (by simp [Except.map])

theorem still_reading {v v' : Volume} (h : v' = v) : reading.Still v v' := ⟨h, fun _ => id⟩

/-- A volume as a platform answers as it does. -/
theorem falters_platform : Falters platform reading where
  stat s p := (ends_ask _ _ s).mono (fun _ _ h => ⟨still_reading h.1, h.2⟩) fun _ _ h => still_reading h.1
  lstat s p := (ends_ask _ _ s).mono (fun _ _ h => ⟨still_reading h.1, h.2⟩)
    fun _ _ h => ⟨still_reading h.1, fun _ => h.2⟩
  opendir s p := by
    refine (ends_ask _ _ s).mono (fun handle s' h => ?_) fun _ _ h => still_reading h.1
    cases hl : s.list p with
    | ok names =>
      rw [hl] at h
      obtain rfl := Except.ok.inj h.2
      exact ⟨still_reading h.1, rfl, hl⟩
    | error =>
      rw [hl] at h
      exact absurd h.2 (by simp [Except.map])
  readdir s handle := by
    obtain ⟨path, ahead⟩ := handle
    cases ahead with
    | nil => exact Ends.pure ⟨.refl s, rfl⟩
    | cons name ahead =>
      refine (ends_ask _ _ s).mono (fun _ _ h => h) (fun _ _ h => still_reading h.1) |>.bind ?_
      rintro entry s' ⟨rfl, hstat⟩
      exact Ends.pure ⟨.refl _, rfl, name, rfl, hstat⟩
  closedir s handle := Ends.pure (.refl s)
  mkdir s p mode := (ends_update _ _ s).mono (fun _ v' h => ⟨v', h, rfl, fun _ => id⟩)
    fun _ _ => still_reading
  rmdir s p := (ends_update _ _ s).mono (fun _ v' h => ⟨v', h, rfl, fun _ => id⟩) fun _ _ => still_reading
  unlink s p := (ends_update _ _ s).mono (fun _ v' h => ⟨v', h, rfl, fun _ => id⟩) fun _ _ => still_reading
  symlink s target p := (ends_update _ _ s).mono (fun _ v' h => ⟨v', h, rfl, fun _ => id⟩)
    fun _ _ => still_reading
  readlink s p := (ends_ask _ _ s).mono (fun _ _ h => ⟨still_reading h.1, h.2⟩)
    fun _ _ h => still_reading h.1
  copyFile s p q := (ends_perform _ _ s).mono (fun _ v' h => ⟨v', h, rfl, fun _ => id⟩)
    fun _ _ => still_reading
  getcwd s := (ends_ask _ _ s).mono (fun _ _ h => still_reading h.1) fun _ _ h => still_reading h.1

end Volume

/-! ## Plans of faults -/

namespace Fault

/-- The faults of a plan after a call meet no other calls than before. -/
theorem meets_of_mem_strike {call : Call} {plan : List Fault} {fault : Fault}
    (h : fault ∈ (strike call plan).2) : ∃ before ∈ plan, ∀ c, fault.meets c = before.meets c := by
  induction plan with
  | nil => exact absurd h List.not_mem_nil
  | cons first plan ih =>
    have hlater (h : fault ∈ (strike call plan).2) :
        ∃ before ∈ first :: plan, ∀ c, fault.meets c = before.meets c := by
      obtain ⟨before, hb, hm⟩ := ih h
      exact ⟨before, List.mem_cons_of_mem _ hb, hm⟩
    have hfirst (hm : ∀ c, fault.meets c = first.meets c) :
        ∃ before ∈ first :: plan, ∀ c, fault.meets c = before.meets c :=
      ⟨first, List.mem_cons_self, hm⟩
    rw [strike] at h
    split at h
    · rcases List.mem_cons.mp h with rfl | h
      · exact hfirst fun _ => rfl
      · exact hlater h
    · split at h
      · rcases List.mem_cons.mp h with rfl | h
        · exact hfirst fun _ => rfl
        · exact hlater h
      · split at h
        · rcases List.mem_cons.mp h with rfl | h
          · exact hfirst fun _ => rfl
          · exact hlater h
        · rcases List.mem_cons.mp h with rfl | h
          · exact hfirst fun _ => rfl
          · exact ⟨fault, List.mem_cons_of_mem _ h, fun _ => rfl⟩

theorem strike_eq_none {call : Call} {plan : List Fault} (h : ∀ fault ∈ plan, ¬ fault.meets call) :
    (strike call plan).1 = none := by
  induction plan with
  | nil => rfl
  | cons first plan ih =>
    have hfirst : first.meets call = false := by simpa using h first List.mem_cons_self
    rw [strike, hfirst]
    exact ih fun fault hf => h fault (List.mem_cons_of_mem _ hf)

end Fault

namespace Reading

variable {σ η : Type}

/-- A state beside a plan of faults. A path is blind if a fault waits for it. -/
def withFaults (view : Reading σ η) : Reading (σ × List Fault) (Path × η) where
  volume s := view.volume s.1
  stream handle := view.stream handle.2
  blind s p := view.blind s.1 p ∨ ∃ fault ∈ s.2, fault.meets (.lstat p)

end Reading

section WithFaults

open Fault

variable {σ η α : Type} {platform : Platform σ η} {view : Reading σ η} {s : σ} {plan plan' : List Fault}
  {a : Action σ α} {good : α → σ → Prop} {bad : Failure → σ → Prop}

/-- A plan that has come from another one by calls. -/
def Fault.Later (plan plan' : List Fault) : Prop :=
  ∀ fault ∈ plan', ∃ before ∈ plan, ∀ c, fault.meets c = before.meets c

theorem Fault.Later.refl (plan : List Fault) : Later plan plan := fun fault hf => ⟨fault, hf, fun _ => rfl⟩

theorem Reading.becomes_withFaults {s' : σ} {v : Volume} (h : view.Becomes s v s')
    (hp : Later plan plan') : view.withFaults.Becomes (s, plan) v (s', plan') := by
  refine ⟨h.1, fun p hb => hb.imp (h.2 p) ?_⟩
  rintro ⟨fault, hf, hm⟩
  obtain ⟨before, hb, he⟩ := hp fault hf
  exact ⟨before, hb, he _ ▸ hm⟩

theorem Reading.still_withFaults {s' : σ} (h : view.Still s s') (hp : Later plan plan') :
    view.withFaults.Still (s, plan) (s', plan') :=
  becomes_withFaults h hp

theorem ends_check (call : Call) :
    (check call).Ends (s, plan) (fun _ s' => s'.1 = s ∧ Later plan s'.2)
      fun _ s' => s'.1 = s ∧ Later plan s'.2 ∧ ∃ fault ∈ plan, fault.meets call := by
  have hlater : Later plan (strike call plan).2 := fun fault => meets_of_mem_strike
  rw [Ends, check, apply_of]
  dsimp only
  rcases hstrike : strike call plan with ⟨_ | cause, plan'⟩
  · rw [hstrike] at hlater
    exact ⟨rfl, hlater⟩
  · rw [hstrike] at hlater
    refine ⟨rfl, hlater, ?_⟩
    by_contra hnone
    have hpass := strike_eq_none fun fault hf hm => hnone ⟨fault, hf, hm⟩
    rw [hstrike] at hpass
    exact absurd hpass (by simp)

theorem ends_beside (h : a.Ends s good bad) :
    (beside a).Ends (s, plan) (fun x s' => good x s'.1 ∧ s'.2 = plan) fun e s' => bad e s'.1 ∧ s'.2 = plan := by
  have hrun : (beside a).apply (s, plan) = ((a.apply s).1, ((a.apply s).2, plan)) := rfl
  unfold Ends at h ⊢
  rw [hrun]
  split at h
  case h_1 he => rw [he]; exact ⟨h, rfl⟩
  case h_2 he => rw [he]; exact ⟨h, rfl⟩

theorem ends_guarded (call : Call) (h : a.Ends s good bad) :
    (guarded call a).Ends (s, plan) (fun x s' => good x s'.1 ∧ Later plan s'.2)
      fun e s' => Later plan s'.2 ∧ (bad e s'.1 ∨ s'.1 = s ∧ ∃ fault ∈ plan, fault.meets call) := by
  refine Ends.andThen (ends_check call) (fun _ _ h => ⟨h.2.1, .inr ⟨h.1, h.2.2⟩⟩) ?_
  rintro _ ⟨s', plan'⟩ ⟨rfl, hl⟩
  exact (ends_beside h).mono (fun _ _ h => ⟨h.1, h.2 ▸ hl⟩) fun _ _ h => ⟨h.2 ▸ hl, .inl h.1⟩

theorem Reading.still_of_faulted {s' : σ × List Fault} {met : Prop}
    (h : Later plan s'.2 ∧ (view.Still s s'.1 ∨ s'.1 = s ∧ met)) : view.withFaults.Still (s, plan) s' := by
  obtain ⟨hl, hs | ⟨rfl, -⟩⟩ := h
  · exact still_withFaults hs hl
  · exact still_withFaults (.refl _) hl

theorem ends_guarded_ask {q : α → Prop} (call : Call)
    (h : a.Ends s (fun x s' => view.Still s s' ∧ q x) fun _ => view.Still s) :
    (guarded call a).Ends (s, plan) (fun x s' => view.withFaults.Still (s, plan) s' ∧ q x)
      fun _ => view.withFaults.Still (s, plan) :=
  (ends_guarded call h).mono (fun _ _ h => ⟨Reading.still_withFaults h.1.1 h.2, h.1.2⟩)
    fun _ _ => Reading.still_of_faulted

theorem ends_guarded_change {change : α → Volume → Prop} (call : Call)
    (h : a.Ends s (fun x s' => ∃ v, change x v ∧ view.Becomes s v s') fun _ => view.Still s) :
    (guarded call a).Ends (s, plan) (fun x s' => ∃ v, change x v ∧ view.withFaults.Becomes (s, plan) v s')
      fun _ => view.withFaults.Still (s, plan) :=
  (ends_guarded call h).mono
    (fun _ _ h => h.1.imp fun _ hv => ⟨hv.1, Reading.becomes_withFaults hv.2 h.2⟩)
    fun _ _ => Reading.still_of_faulted

/-- A platform that falters does so beside a plan of faults. -/
theorem Falters.withFaults (h : Falters platform view) : Falters platform.withFaults view.withFaults where
  stat s p := ends_guarded_ask _ (h.stat s.1 p)
  lstat s p := by
    refine (ends_guarded _ (h.lstat s.1 p)).mono
      (fun _ _ h => ⟨Reading.still_withFaults h.1.1 h.2, h.1.2⟩) fun e s' hbad => ?_
    refine ⟨Reading.still_of_faulted ⟨hbad.1, hbad.2.imp_left And.left⟩, fun hblind => ?_⟩
    rcases hbad.2 with hbad | ⟨-, hmet⟩
    · exact hbad.2 fun hb => hblind (.inl hb)
    · exact absurd (.inr hmet) hblind
  opendir s p := by
    refine ends_guarded_ask _ ?_
    refine (h.opendir s.1 p).bind fun handle s' hopen => Ends.pure hopen
  readdir := by
    rintro ⟨s, plan⟩ ⟨path, handle⟩
    refine Ends.andThen (ends_beside (h.readdir s handle))
      (fun _ _ h => Reading.still_withFaults h.1 (h.2 ▸ Later.refl _)) ?_
    rintro next? ⟨s', plan'⟩ ⟨⟨hstill, hnext⟩, rfl⟩
    match next? with
    | none => exact Ends.pure ⟨Reading.still_withFaults hstill (Later.refl _), hnext⟩
    | some (entry, rest) =>
      refine Ends.andThen (ends_check (.readdir entry.path)) (fun _ _ h => ?_) ?_
      · exact Reading.still_withFaults (h.1 ▸ hstill) h.2.1
      · rintro _ ⟨s'', plan''⟩ ⟨rfl, hl⟩
        exact Ends.pure ⟨Reading.still_withFaults hstill hl, hnext⟩
  closedir s handle := by
    refine (ends_guarded_ask (q := fun _ => True) _ ?_).mono (fun _ _ h => h.1) fun _ _ h => h
    exact (h.closedir s.1 handle.2).mono (fun _ _ h => ⟨h, trivial⟩) fun _ _ h => h
  mkdir s p mode := ends_guarded_change _ (h.mkdir s.1 p mode)
  rmdir s p := ends_guarded_change _ (h.rmdir s.1 p)
  unlink s p := ends_guarded_change _ (h.unlink s.1 p)
  symlink s target p := ends_guarded_change _ (h.symlink s.1 target p)
  readlink s p := ends_guarded_ask _ (h.readlink s.1 p)
  copyFile s p q := ends_guarded_change _ (h.copyFile s.1 p q)
  getcwd s := by
    refine (ends_guarded_ask (q := fun _ => True) _ ?_).mono (fun _ _ h => h.1) fun _ _ h => h
    exact (h.getcwd s.1).mono (fun _ _ h => ⟨h, trivial⟩) fun _ _ h => h

end WithFaults

end Bytework
