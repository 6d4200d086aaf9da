import Bytework.Directory.Platform
import Mathlib.Data.List.Basic

/-!
# Ends of computations

What holds when a computation on a state has ended, with a result or with a failure.

* `Action.Ends`: the two ends of a computation from one state.
* `Ends.andThen`, `Ends.bind_outcome`, `Ends.forM`: how the ends of a computation come from those of its parts.
* `Action.Keeps`: what holds before a computation holds however it ends.
-/

namespace Bytework.Action

variable {σ α β γ : Type} {s : σ} {a : Action σ α} {f : α → Action σ β}

/-- From a state, a computation ends with a result and a state that are `good`, or with a failure and
a state that are `bad`. -/
def Ends (a : Action σ α) (s : σ) (good : α → σ → Prop) (bad : Failure → σ → Prop) : Prop :=
  match a.apply s with
  | (.ok x, s') => good x s'
  | (.error e, s') => bad e s'

theorem apply_of (f : σ → Except Failure α × σ) (s : σ) : (of f).apply s = f s := rfl

theorem apply_eq_ok {x : α} (h : (a.apply s).1 = .ok x) : a.apply s = (.ok x, (a.apply s).2) :=
  Prod.ext h rfl

theorem apply_outcome {r : Except Failure α} {s' : σ} (h : a.apply s = (r, s')) :
    a.outcome.apply s = (.ok r, s') := by
  rw [outcome, apply_of, h]

theorem apply_bind_ok {x : α} {s' : σ} (h : a.apply s = (.ok x, s')) : (a >>= f).apply s = (f x).apply s' := by
  have hrun : (a >>= f).apply s = (ExceptT.bindCont f (a.apply s).1).run (a.apply s).2 := rfl
  rw [hrun, h]
  rfl

theorem apply_bind_error {e : Failure} {s' : σ} (h : a.apply s = (.error e, s')) :
    (a >>= f).apply s = (.error e, s') := by
  have hrun : (a >>= f).apply s = (ExceptT.bindCont f (a.apply s).1).run (a.apply s).2 := rfl
  rw [hrun, h]
  rfl

namespace Ends

variable {good good' : α → σ → Prop} {bad bad' bad₂ : Failure → σ → Prop} {good₂ : β → σ → Prop}

theorem ok (h : a.Ends s good bad) {x : α} (hx : (a.apply s).1 = .ok x) : good x (a.apply s).2 := by
  unfold Ends at h
  split at h
  case h_1 he =>
    rw [he] at hx ⊢
    obtain rfl := Except.ok.inj hx
    exact h
  case h_2 he =>
    rw [he] at hx
    exact absurd hx (by simp)

theorem error (h : a.Ends s good bad) {e : Failure} (he : (a.apply s).1 = .error e) : bad e (a.apply s).2 := by
  unfold Ends at h
  split at h
  case h_1 hrun =>
    rw [hrun] at he
    exact absurd he (by simp)
  case h_2 hrun =>
    rw [hrun] at he ⊢
    obtain rfl := Except.error.inj he
    exact h

theorem fails (h : a.Ends s (fun _ _ => False) bad) : ∃ e, (a.apply s).1 = .error e ∧ bad e (a.apply s).2 := by
  cases hrun : (a.apply s).1 with
  | ok => exact (h.ok hrun).elim
  | error e => exact ⟨e, rfl, h.error hrun⟩

theorem always {after : σ → Prop} (h : a.Ends s (fun _ => after) fun _ => after) :
    after (a.apply s).2 := by
  unfold Ends at h
  split at h
  case h_1 he => rwa [he]
  case h_2 he => rwa [he]

theorem mono (h : a.Ends s good bad) (hg : ∀ x s', good x s' → good' x s')
    (hb : ∀ e s', bad e s' → bad' e s') : a.Ends s good' bad' := by
  unfold Ends at h ⊢
  split at h
  · exact hg _ _ h
  · exact hb _ _ h

theorem and (h : a.Ends s good bad) (h' : a.Ends s good' bad') :
    a.Ends s (fun x s' => good x s' ∧ good' x s') fun e s' => bad e s' ∧ bad' e s' := by
  unfold Ends at h h' ⊢
  split at h
  case h_1 he =>
    rw [he] at h'
    exact ⟨h, h'⟩
  case h_2 he =>
    rw [he] at h'
    exact ⟨h, h'⟩

/-- The ends of a computation, together with what it comes to. -/
theorem known (h : a.Ends s good bad) :
    a.Ends s (fun x s' => good x s' ∧ a.apply s = (.ok x, s'))
      fun e s' => bad e s' ∧ a.apply s = (.error e, s') := by
  unfold Ends at h ⊢
  split at h
  case h_1 he =>
    rw [he]
    exact ⟨h, rfl⟩
  case h_2 he =>
    rw [he]
    exact ⟨h, rfl⟩

theorem of {f : σ → Action σ α} (h : (f s).Ends s good bad) :
    (Action.of fun s => (f s).apply s).Ends s good bad := by
  rwa [Ends, apply_of]

theorem pure {x : α} (h : good x s) : (pure x : Action σ α).Ends s good bad := h

theorem throw {e : Failure} (h : bad e s) : (throw e : Action σ α).Ends s good bad := h

/-- One computation and then another: the failures of the first are among the failures of both. -/
theorem andThen (h : a.Ends s good bad) (hb : ∀ e s', bad e s' → bad₂ e s')
    (hf : ∀ x s', good x s' → (f x).Ends s' good₂ bad₂) : (a >>= f).Ends s good₂ bad₂ := by
  unfold Ends at h ⊢
  split at h
  case h_1 he =>
    rw [apply_bind_ok he]
    exact hf _ _ h
  case h_2 he =>
    rw [apply_bind_error he]
    exact hb _ _ h

theorem after {x : α} {s' : σ} (h : a.apply s = (.ok x, s')) (hf : (f x).Ends s' good₂ bad₂) :
    (a >>= f).Ends s good₂ bad₂ := by
  rwa [Ends, apply_bind_ok h]

theorem bind (h : a.Ends s good bad) (hf : ∀ x s', good x s' → (f x).Ends s' good₂ bad) :
    (a >>= f).Ends s good₂ bad :=
  h.andThen (fun _ _ he => he) hf

/-- A computation that goes on after another one however that has ended. -/
theorem bind_outcome {f : Except Failure α → Action σ β} (h : a.Ends s good bad)
    (hok : ∀ x s', good x s' → (f (.ok x)).Ends s' good₂ bad₂)
    (herror : ∀ e s', bad e s' → (f (.error e)).Ends s' good₂ bad₂) : (a.outcome >>= f).Ends s good₂ bad₂ := by
  have hrun : a.outcome.apply s = (.ok (a.apply s).1, (a.apply s).2) := rfl
  unfold Ends at h
  rw [Ends, apply_bind_ok hrun]
  split at h
  case h_1 he =>
    rw [he]
    exact hok _ _ h
  case h_2 he =>
    rw [he]
    exact herror _ _ h

theorem succeeds {p : α → Bool} {good₂ : Bool → σ → Prop} (h : a.Ends s good bad)
    (hg : ∀ x s', good x s' → good₂ (p x) s') (hb : ∀ e s', bad e s' → good₂ false s') :
    (a.succeeds p).Ends s good₂ bad' :=
  h.bind_outcome (fun x s' hend => Ends.pure (hg x s' hend)) fun e s' hend => Ends.pure (hb e s' hend)

theorem forM {f : β → Action σ Unit} {xs : List β} (inv : σ → Prop) (hs : inv s)
    (step : ∀ x ∈ xs, ∀ s', inv s' → (f x).Ends s' (fun _ => inv) bad) :
    (xs.forM f).Ends s (fun _ => inv) bad := by
  induction xs generalizing s with
  | nil => exact hs
  | cons x xs ih =>
    have hx := step x List.mem_cons_self s hs
    refine hx.bind fun _ s' hs' => ih hs' fun y hy => ?_
    exact step y (List.mem_cons_of_mem _ hy)

/-- Over a list that stands for another one: the invariant speaks of what has been done. -/
theorem forM₂ {r : β → γ → Prop} {f : β → Action σ Unit} {xs : List β} {ys : List γ}
    (inv : List γ → σ → Prop) (h : List.Forall₂ r xs ys) (hs : inv [] s)
    (step : ∀ done x y rest s', ys = done ++ y :: rest → r x y → inv done s' →
      (f x).Ends s' (fun _ => inv (done ++ [y])) bad) :
    (xs.forM f).Ends s (fun _ => inv ys) bad := by
  suffices ∀ done, inv done s →
      (∀ before x y rest s', ys = before ++ y :: rest → r x y → inv (done ++ before) s' →
        (f x).Ends s' (fun _ => inv (done ++ before ++ [y])) bad) →
      (xs.forM f).Ends s (fun _ => inv (done ++ ys)) bad by
    exact this [] hs step
  clear hs step
  induction h generalizing s with
  | nil =>
    intro done hs _
    rw [List.append_nil]
    exact hs
  | @cons x y xs ys hxy _ ih =>
    intro done hs step
    have hx := step [] x y ys s rfl hxy (by rwa [List.append_nil])
    rw [List.append_nil] at hx
    refine hx.bind fun _ s' hs' => ?_
    have hrest := ih (done ++ [y]) hs' fun before x' y' rest s'' hys hr hinv => ?_
    · rwa [List.append_assoc, List.singleton_append] at hrest
    · have hstep := step (y :: before) x' y' rest s'' (by rw [hys]; rfl) hr (by simpa using hinv)
      simpa using hstep

end Ends

/-! ## Invariants -/

/-- What holds of the state before a computation holds of the state after it, however it ends. -/
def Keeps (a : Action σ α) (inv : σ → Prop) : Prop := ∀ s, inv s → a.Ends s (fun _ => inv) fun _ => inv

namespace Keeps

variable {inv : σ → Prop}

theorem pure (x : α) : (pure x : Action σ α).Keeps inv := fun _ hs => hs

theorem throw (e : Failure) : (throw e : Action σ α).Keeps inv := fun _ hs => hs

theorem bind (h : a.Keeps inv) (hf : ∀ x, (f x).Keeps inv) : (a >>= f).Keeps inv :=
  fun s hs => (h s hs).bind fun x s' hs' => hf x s' hs'

end Keeps

end Bytework.Action
