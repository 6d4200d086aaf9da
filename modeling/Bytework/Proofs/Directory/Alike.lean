import Bytework.Proofs.Directory.Ends

/-!
# Computations that end alike

Two computations, each on a state of its own, that end with the same outcome.

* `Action.Alike`: what holds of both results and both states in the end.
* `Alike.andThen`, `Alike.outcome`: how it comes from the parts.
-/

namespace Bytework.Action

variable {σ τ α β α' β' : Type}

/-- From two states, two computations end with results and states that are `good` together, or with the
same failure and states that are `bad` together. -/
def Alike (a : Action σ α) (s : σ) (b : Action τ β) (t : τ) (good : α → β → σ → τ → Prop)
    (bad : σ → τ → Prop) : Prop :=
  match a.apply s, b.apply t with
  | (.ok x, s'), (.ok y, t') => good x y s' t'
  | (.error e, s'), (.error e', t') => e = e' ∧ bad s' t'
  | _, _ => False

namespace Alike

variable {a : Action σ α} {b : Action τ β} {f : α → Action σ α'} {g : β → Action τ β'} {s : σ} {t : τ}
  {good good' : α → β → σ → τ → Prop} {bad bad' bad₂ : σ → τ → Prop} {good₂ : α' → β' → σ → τ → Prop}

theorem cases (h : a.Alike s b t good bad) :
    (∃ x y s' t', a.apply s = (.ok x, s') ∧ b.apply t = (.ok y, t') ∧ good x y s' t') ∨
      ∃ e s' t', a.apply s = (.error e, s') ∧ b.apply t = (.error e, t') ∧ bad s' t' := by
  unfold Alike at h
  split at h
  case h_1 ha hb => exact .inl ⟨_, _, _, _, ha, hb, h⟩
  case h_2 ha hb =>
    obtain ⟨rfl, h⟩ := h
    exact .inr ⟨_, _, _, ha, hb, h⟩
  case h_3 => exact h.elim

theorem of_ok {x : α} {y : β} {s' : σ} {t' : τ} (ha : a.apply s = (.ok x, s')) (hb : b.apply t = (.ok y, t'))
    (h : good x y s' t') : a.Alike s b t good bad := by
  rw [Alike, ha, hb]
  exact h

theorem of_error {e : Failure} {s' : σ} {t' : τ} (ha : a.apply s = (.error e, s'))
    (hb : b.apply t = (.error e, t')) (h : bad s' t') : a.Alike s b t good bad := by
  rw [Alike, ha, hb]
  exact ⟨rfl, h⟩

theorem attest (h : a.Alike s b t good bad) :
    a.Alike s b t (fun x y s' t' => good x y s' t' ∧ a.apply s = (.ok x, s'))
      fun s' t' => bad s' t' ∧ ∃ e, a.apply s = (.error e, s') := by
  obtain ⟨x, y, s', t', ha, hb, h⟩ | ⟨e, s', t', ha, hb, h⟩ := h.cases
  · exact of_ok ha hb ⟨h, ha⟩
  · exact of_error ha hb ⟨h, e, ha⟩

theorem mono (h : a.Alike s b t good bad) (hg : ∀ x y s' t', good x y s' t' → good' x y s' t')
    (hb : ∀ s' t', bad s' t' → bad' s' t') : a.Alike s b t good' bad' := by
  obtain ⟨x, y, s', t', ha, hb', h⟩ | ⟨e, s', t', ha, hb', h⟩ := h.cases
  · exact of_ok ha hb' (hg _ _ _ _ h)
  · exact of_error ha hb' (hb _ _ h)

theorem pure {x : α} {y : β} (h : good x y s t) :
    (pure x : Action σ α).Alike s (pure y : Action τ β) t good bad := h

theorem throw {e : Failure} (h : bad s t) :
    (throw e : Action σ α).Alike s (throw e : Action τ β) t good bad := ⟨rfl, h⟩

theorem step {x : α} {y : β} {s' : σ} {t' : τ} {bad : σ → τ → Prop} (ha : a.apply s = (.ok x, s'))
    (hb : b.apply t = (.ok y, t')) (h : (f x).Alike s' (g y) t' good₂ bad) :
    (a >>= f).Alike s (b >>= g) t good₂ bad := by
  unfold Alike at h ⊢
  rwa [apply_bind_ok ha, apply_bind_ok hb]

theorem andThen (h : a.Alike s b t good bad) (hb : ∀ s' t', bad s' t' → bad₂ s' t')
    (hf : ∀ x y s' t', good x y s' t' → (f x).Alike s' (g y) t' good₂ bad₂) :
    (a >>= f).Alike s (b >>= g) t good₂ bad₂ := by
  obtain ⟨x, y, s', t', ha, hb', h⟩ | ⟨e, s', t', ha, hb', h⟩ := h.cases
  · exact step ha hb' (hf x y s' t' h)
  · exact of_error (apply_bind_error ha) (apply_bind_error hb') (hb _ _ h)

theorem bind (h : a.Alike s b t good bad)
    (hf : ∀ x y s' t', good x y s' t' → (f x).Alike s' (g y) t' good₂ bad) :
    (a >>= f).Alike s (b >>= g) t good₂ bad :=
  h.andThen (fun _ _ hbad => hbad) hf

theorem of {f : σ → Action σ α} {g : τ → Action τ β} (h : (f s).Alike s (g t) t good bad) :
    (Action.of fun s => (f s).apply s).Alike s (Action.of fun t => (g t).apply t) t good bad := h

theorem outcome {a : Action σ α} {b : Action τ α} {after : σ → τ → Prop}
    (h : a.Alike s b t (fun x y s' t' => x = y ∧ after s' t') after) :
    a.outcome.Alike s b.outcome t (fun r r' s' t' => r = r' ∧ after s' t') bad := by
  obtain ⟨x, y, s', t', ha, hb, rfl, h⟩ | ⟨e, s', t', ha, hb, h⟩ := h.cases
  · exact of_ok (apply_outcome ha) (apply_outcome hb) ⟨rfl, h⟩
  · exact of_ok (apply_outcome ha) (apply_outcome hb) ⟨rfl, h⟩

end Alike

end Bytework.Action
