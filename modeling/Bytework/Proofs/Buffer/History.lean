import Bytework.Buffer
import Mathlib.Data.List.Infix

/-!
# What a buffer holds after any steps

A buffer against a plain list of bytes, over every sequence of steps, refused ones included.

* `perform_bind`, `perform_adapt`: how operations are carried out one after the other.
* `Buffer.Sound`: the content fits the capacity, and the capacity is not too large.
* `room`: the capacity that more bytes ask for; `perform_write`, `perform_insert`, `perform_reserve`
  say with it what each operation does, and when it is refused.
* `Step.change`, `Step.demand`, `Step.refusal?`: a step on a plain list of bytes, the capacity that it
  asks for, and why it is refused; **`perform_edit`** says what the step does in these terms.
* `Step.Follows`: what one step promises; `follows_of_sound`.
* **`history_of_create`**: what holds of a new buffer after any steps.
-/

namespace Bytework.Buffer

variable {ε α β : Type} {b : Buffer}

/-! ## Operations one after the other -/

theorem perform_bind (x : Edit ε α) (f : α → Edit ε β) (b : Buffer) :
    Edit.perform (x >>= f) b =
      match Edit.perform x b with
      | (.ok a, b') => Edit.perform (f a) b'
      | (.error e, b') => (.error e, b') := by
  have hbind : Edit.perform (x >>= f) b =
      ExceptT.bindCont f (Edit.perform x b).1 (Edit.perform x b).2 := rfl
  rw [hbind]
  rcases Edit.perform x b with ⟨_ | _, _⟩ <;> rfl

theorem perform_adapt {ε' : Type} (x : Edit ε α) (f : ε → ε') (b : Buffer) :
    Edit.perform (ExceptT.adapt f x : Edit ε' α) b =
      ((Edit.perform x b).1.mapError f, (Edit.perform x b).2) := rfl

theorem perform_pure (a : α) (b : Buffer) : Edit.perform (pure a : Edit ε α) b = (.ok a, b) := rfl

theorem perform_get (b : Buffer) : Edit.perform (get : Edit ε Buffer) b = (.ok b, b) := rfl

theorem perform_modify (f : Buffer → Buffer) (b : Buffer) :
    Edit.perform (modify f : Edit ε PUnit) b = (.ok ⟨⟩, f b) := rfl

theorem perform_throw (e : ε) (b : Buffer) :
    Edit.perform (throw e : Edit ε α) b = (.error e, b) := rfl

theorem perform_ite (p : Prop) [Decidable p] (x y : Edit ε α) (b : Buffer) :
    Edit.perform (if p then x else y) b = if p then Edit.perform x b else Edit.perform y b := by
  split <;> rfl

theorem perform_allocate (capacity : Nat) (b : Buffer) :
    (allocate capacity).perform b =
      if capacity ≤ maxCapacity then (.ok (), { b with capacity }) else (.error .allocation, b) := by
  unfold allocate
  split <;> rfl

/-! ## Single operations -/

/-- The content fits the capacity, and the capacity is not too large. -/
structure Sound (b : Buffer) : Prop where
  length_le : b.content.length ≤ b.capacity
  capacity_le : b.capacity ≤ maxCapacity

/-- The capacity that more bytes ask for: what there is, if they fit, and else enough for them or twice
as much as there is. -/
def room (b : Buffer) (additional : Nat) : Nat :=
  if b.content.length + additional ≤ b.capacity then b.capacity
  else max (b.content.length + additional) (2 * b.capacity)

theorem saturate_cases (n : Nat) : saturate n = n ∨ maxCapacity < saturate n ∧ maxCapacity < n := by
  have hlarge : maxCapacity < maxCount := by decide
  unfold saturate
  omega

theorem saturate_double (h : b.Sound) : saturate (growth * b.capacity) = 2 * b.capacity := by
  have hlarge : 2 * maxCapacity ≤ maxCount := by decide
  exact Nat.min_eq_left (Nat.le_trans (Nat.mul_le_mul_left 2 h.capacity_le) hlarge)

theorem perform_growFor (h : b.Sound) (additional : Nat) :
    (growFor additional).perform b =
      if b.room additional ≤ maxCapacity then (.ok (), { b with capacity := b.room additional })
      else (.error .allocation, b) := by
  have hcapacity := h.capacity_le
  have hperform : (growFor additional).perform b =
      if b.capacity < saturate (b.content.length + additional) then
        (allocate (max (saturate (b.content.length + additional)) (2 * b.capacity))).perform b
      else (.ok (), b) := by
    rw [← saturate_double h]
    simp only [growFor, perform_bind, perform_get, perform_ite, perform_pure]
  rw [hperform]
  obtain hsum | ⟨hsum, hneeded⟩ := saturate_cases (b.content.length + additional)
  · rw [hsum]
    by_cases hfits : b.content.length + additional ≤ b.capacity
    · rw [if_neg (Nat.not_lt.mpr hfits), room, if_pos hfits, if_pos hcapacity]
    · rw [if_pos (Nat.lt_of_not_le hfits), perform_allocate, room, if_neg hfits]
  · -- the saturated sum is refused, as the sum itself would be
    have hfits : ¬ b.content.length + additional ≤ b.capacity := by omega
    rw [if_pos (Nat.lt_of_le_of_lt hcapacity hsum), perform_allocate, room, if_neg hfits,
      if_neg (by omega), if_neg (by omega)]

theorem perform_write (h : b.Sound) (bytes : Bytes) :
    (write bytes).perform b =
      if b.room bytes.length ≤ maxCapacity then
        (.ok (), ⟨b.content ++ bytes, b.room bytes.length⟩)
      else (.error .allocation, b) := by
  rw [write, perform_bind, perform_growFor h]
  by_cases hroom : b.room bytes.length ≤ maxCapacity
  · simp only [if_pos hroom, perform_modify]
  · simp only [if_neg hroom]

theorem perform_insert (h : b.Sound) (bytes : Bytes) (position : Nat) :
    (insert bytes position).perform b =
      if b.content.length < position then (.error (.outOfRange position b.content.length), b)
      else if b.room bytes.length ≤ maxCapacity then
        (.ok (), ⟨b.content.take position ++ bytes ++ b.content.drop position, b.room bytes.length⟩)
      else (.error .allocation, b) := by
  simp only [insert, perform_bind, perform_get, perform_ite, perform_throw]
  split
  · rfl
  rw [perform_growFor h]
  by_cases hroom : b.room bytes.length ≤ maxCapacity
  · simp only [if_pos hroom, perform_modify]
  · simp only [if_neg hroom]

theorem perform_reserve (h : b.Sound) (minimum : Nat) :
    (reserve minimum).perform b =
      if max b.capacity minimum ≤ maxCapacity then
        (.ok (), { b with capacity := max b.capacity minimum })
      else (.error .allocation, b) := by
  simp only [reserve, perform_bind, perform_get, perform_ite, perform_allocate, perform_pure]
  by_cases hlt : b.capacity < minimum
  · have hmax : max b.capacity minimum = minimum := by omega
    rw [if_pos hlt, hmax]
  · have hmax : max b.capacity minimum = b.capacity := by omega
    rw [if_neg hlt, hmax, if_pos h.capacity_le]

/-! ## Steps on a plain list of bytes -/

/-- The bytes that a formatter writes. -/
def Format.bytes : Format → Bytes
  | .literal text => Bytes.ofText text
  | .assembled text => Bytes.ofChars text

theorem writeFormat_eq (format : Format) : writeFormat format = write format.bytes := by
  cases format <;> rfl

namespace Step

/-- The bytes that a step puts into the content. -/
def bytes : Step → Bytes
  | .write bytes => bytes
  | .insert bytes _ => bytes
  | .writeFormat format => format.bytes
  | .writeText text => Bytes.ofText text
  | .writeCounted bytes => bytes
  | .truncate _ => []
  | .clear => []
  | .reserve _ => []

/-- A step on a plain list of bytes. -/
def change : Step → Bytes → Bytes
  | .insert bytes position, s => s.take position ++ bytes ++ s.drop position
  | .truncate n, s => s.take n
  | .clear, _ => []
  | .reserve _, s => s
  | step, s => s ++ step.bytes

/-- The capacity that a step asks for. -/
def demand (b : Buffer) : Step → Nat
  | .reserve minimum => max b.capacity minimum
  | step => b.room step.bytes.length

/-- The refusal of an insertion past the end of the content. -/
def pastEnd? (b : Buffer) : Step → Option Error
  | .insert _ position =>
    if b.content.length < position then some (.outOfRange position b.content.length) else none
  | _ => none

/-- Why a step is refused: it inserts past the end, or asks for too large a capacity. -/
def refusal? (b : Buffer) (step : Step) : Option Error :=
  (step.pastEnd? b).or (if step.demand b ≤ maxCapacity then none else some .allocation)

/-- A refusal as the step reports it. -/
def failure : Step → Error → Failure
  | .writeText _, _ => .unformatted
  | .writeCounted _, e => .outOfMemory e
  | _, e => .refused e

/-- What a step answers if it is not refused. -/
def answer : Step → Option Nat
  | .writeCounted bytes => some bytes.length
  | _ => none

end Step

theorem room_zero (h : b.Sound) : b.room 0 = b.capacity := if_pos h.length_le

/-- A step answers by what an operation did. -/
def Step.report (step : Step) (done : Except Error Unit × Buffer) :
    Except Failure (Option Nat) × Buffer :=
  match done with
  | (.ok _, b) => (.ok step.answer, b)
  | (.error e, b) => (.error (step.failure e), b)

/-- The steps that append bytes do so, whatever they report. -/
theorem report_write (h : b.Sound) {step : Step} (hpast : step.pastEnd? b = none)
    (hdemand : step.demand b = b.room step.bytes.length)
    (hchange : step.change b.content = b.content ++ step.bytes) :
    step.report ((write step.bytes).perform b) =
      match step.refusal? b with
      | some e => (.error (step.failure e), b)
      | none => (.ok step.answer, ⟨step.change b.content, step.demand b⟩) := by
  rw [perform_write h, Step.refusal?, hpast, hdemand, hchange]
  by_cases hroom : b.room step.bytes.length ≤ maxCapacity
  · simp only [hroom, if_true]
    rfl
  · simp only [hroom, if_false]
    rfl

/-- **What a step does**: it is refused and changes nothing, or it changes the content as it changes a
plain list, with the capacity that it asks for. -/
theorem perform_edit (h : b.Sound) (step : Step) :
    step.edit.perform b =
      match step.refusal? b with
      | some e => (.error (step.failure e), b)
      | none => (.ok step.answer, ⟨step.change b.content, step.demand b⟩) := by
  cases step with
  | write bytes | writeFormat bytes | writeText bytes | writeCounted bytes =>
    -- all four append, and differ only in what they report
    refine Eq.trans ?_ (report_write h rfl rfl rfl)
    simp only [Step.edit, writeFormat_eq, writeText, writeCounted, perform_bind, perform_adapt,
      Step.bytes]
    generalize (write _).perform b = done
    rcases done with ⟨_ | _, _⟩ <;> rfl
  | insert bytes position =>
    simp only [Step.edit, perform_bind, perform_adapt, perform_insert h, Step.refusal?,
      Step.pastEnd?, Step.demand, Step.bytes]
    by_cases hpast : b.content.length < position
    · simp only [hpast, if_true]
      rfl
    by_cases hroom : b.room bytes.length ≤ maxCapacity
    · simp only [hpast, hroom, if_true, if_false]
      rfl
    · simp only [hpast, hroom, if_false]
      rfl
  | reserve minimum =>
    simp only [Step.edit, perform_bind, perform_adapt, perform_reserve h, Step.refusal?,
      Step.pastEnd?, Step.demand]
    by_cases hroom : max b.capacity minimum ≤ maxCapacity
    · simp only [hroom, if_true]
      rfl
    · simp only [hroom, if_false]
      rfl
  | truncate n | clear =>
    simp only [Step.refusal?, Step.pastEnd?, Step.demand, Step.bytes, List.length_nil, room_zero h,
      h.capacity_le, if_true]
    rfl

theorem perform_refused (h : b.Sound) {step : Step} {e : Error} (he : step.refusal? b = some e) :
    step.edit.perform b = (.error (step.failure e), b) := by
  rw [perform_edit h, he]

theorem perform_done (h : b.Sound) {step : Step} (hdone : step.refusal? b = none) :
    step.edit.perform b = (.ok step.answer, ⟨step.change b.content, step.demand b⟩) := by
  rw [perform_edit h, hdone]

/-! ## What one step promises -/

variable {step : Step}

theorem length_add_le_room (b : Buffer) (k : Nat) : b.content.length + k ≤ b.room k := by
  unfold room
  split <;> omega

theorem capacity_le_room (b : Buffer) (k : Nat) : b.capacity ≤ b.room k := by
  unfold room
  split <;> omega

theorem room_of_lt {k : Nat} (h : b.capacity < b.room k) :
    2 * b.capacity ≤ b.room k ∧ b.room k ≤ 2 * (b.content.length + k) := by
  unfold room at h ⊢
  split at h
  · omega
  · rename_i hfits
    rw [if_neg hfits]
    omega

namespace Step

theorem length_change_le (step : Step) (s : Bytes) :
    (step.change s).length ≤ s.length + step.bytes.length := by
  cases step with
  | truncate n => exact List.length_take_le' n s
  | insert => simp [change, bytes]; omega
  | _ => simp [change, bytes]

theorem length_change (h : step.bytes ≠ []) (s : Bytes) :
    (step.change s).length = s.length + step.bytes.length := by
  cases step with
  | truncate | clear | reserve => exact absurd rfl h
  | _ => simp [change, bytes] <;> omega

theorem capacity_le_demand (step : Step) (b : Buffer) : b.capacity ≤ step.demand b := by
  cases step with
  | reserve n => exact Nat.le_max_left _ _
  | _ => exact capacity_le_room b _

theorem length_change_le_demand (h : b.Sound) (step : Step) :
    (step.change b.content).length ≤ step.demand b := by
  refine Nat.le_trans (step.length_change_le b.content) ?_
  cases step with
  | reserve n => exact Nat.le_trans h.length_le (Nat.le_max_left _ _)
  | _ => exact length_add_le_room b _

theorem demand_le_maxCapacity (h : step.refusal? b = none) : step.demand b ≤ maxCapacity := by
  rw [refusal?, Option.or_eq_none_iff] at h
  by_cases hle : step.demand b ≤ maxCapacity
  · exact hle
  · rw [if_neg hle] at h
    cases h.2

theorem demand_of_ne_reserve (h : ∀ n, step ≠ .reserve n) (b : Buffer) :
    step.demand b = b.room step.bytes.length := by
  cases step with
  | reserve n => exact absurd rfl (h n)
  | _ => rfl

/-- Where a step other than a reservation grows the capacity, it at least doubles, up to twice the
length that the content gets. -/
theorem demand_of_lt (h : b.Sound) (hreserve : ∀ n, step ≠ .reserve n)
    (hlt : b.capacity < step.demand b) :
    2 * b.capacity ≤ step.demand b ∧ step.demand b ≤ 2 * (step.change b.content).length := by
  rw [demand_of_ne_reserve hreserve] at hlt ⊢
  have hbytes : step.bytes ≠ [] := by
    intro hnil
    rw [hnil, List.length_nil, room_zero h] at hlt
    exact Nat.lt_irrefl _ hlt
  rw [length_change hbytes]
  exact room_of_lt hlt

/-- What a step promises. -/
structure Follows (step : Step) (b : Buffer) : Prop where
  /-- A refused step says why, and leaves content and capacity as they were. -/
  refused : ∀ e, step.refusal? b = some e → step.edit.perform b = (.error (step.failure e), b)
  /-- Any other step changes the content as it changes a plain list. -/
  done : step.refusal? b = none → (step.edit.perform b).1 = .ok step.answer ∧
    (step.edit.perform b).2.content = step.change b.content
  /-- The capacity never shrinks. -/
  grows : b.capacity ≤ (step.edit.perform b).2.capacity
  /-- Where it grows for other bytes than reserved ones, it at least doubles. -/
  doubles : (∀ n, step ≠ .reserve n) → b.capacity < (step.edit.perform b).2.capacity →
    2 * b.capacity ≤ (step.edit.perform b).2.capacity

theorem follows_of_sound (h : b.Sound) (step : Step) : step.Follows b where
  refused _ := perform_refused h
  done hdone := by
    rw [perform_done h hdone]
    exact ⟨rfl, rfl⟩
  grows := by
    cases hrefusal : step.refusal? b with
    | some e => exact Nat.le_of_eq (by rw [perform_refused h hrefusal])
    | none =>
      rw [perform_done h hrefusal]
      exact step.capacity_le_demand b
  doubles hreserve hlt := by
    cases hrefusal : step.refusal? b with
    | some e =>
      rw [perform_refused h hrefusal] at hlt
      exact absurd hlt (Nat.lt_irrefl _)
    | none =>
      rw [perform_done h hrefusal] at hlt ⊢
      exact (demand_of_lt h hreserve hlt).1

end Step

theorem Sound.edit (h : b.Sound) (step : Step) : (step.edit.perform b).2.Sound := by
  cases hrefusal : step.refusal? b with
  | some e =>
    rw [perform_refused h hrefusal]
    exact h
  | none =>
    rw [perform_done h hrefusal]
    exact ⟨step.length_change_le_demand h, step.demand_le_maxCapacity hrefusal⟩

/-! ## Any sequence of steps -/

/-- The buffer after some steps. -/
def after (b : Buffer) (steps : List Step) : Buffer :=
  steps.foldl (fun b step => (step.edit.perform b).2) b

/-- Those of some steps that succeed. -/
def succeeding : Buffer → List Step → List Step
  | _, [] => []
  | b, step :: steps =>
    match step.edit.perform b with
    | (.ok _, b') => step :: succeeding b' steps
    | (.error _, b') => succeeding b' steps

theorem Sound.after (h : b.Sound) (steps : List Step) : (b.after steps).Sound := by
  induction steps generalizing b with
  | nil => exact h
  | cons step steps ih => exact ih (h.edit step)

theorem content_after (h : b.Sound) (steps : List Step) :
    (b.after steps).content =
      (b.succeeding steps).foldl (fun s step => step.change s) b.content := by
  induction steps generalizing b with
  | nil => rfl
  | cons step steps ih =>
    refine (ih (h.edit step)).trans ?_
    cases hrefusal : step.refusal? b with
    | some e => simp only [succeeding, perform_refused h hrefusal]
    | none => simp only [succeeding, perform_done h hrefusal, List.foldl_cons]

/-- One step takes the capacity no further than what it reserves, or twice the length it leaves. -/
theorem capacity_edit_le (h : b.Sound) {bound : Nat} (hcapacity : b.capacity ≤ bound)
    (hreserve : ∀ n, .reserve n ∈ b.succeeding [step] → n ≤ bound)
    (hlength : 2 * (step.edit.perform b).2.content.length ≤ bound) :
    (step.edit.perform b).2.capacity ≤ bound := by
  cases hrefusal : step.refusal? b with
  | some e =>
    rw [perform_refused h hrefusal]
    exact hcapacity
  | none =>
    simp only [perform_done h hrefusal] at hlength ⊢
    by_cases hgrows : b.capacity < step.demand b
    · by_cases hne : ∀ n, step ≠ .reserve n
      · exact Nat.le_trans (Step.demand_of_lt h hne hgrows).2 hlength
      · obtain ⟨n, rfl⟩ : ∃ n, step = .reserve n := by simpa using hne
        have hn : n ≤ bound := by
          refine hreserve n ?_
          simp only [succeeding, perform_done h hrefusal, List.mem_singleton]
        exact Nat.max_le.mpr ⟨hcapacity, hn⟩
    · exact Nat.le_trans (Nat.le_of_not_lt hgrows) hcapacity

theorem succeeding_cons (b : Buffer) (step : Step) (steps : List Step) :
    b.succeeding (step :: steps) =
      b.succeeding [step] ++ (step.edit.perform b).2.succeeding steps := by
  rcases hperform : step.edit.perform b with ⟨_ | _, _⟩ <;> simp [succeeding, hperform]

theorem capacity_after_le (h : b.Sound) (steps : List Step) {bound : Nat}
    (hcapacity : b.capacity ≤ bound) (hreserve : ∀ n, .reserve n ∈ b.succeeding steps → n ≤ bound)
    (hlength : ∀ earlier, earlier <+: steps → 2 * (b.after earlier).content.length ≤ bound) :
    (b.after steps).capacity ≤ bound := by
  induction steps generalizing b with
  | nil => exact hcapacity
  | cons step steps ih =>
    rw [succeeding_cons] at hreserve
    refine ih (h.edit step) ?_ (fun n hn => hreserve n (List.mem_append_right _ hn)) ?_
    · refine capacity_edit_le h hcapacity (fun n hn => hreserve n (List.mem_append_left _ hn)) ?_
      exact hlength [step] (List.prefix_append _ _)
    · intro earlier hearlier
      exact hlength (step :: earlier) (List.cons_prefix_cons.mpr ⟨rfl, hearlier⟩)

theorem create_eq_ok {capacity : Nat} (h : create capacity = .ok b) :
    b = ⟨[], capacity⟩ ∧ b.Sound := by
  rw [create, perform_allocate] at h
  split at h
  · cases h
  · by_cases hle : capacity ≤ maxCapacity
    · rw [if_pos hle] at h
      obtain rfl := Except.ok.inj h
      exact ⟨rfl, Nat.zero_le _, hle⟩
    · rw [if_neg hle] at h
      cases h

/-- **A buffer behaves as a plain list of bytes**, after any steps from a new one. Its content is what
the steps that succeed make of the empty list, and fits the capacity; the capacity stays within the
first one, the largest reserved one and twice the largest length there ever was; and each next step
follows the list, or is refused without a change. -/
theorem history_of_create {capacity : Nat} (h : create capacity = .ok b) (steps : List Step) :
    (b.after steps).content = (b.succeeding steps).foldl (fun s step => step.change s) [] ∧
      (b.after steps).content.length ≤ (b.after steps).capacity ∧
      (∀ bound, capacity ≤ bound → (∀ n, .reserve n ∈ b.succeeding steps → n ≤ bound) →
        (∀ earlier, earlier <+: steps → 2 * (b.after earlier).content.length ≤ bound) →
        (b.after steps).capacity ≤ bound) ∧
      ∀ step : Step, step.Follows (b.after steps) := by
  obtain ⟨rfl, hsound⟩ := create_eq_ok h
  have hafter := hsound.after steps
  exact ⟨content_after hsound steps, hafter.length_le,
    fun _ hcapacity => capacity_after_le hsound steps hcapacity,
    fun step => step.follows_of_sound hafter⟩

/-- Steps of which two are refused: an insertion past the end, and a reservation of too much. -/
def mixed : List Step :=
  [.write [97, 99, 101], .insert [98] 1, .insert [122] 99, .reserve (maxCapacity + 1),
    .writeFormat (.literal "de"), .truncate 4, .reserve 20, .writeCounted [33, 33]]

theorem history_mixed :
    create 4 = .ok ⟨[], 4⟩ ∧ (after ⟨[], 4⟩ mixed).content = [97, 98, 99, 101, 33, 33] ∧
      (after ⟨[], 4⟩ mixed).capacity ≤ 20 ∧
      Edit.perform (Step.edit (.insert [0] 7)) (after ⟨[], 4⟩ mixed) =
        (.error (.refused (.outOfRange 7 6)), after ⟨[], 4⟩ mixed) := by
  have hcreate : create 4 = .ok ⟨[], 4⟩ := rfl
  obtain ⟨hcontent, -, hbound, hfollows⟩ := history_of_create hcreate mixed
  have hreserve : ∀ step ∈ succeeding ⟨[], 4⟩ mixed, ∀ n, step = .reserve n → n = 20 := by
    rw [show succeeding ⟨[], 4⟩ mixed = [.write [97, 99, 101], .insert [98] 1,
      .writeFormat (.literal "de"), .truncate 4, .reserve 20, .writeCounted [33, 33]] by decide]
    simp
  have hlength : ∀ earlier ∈ mixed.inits, 2 * (after ⟨[], 4⟩ earlier).content.length ≤ 20 := by
    decide
  refine ⟨hcreate, hcontent.trans (by decide), hbound 20 (by decide) ?_ ?_, ?_⟩
  · intro n hn
    exact Nat.le_of_eq (hreserve _ hn n rfl)
  · intro earlier hearlier
    exact hlength earlier ((List.mem_inits earlier mixed).mpr hearlier)
  · exact (hfollows _).refused _ (by decide)

end Bytework.Buffer
