import Bytework.Proofs.Directory.Custody

/-!
# A log of open directories

A platform that writes down what is done with the directories it opens.

* `Deed`: what is done with an open directory; `Platform.recorded`: a platform with a log.
* `Tidy`: the log while some directories are open; `InOrder`: the log when all is done.
* **`custody_recorded`**: walks on the two platforms give the same, and their log is tidy.
-/

namespace Bytework

open Bytework.Action

variable {σ η α : Type}

/-- What is done with an open directory. Those that are opened are numbered. -/
inductive Deed
  | opened (id : Nat) (path : Path)
  | read (id : Nat)
  | closed (id : Nat)
  deriving DecidableEq, Repr

namespace Deed

/-- The number of the open directory. -/
def id : Deed → Nat
  | opened id _ | read id | closed id => id

/-- Whether a directory is opened. -/
def isOpening : Deed → Bool
  | opened .. => true
  | _ => false

/-- How many directories were opened: the number of the next one. -/
def count (log : List Deed) : Nat := log.countP isOpening

/-- What was done with one open directory. -/
def about (log : List Deed) (id : Nat) : List Deed := log.filter (·.id == id)

/-- A directory was opened, and since then it was read at most. -/
def Pending (log : List Deed) (id : Nat) : Prop :=
  ∃ p n, about log id = opened id p :: List.replicate n (read id)

/-- A directory was opened, perhaps read, and then given back; nothing was done with it after that. -/
def Settled (log : List Deed) (id : Nat) : Prop :=
  ∃ p n, about log id = opened id p :: (List.replicate n (read id) ++ [closed id])

/-- A computation that is noted in the log. -/
def noting (note : List Deed → List Deed) (a : Action σ α) : Action (σ × List Deed) α :=
  .of fun (s, log) => let (r, s) := a.apply s; (r, (s, note log))

end Deed

open Deed in
/-- A platform with a log of what is done with open directories beside its state. -/
def Platform.recorded (platform : Platform σ η) : Platform (σ × List Deed) (Nat × η) where
  stat p := noting id (platform.stat p)
  lstat p := noting id (platform.lstat p)
  opendir p := .of fun (s, log) =>
    match (platform.opendir p).apply s with
    | (.ok handle, s) => (.ok (count log, handle), (s, log ++ [opened (count log) p]))
    | (.error e, s) => (.error e, (s, log))
  readdir handle := do
    match ← noting (· ++ [read handle.1]) (platform.readdir handle.2) with
    | none => return none
    | some (entry, h) => return some (entry, (handle.1, h))
  closedir handle := noting (· ++ [closed handle.1]) (platform.closedir handle.2)
  mkdir p mode := noting id (platform.mkdir p mode)
  rmdir p := noting id (platform.rmdir p)
  rename a b := noting id (platform.rename a b)
  unlink p := noting id (platform.unlink p)
  chmod p mode := noting id (platform.chmod p mode)
  symlink target p := noting id (platform.symlink target p)
  readlink p := noting id (platform.readlink p)
  link target p := noting id (platform.link target p)
  copyFile a b := noting id (platform.copyFile a b)
  getcwd := noting id platform.getcwd
  realpath p := noting id (platform.realpath p)
  tempDir s := platform.tempDir s.1
  extent s := platform.extent s.1

/-! ## The log -/

/-- The log while the given directories are open. -/
structure Tidy (log : List Deed) (held : List Nat) : Prop where
  nodup : held.Nodup
  known : ∀ deed ∈ log, deed.id < Deed.count log
  pending : ∀ id ∈ held, Deed.Pending log id
  settled : ∀ id < Deed.count log, id ∉ held → Deed.Settled log id

/-- The log of work that is done: nothing was done with a directory that was not opened, and every one
that was opened was given back once and not read after that. -/
structure InOrder (log : List Deed) : Prop where
  known : ∀ deed ∈ log, deed.id < Deed.count log
  settled : ∀ id < Deed.count log, Deed.Settled log id

namespace Deed

variable {log : List Deed} {deed : Deed} {id : Nat}

theorem count_append : count (log ++ [deed]) = count log + if deed.isOpening then 1 else 0 := by
  rw [count, List.countP_append, List.countP_singleton, count]

theorem about_append_self (log : List Deed) (deed : Deed) :
    about (log ++ [deed]) deed.id = about log deed.id ++ [deed] := by
  simp [about]

theorem about_append_other (h : deed.id ≠ id) : about (log ++ [deed]) id = about log id := by
  simp [about, h]

theorem about_eq_nil (h : ∀ deed ∈ log, deed.id < id) : about log id = [] := by
  rw [about, List.filter_eq_nil_iff]
  intro deed hd
  simpa using Nat.ne_of_lt (h deed hd)

theorem Pending.lt_count (h : Pending log id) (hknown : ∀ deed ∈ log, deed.id < count log) : id < count log := by
  obtain ⟨p, n, habout⟩ := h
  have hmem : opened id p ∈ about log id := habout ▸ List.mem_cons_self
  exact hknown _ (List.mem_of_mem_filter hmem)

end Deed

namespace Tidy

variable {log : List Deed} {held : List Nat} {id : Nat}

open Deed

theorem nil : Tidy [] [] := ⟨List.nodup_nil, by simp, by simp, by simp [Deed.count]⟩

theorem inOrder (h : Tidy log []) : InOrder log := ⟨h.known, fun id hid => h.settled id hid (by simp)⟩

/-- What was done with other directories stays. -/
theorem others (h : Tidy log held) (deed : Deed) (hclosed : deed.isOpening = false) :
    (∀ d ∈ log ++ [deed], deed.id < count log → d.id < count (log ++ [deed])) ∧
    (∀ id ∈ held, deed.id ≠ id → Pending (log ++ [deed]) id) ∧
    ∀ id < count (log ++ [deed]), id ∉ held → deed.id ≠ id → Settled (log ++ [deed]) id := by
  have hcount : count (log ++ [deed]) = count log := by rw [count_append, hclosed]; rfl
  refine ⟨fun d hd hlt => ?_, fun id hid hne => ?_, fun id hid hnot hne => ?_⟩
  · rw [hcount]
    rcases List.mem_append.mp hd with hd | hd
    · exact h.known d hd
    · rwa [List.mem_singleton.mp hd]
  · rw [Pending, about_append_other hne]
    exact h.pending id hid
  · rw [Settled, about_append_other hne]
    exact h.settled id (hcount ▸ hid) hnot

theorem opened (h : Tidy log held) (p : Path) : Tidy (log ++ [.opened (count log) p]) (count log :: held) := by
  have hcount : count (log ++ [.opened (count log) p]) = count log + 1 := count_append
  have hlt : ∀ id ∈ held, id < count log := fun id hid => (h.pending id hid).lt_count h.known
  refine ⟨List.nodup_cons.mpr ⟨fun hmem => Nat.lt_irrefl _ (hlt _ hmem), h.nodup⟩, fun d hd => ?_, ?_,
    fun id hid hnot => ?_⟩
  · rw [hcount]
    rcases List.mem_append.mp hd with hd | hd
    · exact Nat.lt_succ_of_lt (h.known d hd)
    · rw [List.mem_singleton.mp hd]
      exact Nat.lt_succ_self _
  · refine List.forall_mem_cons.mpr ⟨⟨p, 0, ?_⟩, fun id hid => ?_⟩
    · have habout := about_append_self log (.opened (count log) p)
      have hnil : about log (Deed.opened (count log) p).id = [] := about_eq_nil h.known
      rwa [hnil] at habout
    · rw [Pending, about_append_other (Nat.ne_of_gt (hlt id hid))]
      exact h.pending id hid
  · have hne := List.ne_of_not_mem_cons hnot
    rw [Settled, about_append_other (Ne.symm hne)]
    exact h.settled id (by omega) (List.not_mem_of_not_mem_cons hnot)

theorem read (h : Tidy log (id :: held)) : Tidy (log ++ [.read id]) (id :: held) := by
  have hlt : id < count log := (h.pending id List.mem_cons_self).lt_count h.known
  obtain ⟨hknown, hpending, hsettled⟩ := h.others (.read id) rfl
  refine ⟨h.nodup, fun d hd => hknown d hd hlt, fun k hk => ?_, fun k hk hnot => ?_⟩
  · by_cases hne : id = k
    · subst hne
      obtain ⟨p, n, habout⟩ := h.pending id hk
      refine ⟨p, n + 1, ?_⟩
      have hself := about_append_self log (.read id)
      rw [Deed.id, habout] at hself
      rw [hself, List.replicate_succ', List.cons_append]
    · exact hpending k hk hne
  · exact hsettled k hk hnot (List.ne_of_not_mem_cons hnot).symm

theorem closed (h : Tidy log (id :: held)) : Tidy (log ++ [.closed id]) held := by
  have hlt : id < count log := (h.pending id List.mem_cons_self).lt_count h.known
  obtain ⟨hknown, hpending, hsettled⟩ := h.others (.closed id) rfl
  obtain ⟨hnew, hnodup⟩ := List.nodup_cons.mp h.nodup
  refine ⟨hnodup, fun d hd => hknown d hd hlt, fun k hk => ?_, fun k hk hnot => ?_⟩
  · exact hpending k (List.mem_cons_of_mem _ hk) fun hne => hnew (show id ∈ held from (show id = k from hne) ▸ hk)
  · by_cases hne : id = k
    · subst hne
      obtain ⟨p, n, habout⟩ := h.pending id List.mem_cons_self
      refine ⟨p, n, ?_⟩
      have hself := about_append_self log (.closed id)
      rw [Deed.id, habout] at hself
      rw [hself, List.cons_append]
    · exact hsettled k hk (List.not_mem_cons_of_ne_of_not_mem (Ne.symm hne) hnot) hne

end Tidy

/-! ## Walks with a log -/

/-- A state with its open directories, and the same with a log that fits. -/
def Recorded (s : σ) (held : List η) (t : σ × List Deed) (held' : List (Nat × η)) : Prop :=
  s = t.1 ∧ held = held'.map Prod.snd ∧ Tidy t.2 (held'.map Prod.fst)

theorem apply_noting {β : Type} {a : Action σ β} {s s' : σ} {log : List Deed} {note : List Deed → List Deed}
    {r : Except Failure β} (h : a.apply s = (r, s')) :
    (Deed.noting note a).apply (s, log) = (r, (s', note log)) := by
  have hrun : (Deed.noting note a).apply (s, log) = ((a.apply s).1, ((a.apply s).2, note log)) := rfl
  rw [hrun, h]

theorem alike_noting {β : Type} (a : Action σ β) (note : List Deed → List Deed) {s : σ} {log : List Deed}
    {good : β → β → σ → σ × List Deed → Prop} {bad : σ → σ × List Deed → Prop}
    (hg : ∀ x s', good x x s' (s', note log)) (hb : ∀ s', bad s' (s', note log)) :
    a.Alike s (Deed.noting note a) (s, log) good bad := by
  match ha : a.apply s with
  | (.ok x, s') => exact .of_ok ha (apply_noting ha) (hg x s')
  | (.error e, s') => exact .of_error ha (apply_noting ha) (hb s')

theorem apply_opendir_ok {platform : Platform σ η} {p : Path} {s s' : σ} {handle : η} {log : List Deed}
    (h : (platform.opendir p).apply s = (.ok handle, s')) :
    (platform.recorded.opendir p).apply (s, log) =
      (.ok (Deed.count log, handle), (s', log ++ [.opened (Deed.count log) p])) := by
  simp only [Platform.recorded, apply_of, h]

theorem apply_opendir_error {platform : Platform σ η} {p : Path} {s s' : σ} {e : Failure} {log : List Deed}
    (h : (platform.opendir p).apply s = (.error e, s')) :
    (platform.recorded.opendir p).apply (s, log) = (.error e, (s', log)) := by
  simp only [Platform.recorded, apply_of, h]

/-- The log changes no answer, and every call keeps it tidy. -/
theorem custody_recorded (platform : Platform σ η) : Custody platform platform.recorded Recorded := by
  refine ⟨?_, ?_, ?_, ?_, ?_, ?_, ?_⟩
  · rintro s _ ⟨_, log⟩ held ⟨rfl, rfl, -⟩
    exact List.length_map _
  · rintro s _ ⟨_, log⟩ held ⟨rfl, -, -⟩
    rfl
  · rintro s _ ⟨_, log⟩ held p ⟨rfl, rfl, htidy⟩
    exact alike_noting _ id (fun _ _ => ⟨rfl, rfl, rfl, htidy⟩) fun _ => ⟨rfl, rfl, htidy⟩
  · rintro s _ ⟨_, log⟩ held p ⟨rfl, rfl, htidy⟩
    exact alike_noting _ id (fun _ _ => ⟨rfl, rfl, rfl, htidy⟩) fun _ => ⟨rfl, rfl, htidy⟩
  · rintro s _ ⟨_, log⟩ held p ⟨rfl, rfl, htidy⟩
    match ha : (platform.opendir p).apply s with
    | (.ok handle, s') =>
      exact .of_ok ha (apply_opendir_ok ha) ⟨rfl, rfl, htidy.opened p⟩
    | (.error e, s') =>
      exact .of_error ha (apply_opendir_error ha) ⟨rfl, rfl, htidy⟩
  · rintro s _ _ ⟨_, log⟩ ⟨k, h⟩ held ⟨rfl, hheld, htidy⟩
    cases hheld
    match ha : (platform.readdir h).apply s with
    | (.ok none, s') =>
      exact .of_ok ha (apply_bind_ok (apply_noting ha)) (show Recorded _ _ _ _ from ⟨rfl, rfl, htidy.read⟩)
    | (.ok (some (entry, h')), s') =>
      exact .of_ok ha (apply_bind_ok (apply_noting ha))
        (show entry = entry ∧ Recorded _ _ _ _ from ⟨rfl, rfl, rfl, htidy.read⟩)
    | (.error e, s') => exact .of_error ha (apply_bind_error (apply_noting ha)) ⟨rfl, rfl, htidy.read⟩
  · rintro s _ _ ⟨_, log⟩ ⟨k, h⟩ held ⟨rfl, hheld, htidy⟩
    cases hheld
    match ha : (platform.closedir h).apply s with
    | (.ok (), s') => exact .of_ok ha (apply_noting ha) ⟨rfl, rfl, htidy.closed⟩
    | (.error e, s') => exact .of_error ha (apply_noting ha) ⟨rfl, rfl, htidy.closed⟩

end Bytework
