import Bytework.Proofs.Volume.Preorder
import Bytework.Proofs.Volume.Effects

/-!
# The same tree in another order

Two volumes that hold the same objects at the same places, and may list them in different orders.

* `SameTree`: two such volumes; `SameTree.reach`, `SameTree.list`: every path means the same in both.
* `SameTree.perm_names`, `SameTree.perm_descendants`: what is listed is the same but for the order.
-/

namespace Bytework.Volume

variable {v v' : Volume} {follow : Bool} {base place start w : Place} {names : List Name} {p : Path}

theorem travel_nil (v : Volume) (follow : Bool) (links : Nat) (base : Place) :
    v.travel follow links base [] = .ok base := by
  rw [travel, stride, Stop.arrival, List.reverse_reverse]

/-- Two volumes hold the same tree: the same stands at every place, in whatever order it is listed. Paths start and
end by the same rules. -/
structure SameTree (v v' : Volume) : Prop where
  cwd : v'.cwd = v.cwd
  rules : v'.rules = v.rules
  object : ∀ w, v'.object? w = v.object? w

namespace SameTree

variable (h : SameTree v v')

include h

theorem isDirectory (w : Place) : v'.isDirectory w = v.isDirectory w := by
  rw [Volume.isDirectory, Volume.isDirectory, h.object]

theorem asks (p : Path) : v'.asks p = v.asks p := by rw [Volume.asks, h.rules, ← Volume.asks]

theorem directoryAt (w : Place) : v'.directoryAt w = v.directoryAt w := by
  rw [Volume.directoryAt, Volume.directoryAt, h.isDirectory, h.object]

theorem landing (target : Path) (ahead : List Name) : v'.landing target ahead = v.landing target ahead := by
  funext place
  rw [Volume.landing, Volume.landing, h.asks, h.directoryAt]

theorem settle (p : Path) : v'.settle p = v.settle p := by
  funext place
  rw [Volume.settle, Volume.settle, h.asks, h.object, h.directoryAt]

theorem vacant_iff (hs : v.Sound) (hs' : v'.Sound) : v'.Vacant w ↔ v.Vacant w := by
  rw [Vacant, ← hs'.object?_eq_none, h.object, hs.object?_eq_none, Vacant]

/-- A name is found in one of the volumes with the content that it has in the other one. -/
theorem find? (hs : v.Sound) (hs' : v'.Sound) {branch branch' : Branch} (hb : v.branch? place = some branch)
    (hb' : v'.branch? place = some branch') (name : Name) :
    branch.inner.find? name = none ∧ branch'.inner.find? name = none ∨
      ∃ inner inner', branch.inner.find? name = some inner ∧ branch'.inner.find? name = some inner' ∧
        v'.content? inner'.number = v.content? inner.number ∧ v.branch? (place ++ [name]) = some inner ∧
        v'.branch? (place ++ [name]) = some inner' := by
  have hvacant := h.vacant_iff (w := place ++ [name]) hs hs'
  have hcontent := object?_concat hb name
  have hcontent' := object?_concat hb' name
  rw [h.object] at hcontent'
  cases hfind : branch.inner.find? name with
  | none =>
    cases hfind' : branch'.inner.find? name with
    | none => exact .inl ⟨rfl, rfl⟩
    | some inner' =>
      have hv' := hvacant.mpr (vacant_concat hb hfind)
      rw [Vacant, number?, branch?_concat hb' hfind'] at hv'
      exact absurd hv' (by simp)
  | some inner =>
    cases hfind' : branch'.inner.find? name with
    | none =>
      have hv := hvacant.mp (vacant_concat hb' hfind')
      rw [Vacant, number?, branch?_concat hb hfind] at hv
      exact absurd hv (by simp)
    | some inner' =>
      rw [hfind, Option.bind_some] at hcontent
      rw [hfind', Option.bind_some, hcontent] at hcontent'
      exact .inr ⟨inner, inner', rfl, rfl, hcontent'.symm, branch?_concat hb hfind, branch?_concat hb' hfind'⟩

theorem stride (hs : v.Sound) (hs' : v'.Sound) {passed : List Name} {branch branch' : Branch}
    (hb : v.branch? passed.reverse = some branch) (hb' : v'.branch? passed.reverse = some branch')
    (hd : v.isDirectory passed.reverse) :
    v'.stride follow passed branch' names = v.stride follow passed branch names := by
  induction names generalizing passed branch branch' with
  | nil => rfl
  | cons name ahead ih =>
    rw [Volume.stride, Volume.stride]
    by_cases hup : name = Path.up
    · rw [if_pos hup, if_pos hup]
      obtain ⟨hparent, hd'⟩ := branch?_parent hs hd
      obtain ⟨hparent', -⟩ := branch?_parent hs' ((h.isDirectory _).trans hd)
      exact ih hparent hparent' hd'
    · rw [if_neg hup, if_neg hup]
      rcases h.find? hs hs' hb hb' name with ⟨hfind, hfind'⟩ | ⟨inner, inner', hfind, hfind', hc, hi, hi'⟩
      · rw [hfind, hfind']
      · simp only [hfind, hfind', hc]
        have hcontent := object?_concat hb name
        rw [hfind, Option.bind_some] at hcontent
        rw [← List.reverse_cons] at hi hi' hcontent
        split
        case h_1 hdir => exact ih hi hi' (isDirectory_iff_content.mpr (hcontent.trans hdir))
        case h_2 => rfl
        case h_3 => rfl

theorem travel (hs : v.Sound) (hs' : v'.Sound) {links : Nat} (hd : v.isDirectory base) :
    v'.travel follow links base names = v.travel follow links base names := by
  have hstep {base : Place} {names : List Name} (hd : v.isDirectory base) :
      v'.stride follow base.reverse (v'.branch base) names = v.stride follow base.reverse (v.branch base) names := by
    refine h.stride hs hs' ?_ ?_ ?_ <;> rw [List.reverse_reverse]
    · exact branch?_eq_branch (isSome_number?_of_isDirectory hd)
    · exact branch?_eq_branch (isSome_number?_of_isDirectory ((h.isDirectory base).trans hd))
    · exact hd
  induction links generalizing base names with
  | zero => rw [Volume.travel, Volume.travel, hstep hd]
  | succ links ih =>
    rw [Volume.travel, Volume.travel, hstep hd]
    cases hstride : v.stride follow base.reverse (v.branch base) names with
    | error => rfl
    | ok stop =>
      cases stop with
      | done => rfl
      | link directory target ahead =>
        have hdirectory := (on_of_stride_branch hs hd hstride).1
        simp only [ih (hs.isDirectory_origin hdirectory), h.landing]

theorem along (hs : v.Sound) (hs' : v'.Sound) : v'.along base follow p = v.along base follow p := by
  rw [Volume.along, Volume.along, h.isDirectory]
  cases hn : p.names with
  | nil => rw [travel_nil, travel_nil]
  | cons name names =>
    by_cases hd : v.isDirectory (origin base p)
    · rw [h.travel hs hs' hd]
    · simp [hd]

theorem reachFrom (hs : v.Sound) (hs' : v'.Sound) : v'.reachFrom base follow p = v.reachFrom base follow p := by
  rw [Volume.reachFrom, Volume.reachFrom, h.along hs hs', h.asks, h.settle]

theorem workingPlace (hs : v.Sound) (hs' : v'.Sound) : v'.workingPlace = v.workingPlace := by
  rw [Volume.workingPlace, Volume.workingPlace, h.cwd, h.reachFrom hs hs']
  cases v.reachFrom [] true v.cwd with
  | error => rfl
  | ok place =>
    show v'.existing place = v.existing place
    rw [existing, existing, h.object]

theorem reach (hs : v.Sound) (hs' : v'.Sound) : v'.reach follow p = v.reach follow p := by
  rw [reach_eq, reach_eq, baseOf, baseOf, h.workingPlace hs hs']
  refine congrArg _ (funext fun base => ?_)
  exact h.reachFrom hs hs'

/-- Where a path is no directory, this is for the same reason. -/
theorem list_error (hs : v.Sound) (hs' : v'.Sound) {e : Errno} (he : v.list p = .error e) : v'.list p = .error e := by
  rw [Volume.list, find, h.reach hs hs']
  rw [Volume.list, find] at he
  cases hr : v.reach true p with
  | error => rwa [hr] at he
  | ok place =>
    rw [hr] at he
    simp only [bind, Except.bind, h.object] at he ⊢
    cases ho : v.object? place with
    | none => rwa [ho] at he
    | some object =>
      rw [ho] at he
      simp only [pure, Except.pure] at he ⊢
      split at he
      case isTrue => exact absurd he (by simp)
      case isFalse hc => rw [if_neg hc]; exact he

theorem perm_names (hs : v.Sound) (hs' : v'.Sound) (place : Place) : (v.names place).Perm (v'.names place) := by
  refine (List.perm_ext_iff_of_nodup (hs.distinct place) (hs'.distinct place)).mpr fun name => ?_
  rw [mem_names, mem_names, Option.isSome_iff_ne_none, Option.isSome_iff_ne_none]
  exact not_congr (h.vacant_iff hs hs').symm

theorem perm_descendants (hs : v.Sound) (hs' : v'.Sound) (hd : v.isDirectory start) (keep : Place → Bool) :
    (v.descendants start keep).Perm (v'.descendants start keep) := by
  have hd' := (h.isDirectory start).trans hd
  refine (List.perm_ext_iff_of_nodup (nodup_descendants hs hd) (nodup_descendants hs' hd')).mpr fun w => ?_
  rw [mem_descendants hs hd, mem_descendants hs' hd', h.vacant_iff hs hs']

end SameTree

end Bytework.Volume
