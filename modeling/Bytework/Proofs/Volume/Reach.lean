import Bytework.Proofs.Volume.Ways

/-!
# Where paths are resolved

A path that is resolved leads where it is resolved to, and the last link on it is followed or left alone.

* `Stop.On`, `on_of_stride`: a walk along names up to the first link or the end.
* `way_of_travel`: from link to link.
* **`leads_of_reach`**: where a path can be resolved, it leads there over what exists.
* `reach_unfollowed`, `reach_followed`: the same path with its last link left alone, and followed.
-/

namespace Bytework

theorem exists_of_bind_eq_ok {ε α β : Type} {x : Except ε α} {f : α → Except ε β} {b : β}
    (h : x >>= f = .ok b) : ∃ a, x = .ok a ∧ f a = .ok b := by
  cases x with
  | error => exact absurd h (by simp [bind, Except.bind])
  | ok a => exact ⟨a, rfl, h⟩

theorem throw_ne_ok {ε α : Type} {e : ε} {a : α} : (throw e : Except ε α) ≠ .ok a := nofun

namespace Volume

variable {v : Volume} {follow : Bool} {base goal place : Place} {name : Name} {names ahead : List Name}
  {p q : Path} {target : Path}

/-! ## Resolution -/

theorem object?_concat {branch : Branch} (hb : v.branch? place = some branch) (name : Name) :
    (v.object? (place ++ [name])).map (·.content) =
      (branch.inner.find? name).bind fun inner => v.content? inner.number := by
  rw [object?, number?, branch?_append, hb, Option.bind_some, Branch.at?]
  cases branch.inner.find? name <;> rfl

theorem vacant_concat {branch : Branch} (hb : v.branch? place = some branch)
    (hnone : branch.inner.find? name = none) : v.Vacant (place ++ [name]) := by
  rw [Vacant, number?, branch?_append, hb, Option.bind_some, Branch.at?, hnone]
  rfl

theorem branch?_concat {branch inner : Branch} (hb : v.branch? place = some branch)
    (hi : branch.inner.find? name = some inner) : v.branch? (place ++ [name]) = some inner := by
  rw [branch?_append, hb, Option.bind_some, Branch.at?, hi]
  rfl

/-- Where a walk along names stops is on a way: at its end, or at a link from which it leads on. -/
def Stop.On (v : Volume) (follow : Bool) (base : Place) (names : List Name) : Stop → Prop
  | .done goal => Way v v.Vacant follow base names goal
  | .link directory target ahead => v.isDirectory directory ∧
      ∀ goal, Way v v.Vacant follow (origin directory target) (target.names ++ ahead) goal →
        Way v v.Vacant follow base names goal

theorem Stop.On.extend {base' : Place} {names' : List Name} {stop : Stop}
    (h : stop.On v follow base' names')
    (hw : ∀ goal, Way v v.Vacant follow base' names' goal → Way v v.Vacant follow base names goal) :
    stop.On v follow base names := by
  cases stop with
  | done => exact hw _ h
  | link => exact ⟨h.1, fun goal hg => hw goal (h.2 goal hg)⟩

theorem branch?_eq_branch (h : (v.number? place).isSome) : v.branch? place = some (v.branch place) := by
  obtain ⟨b, hb⟩ := Option.isSome_iff_exists.mp (Option.isSome_map.symm.trans h)
  rw [Volume.branch, hb, Option.getD_some]

theorem branch?_parent (hs : v.Sound) {passed : List Name} (hd : v.isDirectory passed.reverse) :
    v.branch? passed.tail.reverse = some (v.branch passed.tail.reverse) ∧ v.isDirectory passed.tail.reverse := by
  have hparent : v.isDirectory passed.tail.reverse := by
    rw [← List.dropLast_reverse]
    exact hs.isDirectory_dropLast hd
  exact ⟨branch?_eq_branch (isSome_number?_of_isDirectory hparent), hparent⟩

theorem on_of_stride (hs : v.Sound) {passed : List Name} {branch : Branch} {stop : Stop}
    (hb : v.branch? passed.reverse = some branch) (hd : v.isDirectory passed.reverse)
    (h : v.stride follow passed branch names = .ok stop) : stop.On v follow passed.reverse names := by
  -- along the names; only at a link does the walk stop before their end
  induction names generalizing passed branch with
  | nil =>
    obtain rfl := Except.ok.inj h
    exact .stay _
  | cons name ahead ih =>
    rw [stride] at h
    split at h
    case isTrue hup =>
      subst hup
      obtain ⟨hparent, hdirectory⟩ := branch?_parent hs hd
      refine (ih hparent hdirectory h).extend fun goal hw => .up ?_
      rwa [List.dropLast_reverse]
    case isFalse hup =>
      have hcontent := object?_concat hb name
      have harrive (ha : ahead.isEmpty) (hl : follow → ∀ target, ¬ v.Links (passed.reverse ++ [name]) target) :
          (Stop.arrival (name :: passed)).On v follow passed.reverse (name :: ahead) := by
        rw [List.isEmpty_iff.mp ha, Stop.arrival, Stop.On, List.reverse_cons]
        exact .arrive hup hl
      cases hfind : branch.inner.find? name with
      | none =>
        simp only [hfind, Option.bind_none] at h hcontent
        split at h
        case isTrue ha =>
          obtain rfl := Except.ok.inj h
          exact harrive ha fun _ target hl => by simp [links_iff, hcontent] at hl
        case isFalse => exact absurd h (by simp)
      | some inner =>
        have hb' := branch?_concat hb hfind
        rw [hfind, Option.bind_some] at hcontent
        simp only [hfind] at h
        split at h
        case h_1 hc =>
          rw [hc] at hcontent
          have hd' : v.isDirectory (passed.reverse ++ [name]) := isDirectory_iff_content.mpr hcontent
          rw [← List.reverse_cons] at hd' hb'
          refine (ih hb' hd' h).extend fun goal hw => ?_
          rw [List.reverse_cons] at hw hd'
          rcases ahead with _ | ⟨next, ahead⟩
          · cases hw
            exact .arrive hup fun _ _ hl => hl.not_passable (passable_of_isDirectory hd')
          · exact .enter hup (List.cons_ne_nil _ _)
              (not_vacant_of_isDirectory hd')
              (passable_of_isDirectory hd') hw
        case h_2 target hc =>
          rw [hc] at hcontent
          have hl := links_iff.mpr hcontent
          split at h
          case isTrue ha =>
            obtain ⟨ha, hf⟩ := Bool.and_eq_true_iff.mp ha
            obtain rfl := Except.ok.inj h
            exact harrive ha fun hf' => absurd hf (by simp [hf'])
          case isFalse ha =>
            obtain rfl := Except.ok.inj h
            have hstands : ¬ v.Vacant (passed.reverse ++ [name]) := by
              simp [Vacant, number?, hb']
            refine ⟨hd, fun goal hw => .turn hup ?_ hstands hl hw⟩
            rw [Bool.and_eq_true_iff, not_and_or] at ha
            exact ha.imp (fun ha he => ha (List.isEmpty_iff.mpr he)) (by simp)
        case h_3 hlink =>
          split at h
          case isTrue ha =>
            obtain rfl := Except.ok.inj h
            exact harrive ha fun _ target hl => hlink target (hcontent.symm.trans (links_iff.mp hl))
          case isFalse => exact absurd h (by simp)

theorem on_of_stride_branch (hs : v.Sound) {stop : Stop} (hd : v.isDirectory base)
    (h : v.stride follow base.reverse (v.branch base) names = .ok stop) :
    stop.On v follow base names := by
  rw [← List.reverse_reverse base] at hd ⊢
  refine on_of_stride hs ?_ hd h
  rw [branch?_eq_branch (isSome_number?_of_isDirectory hd), List.reverse_reverse]

theorem directoryAt_eq_ok : v.directoryAt place = .ok goal ↔ place = goal ∧ v.isDirectory place := by
  unfold directoryAt
  split
  case isTrue hd => simp [hd]
  case isFalse hd => split <;> simp [hd]

theorem landing_eq_ok :
    v.landing target ahead place = .ok goal ↔
      place = goal ∧ (ahead = [] → v.asks target → v.isDirectory place) := by
  unfold landing
  split
  case isTrue hc =>
    obtain ⟨hahead, hasks⟩ := Bool.and_eq_true_iff.mp hc
    simp [directoryAt_eq_ok, List.isEmpty_iff.mp hahead, hasks]
  case isFalse hc =>
    simp only [Except.ok.injEq, iff_self_and]
    intro _ hahead hasks
    exact absurd (by simp [hahead, hasks]) hc

theorem bind_landing (h : ahead ≠ []) (x : Except Errno Place) : x >>= v.landing target ahead = x := by
  cases x with
  | error => rfl
  | ok => exact landing_eq_ok.mpr ⟨rfl, fun he => absurd he h⟩

theorem settle_eq_ok : v.settle p place = .ok goal ↔ place = goal ∧ v.Settles p place := by
  unfold settle Settles
  split
  case isTrue hc =>
    obtain ⟨hasks, hc⟩ := Bool.and_eq_true_iff.mp hc
    rw [directoryAt_eq_ok]
    refine and_congr_right fun _ => ⟨fun hd _ => .inl hd, fun h => (h hasks).resolve_right ?_⟩
    rintro ⟨hnone, hdot⟩
    simp [hnone, hdot] at hc
  case isFalse hc =>
    simp only [Except.ok.injEq, iff_self_and]
    intro _ hasks
    rw [hasks, Bool.true_and, Bool.or_eq_true, not_or] at hc
    exact .inr ⟨by simpa using hc.2, by simpa using hc.1⟩

theorem way_of_travel (hs : v.Sound) {links : Nat} (hd : v.isDirectory base)
    (h : v.travel follow links base names = .ok goal) : Way v v.Vacant follow base names goal := by
  induction links generalizing base names with
  | zero =>
    rw [travel] at h
    split at h
    case h_1 => exact absurd h (by simp)
    case h_2 place hstride =>
      obtain rfl := Except.ok.inj h
      exact on_of_stride_branch hs hd hstride
    case h_3 => exact absurd h (by simp)
  | succ links ih =>
    rw [travel] at h
    split at h
    case h_1 => exact absurd h (by simp)
    case h_2 place hstride =>
      obtain rfl := Except.ok.inj h
      exact on_of_stride_branch hs hd hstride
    case h_3 directory target ahead hstride =>
      obtain ⟨hdirectory, hway⟩ := on_of_stride_branch hs hd hstride
      simp only at h
      split at h
      case isTrue => exact absurd h (by simp)
      case isFalse =>
        obtain ⟨place, htravel, hland⟩ := exists_of_bind_eq_ok h
        obtain ⟨rfl, -⟩ := landing_eq_ok.mp hland
        exact hway place (ih (hs.isDirectory_origin hdirectory) htravel)

theorem way_of_along (hs : v.Sound) (h : v.along base follow p = .ok goal) :
    Way v v.Vacant follow (origin base p) p.names goal ∧
      (p.names ≠ [] → v.isDirectory (origin base p)) := by
  rw [along] at h
  split at h
  case isTrue => exact absurd h (by simp)
  case isFalse =>
    split at h
    case isTrue => exact absurd h (by simp)
    case isFalse hd =>
      have hd' : p.names ≠ [] → v.isDirectory (origin base p) := by simpa using hd
      refine ⟨?_, hd'⟩
      rcases List.eq_nil_or_concat p.names with hn | ⟨_, _, hn⟩
      · rw [hn, travel, stride, Stop.arrival, List.reverse_reverse] at h
        obtain rfl := Except.ok.inj h
        rw [hn]
        exact .stay _
      · exact way_of_travel hs (hd' (by simp [hn])) h

theorem reachFrom_eq_ok :
    v.reachFrom base follow p = .ok goal ↔ v.along base (v.follows follow p) p = .ok goal ∧ v.Settles p goal := by
  constructor
  · intro h
    obtain ⟨place, halong, h⟩ := exists_of_bind_eq_ok h
    obtain ⟨rfl, hsettles⟩ := settle_eq_ok.mp h
    exact ⟨halong, hsettles⟩
  · rintro ⟨halong, hsettles⟩
    show v.along base (v.follows follow p) p >>= v.settle p = _
    rw [halong]
    exact settle_eq_ok.mpr ⟨rfl, hsettles⟩

theorem reachFrom_of_asks (h : v.asks p = false) : v.reachFrom base follow p = v.along base follow p := by
  rw [reachFrom, h, Bool.or_false]
  cases v.along base follow p with
  | error => rfl
  | ok => exact settle_eq_ok.mpr ⟨rfl, fun ha => absurd (h.symm.trans ha) Bool.false_ne_true⟩

theorem way_of_reachFrom (hs : v.Sound) (h : v.reachFrom base follow p = .ok goal) :
    Way v v.Vacant (v.follows follow p) (origin base p) p.names goal ∧
      (p.names ≠ [] → v.isDirectory (origin base p)) :=
  way_of_along hs (reachFrom_eq_ok.mp h).1

theorem reach_eq (v : Volume) (follow : Bool) (p : Path) :
    v.reach follow p = v.baseOf p >>= fun base => v.reachFrom base follow p := rfl

theorem reach_eq_ok :
    v.reach follow p = .ok goal ↔
      ∃ base, v.baseOf p = .ok base ∧ v.along base (v.follows follow p) p = .ok goal ∧ v.Settles p goal := by
  constructor
  · intro h
    obtain ⟨base, hbase, h⟩ := exists_of_bind_eq_ok h
    exact ⟨base, hbase, reachFrom_eq_ok.mp h⟩
  · rintro ⟨base, hbase, h⟩
    rw [reach_eq, hbase]
    exact reachFrom_eq_ok.mpr h

section Congr

variable (hnames : q.names = p.names) (ha : q.isAbsolute = p.isAbsolute) (he : q.isEmpty = p.isEmpty)

include ha he

theorem baseOf_congr : v.baseOf q = v.baseOf p := by rw [baseOf, ha, he, ← baseOf]

include hnames

theorem along_congr : v.along base follow q = v.along base follow p := by
  rw [along, along, origin, origin, ha, he, hnames]

theorem reach_congr_of_isDirectory (h : v.reach true p = .ok place) (hd : v.isDirectory place) :
    v.reach true q = .ok place := by
  obtain ⟨base, hbase, halong, -⟩ := reach_eq_ok.mp h
  refine reach_eq_ok.mpr ⟨base, (baseOf_congr ha he).trans hbase, ?_, fun _ => .inl hd⟩
  exact (along_congr hnames ha he).trans halong

end Congr

theorem isEmpty_of_reach (h : v.reach follow p = .ok goal) : p.isEmpty = false := by
  obtain ⟨base, -, h, -⟩ := reach_eq_ok.mp h
  cases p with
  | nil => simp [along] at h
  | cons => rfl

theorem workingPlace_eq_ok (h : v.workingPlace = .ok base) :
    v.reachFrom [] true v.cwd = .ok base ∧ ¬ v.Vacant base := by
  obtain ⟨base', hreach, h⟩ := exists_of_bind_eq_ok h
  obtain ⟨hobject, rfl⟩ : (v.object? base').isSome ∧ base' = base := by
    simpa [existing, apply_ite, ite_eq_iff] using h
  obtain ⟨object, ho⟩ := Option.isSome_iff_exists.mp hobject
  exact ⟨hreach, not_vacant_of_object? ho⟩

/-- Where a path can be resolved, it leads there over what exists. -/
theorem leads_of_reach (hs : v.Sound) (h : v.reach follow p = .ok goal) :
    v.Leads v.Vacant follow p goal := by
  rw [Leads, route]
  cases ha : p.isAbsolute with
  | true =>
    have h : v.reachFrom [] follow p = .ok goal := by
      rwa [reach_eq, baseOf, ha, Bool.true_or, if_pos rfl] at h
    have hw := (way_of_reachFrom hs h).1
    rw [origin, ha, if_pos rfl] at hw
    cases hn : p.names with
    | nil =>
      rw [hn] at hw
      cases hw
      exact .stay _
    | cons => simpa [hn] using hw
  | false =>
    have hne := isEmpty_of_reach h
    have h : v.workingPlace >>= (fun base => v.reachFrom base follow p) = .ok goal := by
      rwa [reach_eq, baseOf, ha, hne, Bool.or_false, if_neg Bool.false_ne_true] at h
    obtain ⟨base, hb, h⟩ := exists_of_bind_eq_ok h
    obtain ⟨hcwd, -⟩ := way_of_reachFrom hs (workingPlace_eq_ok hb).1
    obtain ⟨hw, hd⟩ := way_of_reachFrom hs h
    rw [show origin [] v.cwd = [] by simp [origin]] at hcwd
    rw [origin, ha, if_neg Bool.false_ne_true] at hw hd
    rw [if_neg Bool.false_ne_true]
    -- the names of the working directory lead to it, and the path leads on from there
    rcases List.eq_nil_or_concat p.names with hn | ⟨_, _, hn⟩
    · rw [hn] at hw ⊢
      cases hw
      simpa using hcwd
    · have hn : p.names ≠ [] := by simp [hn]
      have hd := hd hn
      rw [List.isEmpty_eq_false_iff.mpr hn, Bool.or_false]
      exact hcwd.append (fun _ h => h) (not_vacant_of_isDirectory hd)
        (passable_of_isDirectory hd) hn hw

theorem not_links_of_reach (hs : v.Sound) (h : v.reach true p = .ok goal) : ¬ v.Links goal target :=
  Way.not_links hs (leads_of_reach hs h) hs.root

/-! ## The last link -/

theorem stride_unfollowed {passed : List Name} {branch : Branch} {stop : Stop}
    (h : v.stride true passed branch names = .ok stop) :
    v.stride false passed branch names = .ok stop ∨
      ∃ place, v.stride false passed branch names = .ok (.done place) := by
  induction names generalizing passed branch with
  | nil => exact .inl h
  | cons name ahead ih =>
    rw [stride] at h ⊢
    split at h
    case isTrue hup =>
      rw [if_pos hup]
      exact ih h
    case isFalse hup =>
      rw [if_neg hup]
      cases hfind : branch.inner.find? name with
      | none =>
        rw [hfind] at h
        exact .inl h
      | some inner =>
        simp only [hfind] at h ⊢
        split at h
        case h_1 hc => exact ih h
        case h_2 hc =>
          cases ha : ahead.isEmpty with
          | true => exact .inr ⟨_, rfl⟩
          | false =>
            rw [ha] at h
            exact .inl h
        case h_3 => exact .inl h

/-- A walk stops at a link only if it is to be followed. -/
theorem more_of_stride_link {passed : List Name} {branch : Branch}
    (h : v.stride follow passed branch names = .ok (.link base target ahead)) : ahead ≠ [] ∨ follow := by
  induction names generalizing passed branch with
  | nil => exact absurd h (by simp [stride, Stop.arrival])
  | cons name rest ih =>
    rw [stride] at h
    split at h
    case isTrue => exact ih h
    case isFalse =>
      split at h
      case h_1 => split at h <;> exact absurd h (by simp [Stop.arrival])
      case h_2 =>
        split at h
        case h_1 => exact ih h
        case h_2 =>
          split at h
          case isTrue => exact absurd h (by simp [Stop.arrival])
          case isFalse hmore =>
            obtain ⟨-, -, rfl⟩ := Stop.link.inj (Except.ok.inj h)
            cases follow <;> simp_all
        case h_3 => split at h <;> exact absurd h (by simp [Stop.arrival])

theorem travel_unfollowed {links : Nat} (h : v.travel true links base names = .ok goal) :
    ∃ place, v.travel false links base names = .ok place := by
  induction links generalizing base names with
  | zero =>
    rw [travel] at h ⊢
    split at h
    case h_1 => exact absurd h (by simp)
    case h_2 hstride =>
      rcases stride_unfollowed hstride with h' | ⟨place, h'⟩ <;> rw [h'] <;> exact ⟨_, rfl⟩
    case h_3 => exact absurd h (by simp)
  | succ links ih =>
    rw [travel] at h ⊢
    split at h
    case h_1 => exact absurd h (by simp)
    case h_2 hstride =>
      rcases stride_unfollowed hstride with h' | ⟨place, h'⟩ <;> rw [h'] <;> exact ⟨_, rfl⟩
    case h_3 hstride =>
      rcases stride_unfollowed hstride with h' | ⟨place, h'⟩
      · rw [h']
        simp only at h ⊢
        split at h
        case isTrue => exact absurd h (by simp)
        case isFalse hne =>
          obtain ⟨place, htravel, hland⟩ := exists_of_bind_eq_ok h
          obtain ⟨rfl, -⟩ := landing_eq_ok.mp hland
          obtain ⟨place', hplace⟩ := ih htravel
          have hmore := (more_of_stride_link h').resolve_right Bool.false_ne_true
          refine ⟨place', ?_⟩
          rw [if_neg hne, hplace]
          exact landing_eq_ok.mpr ⟨rfl, fun he => absurd he hmore⟩
      · rw [h']
        exact ⟨_, rfl⟩

theorem along_unfollowed (h : v.along base true p = .ok goal) : ∃ place, v.along base false p = .ok place := by
  rw [along] at h ⊢
  split at h
  case isTrue => exact absurd h (by simp)
  case isFalse hne =>
    split at h
    case isTrue => exact absurd h (by simp)
    case isFalse hd =>
      rw [if_neg hne, if_neg hd]
      exact travel_unfollowed h

theorem reach_unfollowed (h : v.reach true p = .ok goal) : ∃ place, v.reach false p = .ok place := by
  obtain ⟨base, hbase, halong, hsettles⟩ := reach_eq_ok.mp h
  cases ha : v.asks p with
  | true => exact ⟨goal, reach_eq_ok.mpr ⟨base, hbase, by rwa [follows, ha], hsettles⟩⟩
  | false =>
    obtain ⟨place, hplace⟩ := along_unfollowed halong
    refine ⟨place, reach_eq_ok.mpr ⟨base, hbase, by rwa [follows, ha], fun hasks => ?_⟩⟩
    exact absurd (ha.symm.trans hasks) Bool.false_ne_true

/-- A walk that does not follow a link at the end either ends at one or is the walk that follows. -/
theorem stride_followed (hs : v.Sound) {passed : List Name} {branch : Branch} {stop : Stop}
    (hb : v.branch? passed.reverse = some branch) (hd : v.isDirectory passed.reverse)
    (h : v.stride false passed branch names = .ok stop) :
    v.stride true passed branch names = .ok stop ∨ ∃ place target, stop = .done place ∧ v.Links place target := by
  induction names generalizing passed branch with
  | nil => exact .inl h
  | cons name ahead ih =>
    rw [stride] at h ⊢
    split at h
    case isTrue hup =>
      rw [if_pos hup]
      obtain ⟨hparent, hdirectory⟩ := branch?_parent hs hd
      exact ih hparent hdirectory h
    case isFalse hup =>
      rw [if_neg hup]
      have hcontent := object?_concat hb name
      cases hfind : branch.inner.find? name with
      | none =>
        rw [hfind] at h
        exact .inl h
      | some inner =>
        simp only [hfind, Option.bind_some] at h hcontent ⊢
        rw [← List.reverse_cons] at hcontent
        split at h
        case h_1 hc =>
          refine ih ?_ (isDirectory_iff_content.mpr (hcontent.trans hc)) h
          rw [List.reverse_cons]
          exact branch?_concat hb hfind
        case h_2 target hc =>
          split at h
          case isTrue =>
            obtain rfl := Except.ok.inj h
            exact .inr ⟨_, target, rfl, links_iff.mpr (hcontent.trans hc)⟩
          case isFalse ha =>
            rw [Bool.not_false, Bool.and_true] at ha
            rw [Bool.not_true, Bool.and_false, if_neg Bool.false_ne_true]
            exact .inl h
        case h_3 => exact .inl h

theorem travel_followed (hs : v.Sound) {links : Nat} (hd : v.isDirectory base)
    (h : v.travel false links base names = .ok goal) (hgoal : ∀ target, ¬ v.Links goal target) :
    v.travel true links base names = .ok goal := by
  have hstep {base : Place} {names : List Name} {stop : Stop} (hd : v.isDirectory base)
      (hstride : v.stride false base.reverse (v.branch base) names = .ok stop) :
      v.stride true base.reverse (v.branch base) names = .ok stop ∨
        ∃ place target, stop = .done place ∧ v.Links place target := by
    rw [← List.reverse_reverse base] at hd
    refine stride_followed hs ?_ hd hstride
    rw [branch?_eq_branch (isSome_number?_of_isDirectory hd), List.reverse_reverse]
  induction links generalizing base names with
  | zero =>
    rw [travel] at h ⊢
    split at h
    case h_1 => exact absurd h (by simp)
    case h_2 place hstride =>
      obtain rfl := Except.ok.inj h
      rcases hstep hd hstride with h' | ⟨_, target, he, hl⟩
      · rw [h']
      · exact absurd (Stop.done.inj he ▸ hl) (hgoal target)
    case h_3 => exact absurd h (by simp)
  | succ links ih =>
    rw [travel] at h ⊢
    split at h
    case h_1 => exact absurd h (by simp)
    case h_2 place hstride =>
      obtain rfl := Except.ok.inj h
      rcases hstep hd hstride with h' | ⟨_, target, he, hl⟩
      · rw [h']
      · exact absurd (Stop.done.inj he ▸ hl) (hgoal target)
    case h_3 directory target ahead hstride =>
      have hdirectory := (on_of_stride_branch hs hd hstride).1
      rcases hstep hd hstride with h' | ⟨_, _, he, -⟩
      · rw [h']
        simp only at h ⊢
        split at h
        case isTrue => exact absurd h (by simp)
        case isFalse hne =>
          obtain ⟨place, htravel, hland⟩ := exists_of_bind_eq_ok h
          obtain ⟨rfl, hopen⟩ := landing_eq_ok.mp hland
          rw [if_neg hne, ih (hs.isDirectory_origin hdirectory) htravel]
          exact landing_eq_ok.mpr ⟨rfl, hopen⟩
      · exact absurd he (by simp)

theorem along_followed (hs : v.Sound) (h : v.along base false p = .ok goal) (hgoal : ∀ target, ¬ v.Links goal target) :
    v.along base true p = .ok goal := by
  have hstart := (way_of_along hs h).2
  rw [along] at h ⊢
  split at h
  case isTrue => exact absurd h (by simp)
  case isFalse hne =>
    split at h
    case isTrue => exact absurd h (by simp)
    case isFalse hd =>
      rw [if_neg hne, if_neg hd]
      cases hn : p.names with
      | nil => rwa [hn] at h
      | cons name names =>
        rw [hn] at h
        exact travel_followed hs (hstart (by simp [hn])) h hgoal

theorem reach_followed (hs : v.Sound) (h : v.reach false p = .ok goal) (hgoal : ∀ target, ¬ v.Links goal target) :
    v.reach true p = .ok goal := by
  obtain ⟨base, hbase, halong, hsettles⟩ := reach_eq_ok.mp h
  refine reach_eq_ok.mpr ⟨base, hbase, ?_, hsettles⟩
  cases ha : v.asks p with
  | true => rwa [follows, ha] at halong
  | false =>
    rw [follows, ha] at halong
    exact along_followed hs halong hgoal

/-- A path to something, whatever it asks for, leads there with what stands behind its last name left out: at once,
or through a link. -/
theorem exists_reach_of_names (hs : v.Sound) (hnames : q.names = p.names) (ha : q.isAbsolute = p.isAbsolute)
    (he : q.isEmpty = p.isEmpty) (hq : v.asks q = false) (h : v.reach false p = .ok goal) (hstands : ¬ v.Vacant goal) :
    ∃ place, v.reach false q = .ok place ∧ ¬ v.Vacant place := by
  obtain ⟨base, hbase, halong, -⟩ := reach_eq_ok.mp h
  have hfollow : v.reach (v.follows false p) q = .ok goal := by
    rw [reach_eq, baseOf_congr ha he, hbase]
    exact (reachFrom_of_asks hq).trans ((along_congr hnames ha he).trans halong)
  cases hp : v.follows false p with
  | false => exact ⟨goal, by rwa [hp] at hfollow, hstands⟩
  | true =>
    rw [hp] at hfollow
    obtain ⟨place, hplace⟩ := reach_unfollowed hfollow
    refine ⟨place, hplace, fun hv => hstands ?_⟩
    have hsame := reach_followed hs hplace fun _ hl => hl.not_passable (hs.passable_iff.mpr (.inl hv))
    rwa [Except.ok.inj (hfollow.symm.trans hsame)]

theorem exists_of_reach_vacant (hs : v.Sound) (h : v.reach follow p = .ok goal)
    (hgoal : v.Vacant goal) :
    ∃ directory name, goal = directory ++ [name] ∧ v.isDirectory directory ∧ Path.IsPlain name :=
  (leads_of_reach hs h).ends hs hs.root (fun _ => isPlain_of_mem_route) hgoal

/-! ## Seats -/

theorem seat_eq (h : v.asks p → p.endsInDot = false) :
    v.seat p = v.baseOf p >>= fun base => v.along base false p := by
  refine if_neg fun hc => ?_
  obtain ⟨hasks, hdot⟩ := Bool.and_eq_true_iff.mp hc
  exact absurd ((h hasks).symm.trans hdot) Bool.false_ne_true

theorem seat_congr (hnames : q.names = p.names) (ha : q.isAbsolute = p.isAbsolute) (he : q.isEmpty = p.isEmpty)
    (hq : v.asks q → q.endsInDot = false) (hp : v.asks p → p.endsInDot = false) : v.seat q = v.seat p := by
  rw [seat_eq hq, seat_eq hp, baseOf_congr ha he]
  exact congrArg _ (funext fun base => along_congr hnames ha he)

theorem seat_of_asks (h : v.asks p = false) : v.seat p = v.reach false p := by
  rw [seat_eq fun ha => absurd (h.symm.trans ha) Bool.false_ne_true, reach_eq]
  exact congrArg _ (funext fun base => (reachFrom_of_asks h).symm)

theorem seat_eq_ok (h : v.seat p = .ok place) :
    v.reach false p = .ok place ∨ (v.asks p → p.endsInDot = false) ∧
      ∃ base, v.baseOf p = .ok base ∧ v.along base false p = .ok place := by
  unfold seat at h
  split at h
  case isTrue => exact .inl h
  case isFalse hdot =>
    obtain ⟨base, hbase, h⟩ := exists_of_bind_eq_ok h
    exact .inr ⟨fun ha => by simpa [ha] using hdot, base, hbase, h⟩

/-- Where a name is made or taken away the path leads, if what it asks for can stand there. -/
theorem reach_of_seat (hs : v.Sound) (h : v.seat p = .ok place) (hp : v.asks p → v.Passable place) :
    v.reach false p = .ok place := by
  rcases seat_eq_ok h with h | ⟨hdot, base, hbase, halong⟩
  · exact h
  refine reach_eq_ok.mpr ⟨base, hbase, ?_, fun ha => ?_⟩
  · cases ha : v.asks p with
    | true =>
      rw [follows, ha]
      exact along_followed hs halong fun _ hl => hl.not_passable (hp ha)
    | false => rwa [follows, ha]
  · rcases hs.passable_iff.mp (hp ha) with hv | hd
    · exact .inr ⟨hs.object?_eq_none.mpr hv, hdot ha⟩
    · exact .inl hd

theorem seat_join (h : Path.IsPlain name) : v.seat (p.join name) = v.reach false (p.join name) :=
  seat_of_asks (asks_join h)

end Volume

end Bytework
