import Bytework.Proofs.Volume.Joined
import Bytework.Proofs.Volume.Seen

/-!
# Paths that are still resolved

A path that does not pass what is changed is resolved after the change to where it was resolved before.

* `Agrees`: off some places two volumes show the same.
* `stride_agrees`, `travel_agrees`: walks along names.
* **`reach_agrees`**: a path to what stands in both volumes.
-/

namespace Bytework.Volume

variable {v v' : Volume} {within made shut : Place → Prop} {follow : Bool} {base goal w : Place}
  {names : List Name} {p : Path}

/-- What stands off the shut places is seen in another volume too, and paths start and end by the same rules. -/
structure Agrees (shut : Place → Prop) (v v' : Volume) : Prop where
  cwd : v'.cwd = v.cwd
  rules : v'.rules = v.rules
  seen : ∀ w, ¬ shut w → ¬ v.Vacant w → v'.seen false w = v.seen false w

theorem Bounded.agrees (h : Bounded within made v v') (hs : v.Sound) (hw : ∀ w, within w → shut w) :
    Agrees shut v v' where
  cwd := h.cwd
  rules := h.rules
  seen w hn hv := h.outline_eq hs (fun hin => hn (hw w hin)) fun hv' => absurd hv' hv

namespace Agrees

variable (ha : Agrees shut v v')

include ha

theorem isDirectory (hn : ¬ shut w) (hd : v.isDirectory w) : v'.isDirectory w := by
  have hstands := not_vacant_of_isDirectory hd
  exact (isDirectory_congr (ha.seen w hn hstands)).mpr hd

/-- What is found under a name is found in the other volume too, with the same outline. -/
theorem find? (hs : v.Sound) {branch branch' inner : Branch} {name : Name} (hb : v.branch? w = some branch)
    (hb' : v'.branch? w = some branch') (hn : ¬ shut (w ++ [name])) (hi : branch.inner.find? name = some inner) :
    ∃ content inner' content', v.content? inner.number = some content ∧
      branch'.inner.find? name = some inner' ∧ v'.content? inner'.number = some content' ∧
      content'.outline = content.outline := by
  have hnumber : v.number? (w ++ [name]) = some inner.number := by
    rw [number?, branch?_concat hb hi, Option.map_some]
  obtain ⟨object, ho⟩ := hs.isSome_object? (Option.isSome_iff_exists.mpr ⟨_, hnumber⟩)
  have hseen := ha.seen _ hn (not_vacant_of_object? ho)
  rw [seen_of_object? ho] at hseen
  obtain ⟨object', ho', hout⟩ := Option.map_eq_some_iff.mp hseen
  have hcontent := object?_concat hb name
  have hcontent' := object?_concat hb' name
  rw [ho, hi] at hcontent
  rw [ho'] at hcontent'
  cases hi' : branch'.inner.find? name with
  | none => simp [hi'] at hcontent'
  | some inner' =>
    rw [hi'] at hcontent'
    exact ⟨_, _, _, hcontent.symm, rfl, hcontent'.symm, hout⟩

theorem asks (p : Path) : v'.asks p = v.asks p := by rw [Volume.asks, ha.rules, ← Volume.asks]

end Agrees

/-! ## Walks along names -/

/-- From a link at which a walk stops the way goes on, and the directory of the link is in both volumes. -/
def Stop.Onward (v v' : Volume) (shut : Place → Prop) (follow : Bool) (goal : Place) : Stop → Prop
  | .done _ => True
  | .link directory target ahead => v.isDirectory directory ∧ (v'.number? directory).isSome ∧
      Way v shut follow (origin directory target) (target.names ++ ahead) goal

section Walks

variable (ha : Agrees shut v v') (hs : v.Sound) (hgoal : ¬ shut goal) (hstands : ¬ v.Vacant goal)

include ha hs hgoal hstands

theorem stride_agrees {passed : List Name} {branch branch' : Branch} {stop : Stop}
    (hb : v.branch? passed.reverse = some branch) (hb' : v'.branch? passed.reverse = some branch')
    (hd : v.isDirectory passed.reverse) (hway : Way v shut follow passed.reverse names goal)
    (h : v.stride follow passed branch names = .ok stop) :
    v'.stride follow passed branch' names = .ok stop ∧ stop.Onward v v' shut follow goal := by
  induction names generalizing passed branch branch' with
  | nil =>
    obtain rfl := Except.ok.inj h
    exact ⟨rfl, trivial⟩
  | cons name ahead ih =>
    rw [stride] at h ⊢
    split at h
    case isTrue hup =>
      subst hup
      rw [if_pos rfl]
      obtain ⟨hparent, hd'⟩ := branch?_parent hs hd
      have hpre : passed.tail.reverse <+: passed.reverse := by
        rw [← List.dropLast_reverse]
        exact List.dropLast_prefix _
      have hparent' := branch?_eq_branch (isSome_number?_of_isPrefix hpre (v := v') (by rw [number?, hb']; rfl))
      refine ih hparent hparent' hd' ?_ h
      rw [← List.dropLast_reverse]
      exact hway.after_up
    case isFalse hup =>
      rw [if_neg hup]
      have hopen := hway.not_shut_first hup hgoal
      cases hfind : branch.inner.find? name with
      | none =>
        have hvacant := vacant_concat hb hfind
        simp only [hfind] at h
        split at h
        case isFalse => exact absurd h (by simp)
        case isTrue hlast =>
          obtain rfl := List.isEmpty_iff.mp hlast
          have hpass := hs.passable_iff.mpr (.inl hvacant)
          cases hway.after_name hup fun _ hl => hl.not_passable hpass
          exact absurd hvacant hstands
      | some inner =>
        obtain ⟨content, inner', content', hc, hfind', hc', hout⟩ := ha.find? hs hb hb' hopen hfind
        have hcontent := object?_concat hb name
        rw [hfind, Option.bind_some, hc] at hcontent
        simp only [hfind, hc] at h
        simp only [hfind', hc']
        have hlink {target : Path} (hl : v.Links (passed.reverse ++ [name]) target) : content = .symlink target :=
          Option.some.inj (hcontent.symm.trans (links_iff.mp hl))
        have hpass (hp : v.Passable (passed.reverse ++ [name])) : content = .directory := by
          obtain ⟨object, ho, rfl⟩ := Option.map_eq_some_iff.mp hcontent
          exact hp object ho
        cases content with
        | directory =>
          obtain rfl := Content.outline_eq_directory.mp hout
          have hd' : v.isDirectory (passed.reverse ++ [name]) := isDirectory_iff_content.mpr hcontent
          refine ih ?_ ?_ ?_ ?_ h
          · rw [List.reverse_cons]
            exact branch?_concat hb hfind
          · rw [List.reverse_cons]
            exact branch?_concat hb' hfind'
          · rwa [List.reverse_cons]
          · rw [List.reverse_cons]
            exact hway.after_name hup fun _ hl => absurd (hlink hl) (by simp)
        | symlink target =>
          obtain rfl := Content.outline_eq_symlink.mp hout
          have hl : v.Links (passed.reverse ++ [name]) target := links_iff.mpr hcontent
          dsimp only at h ⊢
          split at h
          case isTrue hlast =>
            rw [if_pos hlast]
            obtain rfl := Except.ok.inj h
            exact ⟨rfl, trivial⟩
          case isFalse hlast =>
            rw [if_neg hlast]
            obtain rfl := Except.ok.inj h
            refine ⟨rfl, hd, by rw [number?, hb']; rfl, hway.after_link hup hl ?_⟩
            rwa [Bool.and_eq_true, not_and_or, List.isEmpty_iff, Bool.not_eq_true, Bool.not_eq_false'] at hlast
        | file | special =>
          -- what is neither a directory nor a link can only be the end of the names
          obtain rfl := hway.last_name hup (fun hp => absurd (hpass hp) (by simp))
            fun _ hl => absurd (hlink hl) (by simp)
          obtain rfl := Except.ok.inj h
          refine ⟨?_, trivial⟩
          cases content' with
          | file | special => rfl
          | directory | symlink => cases hout

theorem travel_agrees {links : Nat} (hd : v.isDirectory base) (hd' : (v'.number? base).isSome)
    (hway : Way v shut follow base names goal) (h : v.travel follow links base names = .ok goal) :
    v'.travel follow links base names = .ok goal := by
  have hbranch {u : Volume} {base : Place} (hu : (u.number? base).isSome) :
      u.branch? base.reverse.reverse = some (u.branch base) := by
    rw [List.reverse_reverse]
    exact branch?_eq_branch hu
  have hstep {base : Place} {names : List Name} {stop : Stop} (hd : v.isDirectory base)
      (hd' : (v'.number? base).isSome) (hway : Way v shut follow base names goal)
      (hstride : v.stride follow base.reverse (v.branch base) names = .ok stop) :
      v'.stride follow base.reverse (v'.branch base) names = .ok stop ∧ stop.Onward v v' shut follow goal :=
    stride_agrees ha hs hgoal hstands (hbranch (isSome_number?_of_isDirectory hd)) (hbranch hd')
      (by rwa [List.reverse_reverse]) (by rwa [List.reverse_reverse]) hstride
  induction links generalizing base names with
  | zero =>
    rw [travel] at h ⊢
    split at h
    case h_1 => exact absurd h (by simp)
    case h_2 hstride =>
      rw [(hstep hd hd' hway hstride).1]
      exact h
    case h_3 => exact absurd h (by simp)
  | succ links ih =>
    rw [travel] at h ⊢
    split at h
    case h_1 => exact absurd h (by simp)
    case h_2 hstride =>
      rw [(hstep hd hd' hway hstride).1]
      exact h
    case h_3 directory target ahead hstride =>
      obtain ⟨hstride', hdirectory, hfound, honward⟩ := hstep hd hd' hway hstride
      have horigin : (v'.number? (origin directory target)).isSome := by
        unfold origin
        split
        · rw [number?_root]
          rfl
        · exact hfound
      rw [hstride']
      dsimp only at h ⊢
      split at h
      case isTrue => exact absurd h (by simp)
      case isFalse hne =>
        rw [if_neg hne]
        obtain ⟨place, htravel, hland⟩ := exists_of_bind_eq_ok h
        obtain ⟨rfl, hend⟩ := landing_eq_ok.mp hland
        rw [ih (hs.isDirectory_origin hdirectory) horigin honward htravel]
        refine landing_eq_ok.mpr ⟨rfl, fun hahead hasks => ?_⟩
        exact ha.isDirectory hgoal (hend hahead (by rwa [ha.asks] at hasks))

theorem along_agrees (hstart : ¬ shut (origin base p)) (hway : Way v shut follow (origin base p) p.names goal)
    (h : v.along base follow p = .ok goal) : v'.along base follow p = .ok goal := by
  have hd := (way_of_along hs h).2
  rw [along] at h ⊢
  split at h
  case isTrue => exact absurd h (by simp)
  case isFalse hne =>
    rw [if_neg hne]
    cases hn : p.names with
    | nil =>
      rw [hn] at h
      rw [travel] at h ⊢
      exact h
    | cons name names =>
      have hd : v.isDirectory (origin base p) := hd (by simp [hn])
      have hd' := ha.isDirectory hstart hd
      rw [hn] at h hway
      rw [hd, Bool.not_true, Bool.and_false, if_neg Bool.false_ne_true] at h
      rw [hd', Bool.not_true, Bool.and_false, if_neg Bool.false_ne_true]
      exact travel_agrees ha hs hgoal hstands hd (isSome_number?_of_isDirectory hd') hway h

theorem reachFrom_agrees (hstart : ¬ shut (origin base p))
    (hway : Way v shut (v.follows follow p) (origin base p) p.names goal)
    (h : v.reachFrom base follow p = .ok goal) : v'.reachFrom base follow p = .ok goal := by
  obtain ⟨halong, hsettles⟩ := reachFrom_eq_ok.mp h
  refine reachFrom_eq_ok.mpr ⟨?_, fun hasks => .inl ?_⟩
  · rw [follows_congr ha.rules]
    exact along_agrees ha hs hgoal hstands hstart hway halong
  · have hd := (hsettles (by rwa [ha.asks] at hasks)).resolve_right fun h => hstands (hs.object?_eq_none.mp h.1)
    exact ha.isDirectory hgoal hd

end Walks

/-! ## Paths -/

/-- A path to what stands in both volumes is resolved to it in both, if the way does not pass where they
differ. -/
theorem reach_agrees (ha : Agrees shut v v') (hs : v.Sound) (hs' : v'.Sound)
    (hup : ∀ w, shut w.dropLast → shut w) (hroot : ¬ shut []) (hgoal : ¬ shut goal) (hstands : ¬ v.Vacant goal)
    (hl : v.Leads shut follow p goal) (h : v.reach follow p = .ok goal) : v'.reach follow p = .ok goal := by
  have hp := isEmpty_of_reach h
  rw [reach_eq] at h ⊢
  obtain ⟨base, hbase, h⟩ := exists_of_bind_eq_ok h
  have hway := (way_of_reachFrom hs h).1
  -- the names of the path lead from where it starts, without passing what is shut
  have hnames (hstart : ¬ shut (origin base p)) (hmore : p.names ≠ [] →
      Way v shut (v.follows follow p) (origin base p) p.names goal) : v'.reachFrom base follow p = .ok goal := by
    refine reachFrom_agrees ha hs hgoal hstands hstart ?_ h
    by_cases hn : p.names = []
    · rw [hn] at hway ⊢
      cases hway
      exact .stay _
    · exact hmore hn
  cases habsolute : p.isAbsolute with
  | true =>
    have horigin : origin base p = [] := by rw [origin, if_pos habsolute]
    rw [baseOf, habsolute, Bool.true_or, if_pos rfl] at hbase ⊢
    obtain rfl := Except.ok.inj hbase
    refine hnames (by rwa [horigin]) fun hn => ?_
    rw [horigin]
    rw [Leads, route, if_pos habsolute, List.isEmpty_eq_false_iff.mpr hn, Bool.or_false] at hl
    exact hl
  | false =>
    have horigin : origin base p = base := by rw [origin, habsolute, if_neg Bool.false_ne_true]
    rw [baseOf, habsolute, hp, Bool.or_false, if_neg Bool.false_ne_true] at hbase ⊢
    obtain ⟨hwork, hfound⟩ := workingPlace_eq_ok hbase
    have hcwdway := (way_of_reachFrom hs hwork).1
    rw [show origin [] v.cwd = [] by simp [origin]] at hcwdway
    rw [Leads, route, habsolute, if_neg Bool.false_ne_true] at hl
    obtain ⟨hfirst, hopen⟩ : Way v shut true [] v.cwd.names base ∧ ¬ shut base := by
      by_cases hn : p.names = []
      · rw [hn, List.append_nil, List.isEmpty_nil, Bool.or_true] at hl
        obtain rfl := hl.unique hcwdway
        exact ⟨hl, hgoal⟩
      · obtain ⟨w, hw, hopen⟩ := hl.initial hup hroot hroot hn
        obtain rfl := hw.unique hcwdway
        exact ⟨hw, hopen⟩
    have hwork' : v'.workingPlace = .ok base := by
      have hreach : v'.reachFrom [] true v.cwd = .ok base := by
        refine reachFrom_agrees ha hs hopen hfound ?_ ?_ hwork
        · rwa [show origin [] v.cwd = [] by simp [origin]]
        · rwa [show origin [] v.cwd = [] by simp [origin]]
      have hfound' : ¬ v'.Vacant base := fun hv => hfound ((seen_congr hs hs' (ha.seen base hopen hfound)).mp hv)
      have hobject := Option.isSome_iff_exists.mpr (hs'.isSome_object? (Option.isSome_iff_ne_none.mpr hfound'))
      rw [workingPlace, ha.cwd, hreach]
      exact if_pos hobject
    rw [hwork']
    refine hnames (by rwa [horigin]) fun hn => ?_
    rw [List.isEmpty_eq_false_iff.mpr hn, Bool.or_false] at hl
    rw [horigin]
    exact hfirst.rest hl hn

end Bytework.Volume
