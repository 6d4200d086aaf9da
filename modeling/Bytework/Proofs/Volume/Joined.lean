import Bytework.Proofs.Volume.Reach

/-!
# Names below a path

A path that is resolved to a directory, with the name of an entry of that directory behind it: it is
resolved to the entry. So what is read in a directory can be looked at by its path.

* `stride_concat`, `travel_concat`: one more name at the end of a walk along names.
* `stride_initial`, `travel_initial`, `reach_initial`: fewer names.
* **`reach_join`**: the path of an entry; `reach_join_unlinked`: the same with links followed.
-/

namespace Bytework.Volume

variable {v : Volume} {follow : Bool} {base place : Place} {name : Name} {names : List Name} {p : Path}
  {object : Object}

/-- How a walk along names ends with one name more, told by where it stops without it: from a directory it
goes on, and at a link there is one name more ahead. -/
def Stop.Further (v : Volume) (follow : Bool) (name : Name) (next : Except Errno Stop) : Stop → Prop
  | .done goal => v.isDirectory goal → next = v.stride follow goal.reverse (v.branch goal) [name]
  | .link directory target ahead => next = .ok (.link directory target (ahead ++ [name]))

theorem stride_concat (hs : v.Sound) {passed : List Name} {branch : Branch} {stop : Stop}
    (hb : v.branch? passed.reverse = some branch) (hd : v.isDirectory passed.reverse)
    (h : v.stride true passed branch names = .ok stop) (follow : Bool) (name : Name) :
    stop.Further v follow name (v.stride follow passed branch (names ++ [name])) := by
  induction names generalizing passed branch with
  | nil =>
    obtain rfl := Except.ok.inj h
    intro _
    rw [List.nil_append, List.reverse_reverse, Volume.branch, hb, Option.getD_some]
  | cons next ahead ih =>
    rw [stride] at h
    rw [List.cons_append, stride]
    split at h
    case isTrue hup =>
      obtain ⟨hparent, hdirectory⟩ := branch?_parent hs hd
      rw [if_pos hup]
      exact ih hparent hdirectory h
    case isFalse hup =>
      rw [if_neg hup]
      have hcontent := object?_concat hb next
      -- what is no directory can only be the end of the names, and then nothing leads on
      have harrive (hne : (v.object? (passed.reverse ++ [next])).map (·.content) ≠ some .directory) :
          ¬ v.isDirectory (next :: passed).reverse := by
        rw [List.reverse_cons]
        exact fun hdir => hne (isDirectory_iff_content.mp hdir)
      cases hfind : branch.inner.find? next with
      | none =>
        simp only [hfind, Option.bind_none] at h hcontent
        split at h
        case isTrue =>
          obtain rfl := Except.ok.inj h
          exact fun hdir => absurd hdir (harrive (by simp [hcontent]))
        case isFalse => exact absurd h (by simp)
      | some inner =>
        have hb' := branch?_concat hb hfind
        rw [hfind, Option.bind_some] at hcontent
        simp only [hfind] at h ⊢
        split at h
        case h_1 hc =>
          have hd' : v.isDirectory (next :: passed).reverse := by
            rw [List.reverse_cons]
            exact isDirectory_iff_content.mpr (hcontent.trans hc)
          rw [← List.reverse_cons] at hb'
          exact ih hb' hd' h
        case h_2 target hc =>
          rw [Bool.not_true, Bool.and_false, if_neg Bool.false_ne_true] at h
          obtain rfl := Except.ok.inj h
          rw [if_neg (by simp)]
          rfl
        case h_3 hdir _ =>
          split at h
          case isTrue =>
            obtain rfl := Except.ok.inj h
            exact fun hd' => absurd hd' (harrive (hcontent ▸ hdir))
          case isFalse => exact absurd h (by simp)

theorem travel_concat (hs : v.Sound) {links : Nat} (hd : v.isDirectory base)
    (h : v.travel true links base names = .ok place) (hp : v.isDirectory place) (name : Name) :
    ∃ left, ∀ follow, v.travel follow links base (names ++ [name]) = v.travel follow left place [name] := by
  have hfurther {base : Place} {names : List Name} {stop : Stop} (hd : v.isDirectory base)
      (hstride : v.stride true base.reverse (v.branch base) names = .ok stop) (follow : Bool) :
      stop.Further v follow name (v.stride follow base.reverse (v.branch base) (names ++ [name])) := by
    rw [← List.reverse_reverse base] at hd
    refine stride_concat hs ?_ hd hstride follow name
    rw [branch?_eq_branch (isSome_number?_of_isDirectory hd), List.reverse_reverse]
  induction links generalizing base names with
  | zero =>
    rw [travel] at h
    split at h
    case h_1 => exact absurd h (by simp)
    case h_2 goal hstride =>
      obtain rfl := Except.ok.inj h
      refine ⟨0, fun follow => ?_⟩
      rw [travel, travel, hfurther hd hstride follow hp]
    case h_3 => exact absurd h (by simp)
  | succ links ih =>
    rw [travel] at h
    split at h
    case h_1 => exact absurd h (by simp)
    case h_2 goal hstride =>
      obtain rfl := Except.ok.inj h
      refine ⟨links + 1, fun follow => ?_⟩
      rw [travel, travel, hfurther hd hstride follow hp]
    case h_3 directory target ahead hstride =>
      have hdirectory := (on_of_stride_branch hs hd hstride).1
      simp only at h
      split at h
      case isTrue => exact absurd h (by simp)
      case isFalse ht =>
        obtain ⟨goal, htravel, hland⟩ := exists_of_bind_eq_ok h
        obtain ⟨rfl, -⟩ := landing_eq_ok.mp hland
        obtain ⟨left, hleft⟩ := ih (hs.isDirectory_origin hdirectory) htravel
        refine ⟨left, fun follow => ?_⟩
        have hstep : v.stride follow base.reverse (v.branch base) (names ++ [name]) = _ := hfurther hd hstride follow
        rw [← hleft follow, travel, hstep]
        simp only [ht, Bool.false_eq_true, if_false, bind_landing (List.concat_ne_nil name ahead), List.append_assoc]

/-- The path of a name in a directory is resolved from the directory on, with some links still to follow. -/
theorem reach_concat (hs : v.Sound) (h : v.reach true p = .ok place) (hd : v.isDirectory place)
    (hn : Path.IsPlain name) :
    ∃ left, ∀ follow, v.reach follow (p.join name) = v.travel follow left place [name] := by
  have hp := isEmpty_of_reach h
  obtain ⟨base, hbase, halong, -⟩ := reach_eq_ok.mp h
  have hnames : (p.join name).names = p.names ++ [name] := Path.names_join hn
  have habsolute : (p.join name).isAbsolute = p.isAbsolute := Path.isAbsolute_join hn
  have hjoin : (p.join name).isEmpty = false := Path.isEmpty_join hn
  have hstart : v.isDirectory (origin base p) := by
    obtain ⟨hway, hdirectory⟩ := way_of_along hs halong
    by_cases hn : p.names = []
    · rw [hn] at hway
      cases hway
      exact hd
    · exact hdirectory hn
  have htravel : v.travel true maxLinks (origin base p) p.names = .ok place := by
    simpa [along, hp, hstart] using halong
  obtain ⟨left, hleft⟩ := travel_concat hs hstart htravel hd name
  refine ⟨left, fun follow => ?_⟩
  have horigin : origin base (p.join name) = origin base p := by rw [origin, origin, habsolute]
  have hjoined : v.baseOf (p.join name) = .ok base := by rwa [baseOf, habsolute, hjoin, ← hp, ← baseOf]
  rw [reach_eq, hjoined, ← hleft follow]
  show v.reachFrom base follow (p.join name) = _
  rw [reachFrom_of_asks (asks_join hn), along, hjoin, horigin, hstart, hnames]
  simp

/-! ## Shorter paths -/

/-- How a walk along names ends, told by where a walk along more names stops: at a directory, or at the same
link with fewer names ahead. -/
def Stop.Earlier (v : Volume) (more : List Name) (walk : Except Errno Stop) (stop : Stop) : Prop :=
  (∃ place, walk = .ok (.done place) ∧ v.isDirectory place) ∨
    ∃ directory target ahead, walk = .ok (.link directory target ahead) ∧
      stop = .link directory target (ahead ++ more)

theorem stride_initial (hs : v.Sound) {passed more : List Name} {branch : Branch} {stop : Stop}
    (hmore : more ≠ []) (hb : v.branch? passed.reverse = some branch) (hd : v.isDirectory passed.reverse)
    (h : v.stride follow passed branch (names ++ more) = .ok stop) :
    stop.Earlier v more (v.stride true passed branch names) := by
  induction names generalizing passed branch with
  | nil => exact .inl ⟨_, rfl, hd⟩
  | cons next ahead ih =>
    have hahead : (ahead ++ more).isEmpty = false := by simp [hmore]
    rw [List.cons_append, stride] at h
    rw [stride]
    split at h
    case isTrue hup =>
      obtain ⟨hparent, hdirectory⟩ := branch?_parent hs hd
      rw [if_pos hup]
      exact ih hparent hdirectory h
    case isFalse hup =>
      rw [if_neg hup]
      have hcontent := object?_concat hb next
      cases hfind : branch.inner.find? next with
      | none =>
        rw [hfind, hahead] at h
        exact absurd h (by simp)
      | some inner =>
        have hb' := branch?_concat hb hfind
        rw [hfind, Option.bind_some] at hcontent
        simp only [hfind, hahead, Bool.false_and, Bool.false_eq_true, if_false] at h ⊢
        split at h
        case h_1 hc =>
          rw [← List.reverse_cons] at hb' hcontent
          exact ih hb' (isDirectory_iff_content.mpr (hcontent.trans hc)) h
        case h_2 target hc =>
          obtain rfl := Except.ok.inj h
          exact .inr ⟨_, target, ahead, by simp, rfl⟩
        case h_3 => exact absurd h (by simp)

theorem travel_initial (hs : v.Sound) {links : Nat} {more : List Name} (hmore : more ≠ []) (hd : v.isDirectory base)
    (h : v.travel follow links base (names ++ more) = .ok place) :
    ∃ goal, v.travel true links base names = .ok goal ∧ v.isDirectory goal := by
  have hearlier {base : Place} {names : List Name} {stop : Stop} (hd : v.isDirectory base)
      (hstride : v.stride follow base.reverse (v.branch base) (names ++ more) = .ok stop) :
      stop.Earlier v more (v.stride true base.reverse (v.branch base) names) := by
    rw [← List.reverse_reverse base] at hd
    refine stride_initial hs hmore ?_ hd hstride
    rw [branch?_eq_branch (isSome_number?_of_isDirectory hd), List.reverse_reverse]
  induction links generalizing base names with
  | zero =>
    rw [travel] at h ⊢
    split at h
    case h_1 => exact absurd h (by simp)
    case h_2 hstride =>
      obtain ⟨goal, halong, hgoal⟩ | ⟨_, _, _, -, hstop⟩ := hearlier hd hstride
      · exact ⟨goal, by rw [halong], hgoal⟩
      · exact absurd hstop (by simp)
    case h_3 => exact absurd h (by simp)
  | succ links ih =>
    rw [travel] at h ⊢
    split at h
    case h_1 => exact absurd h (by simp)
    case h_2 hstride =>
      obtain ⟨goal, halong, hgoal⟩ | ⟨_, _, _, -, hstop⟩ := hearlier hd hstride
      · exact ⟨goal, by rw [halong], hgoal⟩
      · exact absurd hstop (by simp)
    case h_3 directory target ahead hstride =>
      have hdirectory := (on_of_stride_branch hs hd hstride).1
      obtain ⟨goal, halong, hgoal⟩ | ⟨_, _, _, halong, hstop⟩ := hearlier hd hstride
      · exact ⟨goal, by rw [halong], hgoal⟩
      · obtain ⟨rfl, rfl, rfl⟩ := Stop.link.inj hstop
        rw [halong]
        dsimp only at h ⊢
        split at h
        case isTrue => exact absurd h (by simp)
        case isFalse hne =>
          obtain ⟨place', htravel, hland⟩ := exists_of_bind_eq_ok h
          obtain ⟨rfl, -⟩ := landing_eq_ok.mp hland
          rw [← List.append_assoc] at htravel
          obtain ⟨goal, hgoal, hd'⟩ := ih (hs.isDirectory_origin hdirectory) htravel
          refine ⟨goal, ?_, hd'⟩
          rw [if_neg hne, hgoal]
          exact landing_eq_ok.mpr ⟨rfl, fun _ _ => hd'⟩

/-- What a path passes on its way is a directory. -/
theorem reach_initial {q : Path} {more : List Name} (hs : v.Sound) (hnames : q.names = p.names ++ more)
    (ha : p.isAbsolute = q.isAbsolute) (hp : p ≠ []) (h : v.reach true q = .ok place) (hd : v.isDirectory place) :
    ∃ goal, v.reach true p = .ok goal ∧ v.isDirectory goal := by
  have hq := isEmpty_of_reach h
  have hempty : p.isEmpty = q.isEmpty := (List.isEmpty_eq_false_iff.mpr hp).trans hq.symm
  by_cases hmore : more = []
  · subst hmore
    rw [List.append_nil] at hnames
    exact ⟨place, reach_congr_of_isDirectory hnames.symm ha hempty h hd, hd⟩
  · obtain ⟨base, hbase, halong, -⟩ := reach_eq_ok.mp h
    have hstart : v.isDirectory (origin base q) := (way_of_along hs halong).2 (by simp [hnames, hmore])
    have htravel : v.travel true maxLinks (origin base q) (p.names ++ more) = .ok place := by
      simpa [along, hq, hstart, hnames] using halong
    obtain ⟨goal, hgoal, hd'⟩ := travel_initial hs hmore hstart htravel
    refine ⟨goal, reach_eq_ok.mpr ⟨base, (baseOf_congr ha hempty).trans hbase, ?_, fun _ => .inl hd'⟩, hd'⟩
    rw [follows_true, along, List.isEmpty_eq_false_iff.mpr hp, origin, ha, ← origin, hstart]
    simpa using hgoal

/-! ## Entries by their paths -/

/-- What a walk along the name of an entry comes to. -/
theorem travel_singleton (hs : v.Sound) (hd : v.isDirectory place)
    (ho : v.object? (place ++ [name]) = some object)
    (hl : follow → ∀ target, object.content ≠ .symlink target) (links : Nat) :
    v.travel follow links place [name] = .ok (place ++ [name]) := by
  obtain ⟨number, hnumber, -⟩ := object?_eq_some.mp ho
  have hplain : Path.IsPlain name := hs.plain (by rw [hnumber]; rfl)
  have hb := branch?_eq_branch (isSome_number?_of_isDirectory hd)
  have hcontent := object?_concat hb name
  rw [ho, Option.map_some] at hcontent
  have hstride : v.stride follow place.reverse (v.branch place) [name] = .ok (.done (place ++ [name])) := by
    rw [stride, if_neg hplain.2.2.1]
    cases hfind : (v.branch place).inner.find? name with
    | none => simp [hfind] at hcontent
    | some inner =>
      rw [hfind, Option.bind_some] at hcontent
      simp only [← hcontent]
      split
      case h_1 => simp [stride, Stop.arrival]
      case h_2 target hc =>
        have hf : follow = false := by
          by_contra hf
          exact hl (by simpa using hf) target (Option.some.inj hc)
        simp [hf, Stop.arrival]
      case h_3 => simp [Stop.arrival]
  cases links <;> rw [travel, hstride]

/-- What a walk along a name comes to at which nothing stands. -/
theorem travel_singleton_vacant (hd : v.isDirectory place) (hup : name ≠ Path.up) (hv : v.Vacant (place ++ [name]))
    (links : Nat) : v.travel follow links place [name] = .ok (place ++ [name]) := by
  have hb := branch?_eq_branch (isSome_number?_of_isDirectory hd)
  have hstride : v.stride follow place.reverse (v.branch place) [name] = .ok (.done (place ++ [name])) := by
    rw [stride, if_neg hup]
    cases hfind : (v.branch place).inner.find? name with
    | none => simp [Stop.arrival]
    | some inner =>
      rw [Vacant, number?, branch?_concat hb hfind] at hv
      exact absurd hv (by simp)
  cases links <;> rw [travel, hstride]

theorem reach_join_vacant (hs : v.Sound) (h : v.reach true p = .ok place) (hd : v.isDirectory place)
    (hn : Path.IsPlain name) (hv : v.Vacant (place ++ [name])) (follow : Bool) :
    v.reach follow (p.join name) = .ok (place ++ [name]) := by
  obtain ⟨left, hleft⟩ := reach_concat hs h hd hn
  rw [hleft, travel_singleton_vacant hd hn.2.2.1 hv]

theorem reach_join (hs : v.Sound) (h : v.reach true p = .ok place) (hd : v.isDirectory place)
    (ho : v.object? (place ++ [name]) = some object) : v.reach false (p.join name) = .ok (place ++ [name]) := by
  obtain ⟨number, hnumber, -⟩ := object?_eq_some.mp ho
  obtain ⟨left, hleft⟩ := reach_concat hs h hd (hs.plain (by rw [hnumber]; rfl))
  rw [hleft, travel_singleton hs hd ho (fun hf => absurd hf Bool.false_ne_true)]

theorem reach_join_unlinked (hs : v.Sound) (h : v.reach true p = .ok place) (hd : v.isDirectory place)
    (ho : v.object? (place ++ [name]) = some object) (hl : ∀ target, object.content ≠ .symlink target) :
    v.reach true (p.join name) = .ok (place ++ [name]) := by
  obtain ⟨number, hnumber, -⟩ := object?_eq_some.mp ho
  obtain ⟨left, hleft⟩ := reach_concat hs h hd (hs.plain (by rw [hnumber]; rfl))
  rw [hleft, travel_singleton hs hd ho fun _ => hl]

end Bytework.Volume
