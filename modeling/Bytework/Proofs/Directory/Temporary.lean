import Bytework.Proofs.Directory.Made
import Bytework.Proofs.Directory.Removed
import Mathlib.Logic.Relation

/-!
# Temporary directories

A temporary directory gets the first name, of those that are tried, under which nothing stands. So it is another one
than all that stand already, whoever made them, and their paths stay apart for as long as they stand.

* `apply_makeFirst`: the first name that is free; `apply_createTemp`: which one that is.
* `Lodged`: a path that leads to a directory among the temporary ones, and not by way of that directory itself.
* `TempStep`: what happens to the directories that have been made; `Housed.step`: all of them stay lodged.
* **`createTemp_first_free`**: what is made, and that the paths in use are pairwise distinct.
-/

namespace Bytework

open Bytework.Action Volume

namespace Directory

variable {v v' : Volume} {base place w : Place} {name : Name} {p q : Path} {tag : Name} {n : Nat}

/-! ## The first free name -/

theorem tempName_eq (tag : Name) (n : Nat) :
    tempName tag n = 'i' :: ("o-kit-".toList ++ tag ++ '-' :: Nat.toDigits 10 n) := rfl

/-- A name for a temporary directory is one that an entry can have. -/
theorem isPlain_tempName (h : '/' ∉ tag) (n : Nat) : Path.IsPlain (tempName tag n) := by
  have hhead : '/' ∉ "o-kit-".toList := by decide
  have hdigits : '/' ∉ Nat.toDigits 10 n := fun hmem =>
    absurd (Nat.isDigit_of_mem_toDigits (by decide) (by decide) hmem) (by decide)
  have hfirst : '/' ≠ 'i' := by decide
  have hdash : '/' ≠ '-' := by decide
  rw [tempName_eq]
  refine ⟨List.cons_ne_nil _ _, fun he => ?_, fun he => ?_, ?_⟩
  · exact absurd (List.head_eq_of_cons_eq he) (by decide)
  · exact absurd (List.head_eq_of_cons_eq he) (by decide)
  · rw [List.mem_cons, List.mem_append, List.mem_append, List.mem_cons, not_or, not_or, not_or, not_or]
    exact ⟨hfirst, ⟨hhead, h⟩, hdash, hdigits⟩

/-- A name is free in a directory if nothing stands under it. -/
def free (v : Volume) (base : Place) (name : Name) : Bool := (v.number? (base ++ [name])).isNone

theorem free_iff : free v base name ↔ v.Vacant (base ++ [name]) := Option.isNone_iff_eq_none

/-- A volume with a new temporary directory. -/
def withTemp (v : Volume) (base : Place) (name : Name) : Volume :=
  v.create (base ++ [name]) (v.newDirectory (base ++ [name]) tempMode)

theorem apply_makeFirst (hs : v.Sound) (hr : v.reach true p = .ok base) (hd : v.isDirectory base) {names : List Name}
    (hplain : ∀ name ∈ names, Path.IsPlain name) :
    (makeFirst platform (names.map p.join)).apply v =
      match names.find? (free v base) with
      | none => (.ok none, v)
      | some name => (.ok (some (p.join name)), withTemp v base name) := by
  induction names with
  | nil => rfl
  | cons name names ih =>
    obtain ⟨hn, hrest⟩ := List.forall_mem_cons.mp hplain
    rw [List.map_cons, makeFirst, List.find?_cons]
    cases hfree : free v base name with
    | true =>
      have hmk : (platform.mkdir (p.join name) tempMode).apply v = (.ok (), withTemp v base name) := by
        rw [apply_mkdir, mkdir_join_vacant hs hr hd hn (free_iff.mp hfree)]
        rfl
      exact apply_bind_ok (apply_outcome hmk)
    | false =>
      have hmk : (platform.mkdir (p.join name) tempMode).apply v =
          (.error (.system (.mkdir (p.join name)) .entryExists), v) := by
        rw [apply_mkdir, mkdir_join_stands hs hr hd fun hv => by simp [free_iff.mpr hv] at hfree]
      rw [apply_bind_ok (apply_outcome hmk)]
      exact ih hrest

/-- A name that is free, and the first one of those that are tried. -/
structure FirstFree (v : Volume) (tag : Name) (n : Nat) : Prop where
  lt : n < 1000
  free : ¬ v.Found (v.temp.join (tempName tag n))
  first : ∀ m < n, v.Found (v.temp.join (tempName tag m))

theorem FirstFree.unique {m : Nat} (h : FirstFree v tag n) (h' : FirstFree v tag m) : n = m := by
  rcases Nat.lt_trichotomy n m with hlt | he | hlt
  · exact absurd (h'.first n hlt) h.free
  · exact he
  · exact absurd (h.first m hlt) h'.free

/-- The first free name is taken for a new directory; if there is none, nothing is done. -/
theorem apply_createTemp (hs : v.Sound) (hr : v.reach true v.temp = .ok base) (hd : v.isDirectory base)
    (htag : '/' ∉ tag) :
    (∃ n, FirstFree v tag n ∧ (createTemp platform tag).apply v =
      (.ok (v.temp.join (tempName tag n)), withTemp v base (tempName tag n))) ∨
    (∀ n < 1000, v.Found (v.temp.join (tempName tag n))) ∧
      (createTemp platform tag).apply v = (.error (.noFreeName v.temp 1000), v) := by
  have hfound (n : Nat) : v.Found (v.temp.join (tempName tag n)) ↔ ¬ free v base (tempName tag n) := by
    rw [found_join_iff hs hr hd (isPlain_tempName htag n), free_iff]
  have hplain : ∀ name ∈ (List.range tempAttempts).map (tempName tag), Path.IsPlain name := by
    intro name hmem
    obtain ⟨n, -, rfl⟩ := List.mem_map.mp hmem
    exact isPlain_tempName htag n
  have hfirst := apply_makeFirst hs hr hd hplain
  rw [List.map_map, List.find?_map, Function.comp_def v.temp.join] at hfirst
  have hbase : (Action.of fun v : Volume => (.ok (platform.tempDir v), v)).apply v = (.ok v.temp, v) := rfl
  rw [createTemp, apply_bind_ok hbase]
  cases hfind : (List.range tempAttempts).find? (free v base ∘ tempName tag) with
  | none =>
    rw [hfind] at hfirst
    refine .inr ⟨fun n hn => (hfound n).mpr ?_, ?_⟩
    · simpa using List.find?_eq_none.mp hfind n (List.mem_range.mpr hn)
    · rw [apply_bind_ok hfirst]
      rfl
  | some n =>
    rw [hfind] at hfirst
    obtain ⟨hfree, hn, hbefore⟩ := List.find?_range_eq_some.mp hfind
    refine .inl ⟨n, ⟨List.mem_range.mp hn, fun h => (hfound n).mp h hfree, fun m hm => (hfound m).mpr ?_⟩, ?_⟩
    · simpa using hbefore m hm
    · rw [apply_bind_ok hfirst]
      rfl

/-- A path leads to an empty directory, which is new, and nothing else has changed. What is asked for is that it is
for its owner only; the mask may take bits from that, and the directory around it may hand its group on. -/
structure MadeAlone (v : Volume) (p : Path) (v' : Volume) : Prop extends Gains v v' where
  alone : ∃ place, v.Vacant place ∧ (∀ follow, v'.reach follow p = .ok place) ∧
    v'.object? place = some (v.newDirectory place 0o700) ∧ v'.names place = [] ∧
    ∀ w, w ≠ place → v'.number? w = v.number? w ∧ v'.object? w = v.object? w

theorem madeAlone_withTemp (hs : v.Sound) (hr : v.reach true p = .ok base) (hd : v.isDirectory base)
    (hn : Path.IsPlain name) (hv : v.Vacant (base ++ [name])) :
    MadeAlone v (p.join name) (withTemp v base name) := by
  have hstands := isSome_number?_of_isDirectory hd
  have hgains : Gains v (withTemp v base name) := gains_create hs hd hv hn
  have hnumber (w : Place) : (withTemp v base name).number? w =
      if w = base ++ [name] then some v.objects.size else v.number? w := number?_create hstands hv w
  have hobject (w : Place) : (withTemp v base name).object? w =
      if w = base ++ [name] then some (v.newDirectory (base ++ [name]) tempMode) else v.object? w :=
    object?_create hs hstands hv w
  have ho := (hobject (base ++ [name])).trans (if_pos rfl)
  have hr' := hgains.reach hs hr (not_vacant_of_isDirectory hd)
  refine ⟨hgains, _, hv, fun follow => ?_, ho, ?_, fun w hw => ?_⟩
  · cases follow with
    | false => exact reach_join (hgains.sound hs) hr' (hgains.isDirectory hd) ho
    | true =>
      exact reach_join_unlinked (hgains.sound hs) hr' (hgains.isDirectory hd) ho fun target => by simp
  · refine List.eq_nil_iff_forall_not_mem.mpr fun next hnext => ?_
    have hsome := mem_names.mp hnext
    rw [hnumber, if_neg fun he => by simpa using congrArg List.length he, number?_append_eq_none [next] hv] at hsome
    exact absurd hsome Bool.false_ne_true
  · rw [hnumber, hobject, if_neg hw, if_neg hw]
    exact ⟨rfl, rfl⟩

/-! ## Changes by others -/

theorem keeps_update {inv : Volume → Prop} {call : Call} {change : Volume → Except Errno Volume}
    (h : ∀ v v', change v = .ok v' → inv v → inv v') : (update call change).Keeps inv := fun v hv =>
  (ends_update call change v).mono (fun _ v' hc => h v v' hc hv) fun _ _ he => he ▸ hv

/-- A directory that is made with its parents is only something more, also if not all of them can be made. -/
theorem gains_apply_create (hs : v.Sound) (p : Path) : Gains v ((create platform p).apply v).2 := by
  have hone (p : Path) : (makeOne platform p).Keeps (Gains v) := by
    intro s hg
    have hmk : (platform.mkdir p directoryMode).Keeps (Gains v) :=
      keeps_update fun u u' hu hg => hg.trans (gains_mkdir (hg.sound hs) hu)
    refine Ends.bind_outcome (hmk s hg) (fun _ _ hg' => Ends.pure hg') fun e s' hg' => ?_
    refine (ends_isDirectory falters_platform s' p).bind fun is s'' hend => ?_
    obtain rfl : s'' = s' := hend.1.1
    cases is with
    | true => exact Ends.pure hg'
    | false => exact Ends.throw hg'
  refine Ends.always ?_
  rw [create]
  split
  · exact Ends.throw (.refl v)
  · refine (ends_missing falters_platform p.length v (Upward.refl p)).andThen
      (fun _ s hstill => ?_) fun ps s hend => ?_
    · obtain rfl : s = v := hstill.1
      exact .refl s
    · obtain rfl : s = v := hend.1.1
      exact Ends.forM _ (.refl s) fun p' _ => hone p'

theorem temp_of_rmdir (h : v.rmdir p = .ok v') : v'.temp = v.temp := by
  obtain ⟨_, place, object, -, rfl⟩ := removable_of_rmdir h
  rfl

theorem temp_of_unlink (h : v.unlink p = .ok v') : v'.temp = v.temp := by
  obtain ⟨_, place, object, -, rfl⟩ := removable_of_unlink h
  rfl

theorem keeps_temp_removeEntry {temp : Path} (levels : Nat) (entry : Entry) :
    (removeEntry platform levels entry).Keeps (·.temp = temp) := by
  induction levels generalizing entry with
  | zero => exact .throw _
  | succ levels ih =>
    rw [removeEntry]
    split
    case isTrue =>
      refine .bind (fun v hv => ?_) fun entries => .bind (fun v hv => ?_) fun _ => keeps_update fun v v' h ht => ?_
      · exact (ends_children_list falters_platform v entry.path).mono
          (fun _ _ h => (congrArg Volume.temp h.1.1).trans hv) fun _ _ h => (congrArg Volume.temp h.1).trans hv
      · exact Ends.forM _ hv fun child _ => ih child
      · exact (temp_of_rmdir h).trans ht
    case isFalse => exact keeps_update fun v v' h ht => (temp_of_unlink h).trans ht

theorem keeps_temp_removeRecursive {temp : Path} (p : Path) :
    (removeRecursive platform p).Keeps (·.temp = temp) := by
  intro v hv
  refine Ends.bind_outcome (falters_platform.lstat v p) (fun entry v' h => ?_) fun e v' h => ?_
  · refine ends_withLevels fun levels => keeps_temp_removeEntry levels entry v' ?_
    exact (congrArg Volume.temp h.1.1).trans hv
  · have ht : v'.temp = temp := (congrArg Volume.temp h.1.1).trans hv
    dsimp only
    split
    · exact Ends.throw ht
    · exact Ends.pure ht

/-- What a removal touches is at its path and below. -/
theorem bounded_removal (hs : v.Sound) (hr : v.reach false p = .ok (base ++ [name]))
    (h : (remove platform p).apply v = (.ok (), v') ∨ (removeRecursive platform p).apply v = (.ok (), v')) :
    Bounded (base ++ [name] <+: ·) (fun _ => False) v v' ∧ v'.temp = v.temp := by
  rcases h with hrun | hrun
  · have hend := (ends_update (.rmdir p) (·.rmdir p) v).ok (x := ()) (congrArg Prod.fst hrun)
    have hrmdir := hend.trans (congrArg (Except.ok ·.2) hrun)
    refine ⟨?_, temp_of_rmdir hrmdir⟩
    obtain ⟨place, hr', -, -, rfl⟩ := removes_of_rmdir hs hrmdir
    obtain rfl := Except.ok.inj (hr.symm.trans hr')
    exact bounded_drop base name
  · have hends : (removeRecursive platform p).Ends v (fun _ v' =>
        reading.Removes (base ++ [name]) (fun _ => False) v v' ∧ Cleared reading p (base ++ [name]) v v') _ :=
      ends_removeRecursive_of_leads falters_platform hs (leads_of_reach hs hr)
    have hend := hends.ok (x := ()) (congrArg Prod.fst hrun)
    have htemp := (keeps_temp_removeRecursive p v rfl).ok (x := ()) (congrArg Prod.fst hrun)
    rw [hrun] at hend htemp
    exact ⟨hend.1.bounded, htemp⟩

/-! ## Paths in use -/

/-- A path names a directory beside the other temporary ones, and the way to them does not pass it. -/
def Lodged (v : Volume) (base : Place) (p : Path) : Prop :=
  ∃ name, Path.IsPlain name ∧ p = v.temp.join name ∧ v.isDirectory (base ++ [name]) ∧
    v.Leads (fun w => v.Vacant w ∨ base ++ [name] <+: w) true v.temp base

theorem leads_of_gains (hg : Gains v v') (hd : v.isDirectory base)
    (hl : v.Leads (fun w => v.Vacant w ∨ place <+: w) true p base) :
    v'.Leads (fun w => v'.Vacant w ∨ place <+: w) true p base := by
  refine (hg.leads (fun w hw => .inl hw) hd hl).mono fun w hw => hw.imp_left fun hv => ?_
  by_contra hstands
  exact hg.not_vacant hstands hv

theorem lodged_withTemp (hs : v.Sound) (hr : v.reach true v.temp = .ok base) (hd : v.isDirectory base)
    (hn : Path.IsPlain name) (hv : v.Vacant (base ++ [name])) :
    Lodged (withTemp v base name) base (v.temp.join name) := by
  refine ⟨name, hn, rfl, isDirectory_iff.mpr ⟨_, ?_, content_newDirectory v (base ++ [name]) tempMode⟩, ?_⟩
  · rw [withTemp, object?_create hs (isSome_number?_of_isDirectory hd) hv, if_pos rfl]
  · refine leads_of_gains (gains_create hs hd hv hn) hd ((leads_of_reach hs hr).mono fun w hw => ?_)
    rcases hw with hw | ⟨below, rfl⟩
    · exact hw
    · exact number?_append_eq_none below hv

namespace Lodged

theorem gains (h : Lodged v base p) (hg : Gains v v') (hd : v.isDirectory base) : Lodged v' base p := by
  obtain ⟨name, hn, rfl, hdir, hl⟩ := h
  refine ⟨name, hn, by rw [hg.temp], hg.isDirectory hdir, ?_⟩
  rw [hg.temp]
  exact leads_of_gains hg hd hl

theorem reach (h : Lodged v base p) (hs : v.Sound) (hr : v.reach true v.temp = .ok base) (hd : v.isDirectory base) :
    ∃ place, v.isDirectory place ∧ ∀ follow, v.reach follow p = .ok place := by
  obtain ⟨name, -, rfl, hdir, -⟩ := h
  obtain ⟨object, ho, hc⟩ := isDirectory_iff.mp hdir
  refine ⟨_, hdir, fun follow => ?_⟩
  cases follow with
  | false => exact reach_join hs hr hd ho
  | true => exact reach_join_unlinked hs hr hd ho fun target => by simp [hc]

/-- A path in use stays so when another one is removed, and so does the place of temporary directories. -/
theorem of_removal (h : Lodged v base p) (hs : v.Sound) (hr : v.reach true v.temp = .ok base) (hd : v.isDirectory base)
    (hrun : (remove platform p).apply v = (.ok (), v') ∨ (removeRecursive platform p).apply v = (.ok (), v')) :
    v'.Sound ∧ v'.reach true v'.temp = .ok base ∧ v'.isDirectory base ∧
      ∀ q, q ≠ p → Lodged v base q → Lodged v' base q := by
  obtain ⟨name, hn, rfl, hdir, hl⟩ := h
  obtain ⟨object, ho, -⟩ := isDirectory_iff.mp hdir
  obtain ⟨hb, htemp⟩ := bounded_removal hs (reach_join hs hr hd ho) hrun
  have hbase := not_concat_isPrefix base name
  have hd' := hb.isDirectory hbase hd
  refine ⟨hb.sound hs, ?_, hd', ?_⟩
  · rw [htemp]
    exact reach_agrees (hb.agrees hs fun _ hw => hw) hs (hb.sound hs)
      (fun w hw => hw.trans w.dropLast_prefix) (fun hw => by simpa using hw.length_le) hbase
      (not_vacant_of_isDirectory hd) (hl.mono fun _ => .inr) hr
  · rintro _ hne ⟨other, hother, rfl, hdir', hl'⟩
    have hapart : ¬ base ++ [name] <+: base ++ [other] := by
      intro hpre
      have he := hpre.eq_of_length (by simp)
      exact hne (by rw [List.singleton_injective (List.append_cancel_left he)])
    refine ⟨other, hother, by rw [htemp], hb.isDirectory hapart hdir', ?_⟩
    rw [htemp]
    -- the way passes neither directory, so it can be gone after one of them has been taken away
    have hboth := hb.leads hs (fun w hw => .inr (.inr hw))
      (fun _ hlink => absurd (passable_of_isDirectory hd') hlink.not_passable) (Way.both hl' hl)
    refine hboth.mono fun w hw => ?_
    rcases hw with hv | hw
    · by_cases hgone : base ++ [name] <+: w
      · exact .inr (.inr hgone)
      · exact .inl (.inl (((hb.outside w hgone).resolve_right fun hnew => hnew.2.1).symm.trans hv))
    · exact .inl (.inr hw)

end Lodged

/-! ## Runs -/

/-- Something else is made: a directory with its parents, of which there may be none in the end, a directory, a link,
one more place for an object, or a copy of a file where there was none. -/
inductive Adds (v v' : Volume) : Prop
  | create {p : Path} : v' = ((create platform p).apply v).2 → Adds v v'
  | mkdir {p : Path} {mode : Nat} : v.mkdir p mode = .ok v' → Adds v v'
  | symlink {target p : Path} : v.symlink target p = .ok v' → Adds v v'
  | link {target p : Path} : v.link target p = .ok v' → Adds v v'
  | copyFile {p q : Path} {bytes : Nat} : v.copyFile p q = .ok (bytes, v') →
      (∀ entry, v.stat true q ≠ .ok entry) → Adds v v'

theorem Adds.gains (h : Adds v v') (hs : v.Sound) : Gains v v' := by
  cases h with
  | create h => exact h ▸ gains_apply_create hs _
  | mkdir h => exact gains_mkdir hs h
  | symlink h => exact gains_symlink hs h
  | link h => exact gains_link hs h
  | copyFile h hnew => exact gains_copyFile hs h hnew

/-- What happens to a volume and to the paths of the temporary directories that have been made and not been removed:
one more is made, or none because no name is free; something else is made, or has come in any other way; one of
them is removed. -/
inductive TempStep : Volume × List Path → Volume × List Path → Prop
  | made {v v' : Volume} {ps : List Path} {tag : Name} {p : Path} : '/' ∉ tag →
      (createTemp platform tag).apply v = (.ok p, v') → TempStep (v, ps) (v', p :: ps)
  | refused {v v' : Volume} {ps : List Path} {tag : Name} {e : Failure} : '/' ∉ tag →
      (createTemp platform tag).apply v = (.error e, v') → TempStep (v, ps) (v', ps)
  | added {v v' : Volume} {ps : List Path} : Adds v v' → TempStep (v, ps) (v', ps)
  | gained {v v' : Volume} {ps : List Path} : Gains v v' → TempStep (v, ps) (v', ps)
  | removed {v v' : Volume} {ps : List Path} {p : Path} : p ∈ ps →
      (remove platform p).apply v = (.ok (), v') ∨ (removeRecursive platform p).apply v = (.ok (), v') →
      TempStep (v, ps) (v', ps.erase p)

/-- The temporary directories stand beside each other under paths that are pairwise distinct. -/
structure Housed (base : Place) (v : Volume) (ps : List Path) : Prop where
  sound : v.Sound
  reach : v.reach true v.temp = .ok base
  directory : v.isDirectory base
  nodup : ps.Nodup
  lodged : ∀ p ∈ ps, Lodged v base p

namespace Housed

variable {ps : List Path} {state state' : Volume × List Path}

theorem gains (h : Housed base v ps) (hg : Gains v v') : Housed base v' ps where
  sound := hg.sound h.sound
  reach := by
    rw [hg.temp]
    exact hg.reach h.sound h.reach (not_vacant_of_isDirectory h.directory)
  directory := hg.isDirectory h.directory
  nodup := h.nodup
  lodged p hp := (h.lodged p hp).gains hg h.directory

theorem found (h : Housed base v ps) (hp : p ∈ ps) : v.Found p := by
  obtain ⟨place, hd, hr⟩ := (h.lodged p hp).reach h.sound h.reach h.directory
  obtain ⟨object, ho, -⟩ := isDirectory_iff.mp hd
  exact found_iff.mpr ⟨place, object, hr false, ho⟩

/-- A new directory gets a path that was not in use. -/
theorem made (h : Housed base v ps) (htag : '/' ∉ tag) (hrun : (createTemp platform tag).apply v = (.ok p, v')) :
    Housed base v' (p :: ps) := by
  rcases apply_createTemp h.sound h.reach h.directory htag with ⟨n, hfirst, hmade⟩ | ⟨-, hnone⟩
  · obtain ⟨hp, rfl⟩ := Prod.mk.inj (hrun.symm.trans hmade)
    obtain rfl := Except.ok.inj hp
    have hn := isPlain_tempName htag n
    have hv : v.Vacant (base ++ [tempName tag n]) := by
      by_contra hstands
      exact hfirst.free ((found_join_iff h.sound h.reach h.directory hn).mpr hstands)
    have hgained : Housed base (withTemp v base (tempName tag n)) ps :=
      h.gains (gains_create h.sound h.directory hv hn)
    exact { hgained with
      nodup := List.nodup_cons.mpr ⟨fun hmem => hfirst.free (h.found hmem), h.nodup⟩
      lodged := List.forall_mem_cons.mpr ⟨lodged_withTemp h.sound h.reach h.directory hn hv, hgained.lodged⟩ }
  · exact absurd (congrArg Prod.fst (hrun.symm.trans hnone)) (by simp)

theorem refused {e : Failure} (h : Housed base v ps) (htag : '/' ∉ tag)
    (hrun : (createTemp platform tag).apply v = (.error e, v')) : Housed base v' ps := by
  rcases apply_createTemp h.sound h.reach h.directory htag with ⟨n, -, hmade⟩ | ⟨-, hnone⟩
  · exact absurd (congrArg Prod.fst (hrun.symm.trans hmade)) (by simp)
  · obtain rfl := congrArg Prod.snd (hrun.symm.trans hnone)
    exact h

theorem removed (h : Housed base v ps) (hp : p ∈ ps)
    (hrun : (remove platform p).apply v = (.ok (), v') ∨ (removeRecursive platform p).apply v = (.ok (), v')) :
    Housed base v' (ps.erase p) := by
  obtain ⟨hs', hr', hd', hlodged⟩ := (h.lodged p hp).of_removal h.sound h.reach h.directory hrun
  refine ⟨hs', hr', hd', h.nodup.erase p, fun q hq => ?_⟩
  obtain ⟨hne, hq⟩ := h.nodup.mem_erase_iff.mp hq
  exact hlodged q hne (h.lodged q hq)

theorem step (h : Housed base state.1 state.2) (hstep : TempStep state state') : Housed base state'.1 state'.2 := by
  cases hstep with
  | made htag hrun => exact h.made htag hrun
  | refused htag hrun => exact h.refused htag hrun
  | added hadds => exact h.gains (hadds.gains h.sound)
  | gained hg => exact h.gains hg
  | removed hp hrun => exact h.removed hp hrun

theorem run (h : Housed base state.1 state.2) (hrun : Relation.ReflTransGen TempStep state state') :
    Housed base state'.1 state'.2 := by
  induction hrun with
  | refl => exact h
  | tail _ hstep ih => exact ih.step hstep

end Housed

/-- Where there is a directory for temporary ones, a new one gets the first name of a thousand under which nothing
is found: it is empty, and nothing else has changed. If all of the names are taken, and only
then, the call fails, and nothing has changed. In any run that makes temporary directories, makes other things
and removes temporary directories, the paths of those that have not been removed are pairwise distinct, and all of
them are directories. -/
theorem createTemp_first_free (hs : v.Sound) (hr : v.reach true v.temp = .ok base) (hd : v.isDirectory base)
    (htag : '/' ∉ tag) :
    ((∃ n v', FirstFree v tag n ∧ (createTemp platform tag).apply v = (.ok (v.temp.join (tempName tag n)), v') ∧
          MadeAlone v (v.temp.join (tempName tag n)) v') ∨
        (∀ n < 1000, v.Found (v.temp.join (tempName tag n))) ∧
          (createTemp platform tag).apply v = (.error (.noFreeName v.temp 1000), v)) ∧
      ((∃ e, ((createTemp platform tag).apply v).1 = .error e) ↔
        ∀ n < 1000, v.Found (v.temp.join (tempName tag n))) ∧
      ∀ v' ps, Relation.ReflTransGen TempStep (v, []) (v', ps) →
        ps.Nodup ∧ ∀ p ∈ ps, (isDirectory platform p).apply v' = (.ok true, v') := by
  have hends := apply_createTemp hs hr hd htag
  refine ⟨hends.imp_left ?_, ⟨?_, fun hall => ?_⟩, fun v' ps hrun => ?_⟩
  · rintro ⟨n, hfirst, hmade⟩
    refine ⟨n, _, hfirst, hmade, madeAlone_withTemp hs hr hd (isPlain_tempName htag n) ?_⟩
    by_contra hstands
    exact hfirst.free ((found_join_iff hs hr hd (isPlain_tempName htag n)).mpr hstands)
  · rintro ⟨e, herror⟩
    rcases hends with ⟨n, -, hmade⟩ | ⟨hall, -⟩
    · rw [hmade] at herror
      exact absurd herror (by simp)
    · exact hall
  · rcases hends with ⟨n, hfirst, -⟩ | ⟨-, hnone⟩
    · exact absurd (hall n hfirst.lt) hfirst.free
    · exact ⟨_, congrArg Prod.fst hnone⟩
  · have hstart : Housed base (v, ([] : List Path)).1 (v, ([] : List Path)).2 :=
      ⟨hs, hr, hd, List.nodup_nil, fun p hp => absurd hp List.not_mem_nil⟩
    have hend := hstart.run hrun
    refine ⟨hend.nodup, fun p hp => ?_⟩
    obtain ⟨place, hdir, hreach⟩ := (hend.lodged p hp).reach hend.sound hend.reach hend.directory
    obtain ⟨entry, hentry, hstat⟩ := apply_stat_directory (hreach true) hdir
    rw [← hentry]
    exact apply_succeeds hstat

/-- A directory for temporary ones, with the setgid bit, in which two names are taken, by a file and by a link that
leads nowhere. -/
def littered : Volume :=
  { grown [(placeOf ["tmp"], .directory), (placeOf ["tmp", "io-kit-7-0"], .file []),
      (placeOf ["tmp", "io-kit-7-1"], .symlink "/gone".toList)] with temp := "/tmp".toList }.alter (placeOf ["tmp"])
    fun object => { object with attributes := { object.attributes with mode := 0o3777 } }

theorem sound_with_temp (hs : v.Sound) (temp : Path) : Sound { v with temp } :=
  ⟨hs.root, hs.stored, hs.enclosed, hs.plain, hs.distinct⟩

theorem sound_littered : littered.Sound :=
  (sound_with_temp (sound_grown (by decide +kernel)) "/tmp".toList).alter fun _ => rfl

theorem createTemp_first_free_littered :
    (littered.Sound ∧ littered.reach true littered.temp = .ok (placeOf ["tmp"]) ∧
      littered.isDirectory (placeOf ["tmp"]) ∧ '/' ∉ ['7']) ∧
    (∃ v', FirstFree littered ['7'] 2 ∧
      (createTemp platform ['7']).apply littered = (.ok "/tmp/io-kit-7-2".toList, v') ∧
      MadeAlone littered "/tmp/io-kit-7-2".toList v') ∧
    (∀ v' ps, Relation.ReflTransGen TempStep (littered, []) (v', ps) →
      ps.Nodup ∧ ∀ p ∈ ps, (isDirectory platform p).apply v' = (.ok true, v')) ∧
    ∃ v', Relation.ReflTransGen TempStep (littered, [])
      (v', ["/tmp/io-kit-7-4".toList, "/tmp/io-kit-7-2".toList]) := by
  have hs := sound_littered
  have hr : littered.reach true littered.temp = .ok (placeOf ["tmp"]) := by decide +kernel
  have hd : littered.isDirectory (placeOf ["tmp"]) := by decide +kernel
  have hrun : ((createTemp platform ['7']).apply littered).1 = .ok "/tmp/io-kit-7-2".toList := by decide +kernel
  have hjoin : littered.temp.join (tempName ['7'] 2) = "/tmp/io-kit-7-2".toList := by decide +kernel
  have hsecond : FirstFree littered ['7'] 2 := by
    refine ⟨by decide, ?_, fun m hm => found_iff.mpr ?_⟩
    · rintro ⟨entry, hstat⟩
      have herror : littered.stat false (littered.temp.join (tempName ['7'] 2)) = .error .noEntry := by decide +kernel
      rw [herror] at hstat
      exact absurd hstat (by simp)
    · obtain rfl | rfl : m = 0 ∨ m = 1 := by omega
      · exact ⟨placeOf ["tmp", "io-kit-7-0"], .new (.file []) 0o755, by decide +kernel⟩
      · exact ⟨placeOf ["tmp", "io-kit-7-1"], .new (.symlink "/gone".toList) 0o755, by decide +kernel⟩
  have htag : '/' ∉ ['7'] := by decide
  obtain ⟨hends, -, hall⟩ := createTemp_first_free hs hr hd htag
  rcases hends with ⟨n, v', hfirst, hmade, halone⟩ | ⟨-, hnone⟩
  · obtain rfl := hfirst.unique hsecond
    rw [hjoin] at hmade halone
    refine ⟨⟨hs, hr, hd, htag⟩, ⟨v', hfirst, hmade, halone⟩, hall, ?_⟩
    -- the next name is taken by another directory in between
    have hnext : ((createTemp platform ['7']).apply ((create platform "/tmp/io-kit-7-3".toList).apply v').2).1 =
        .ok "/tmp/io-kit-7-4".toList := by
      obtain rfl : ((createTemp platform ['7']).apply littered).2 = v' := congrArg Prod.snd hmade
      decide +kernel
    exact ⟨_, ((Relation.ReflTransGen.single (.made htag hmade)).tail (.added (.create rfl))).tail
      (.made htag (apply_eq_ok hnext))⟩
  · rw [hnone] at hrun
    exact absurd hrun (by simp)

/-- The directory around it tells in the mode of a new temporary directory. -/
theorem createTemp_littered_mode :
    ((createTemp platform ['7']).apply littered).1 = .ok "/tmp/io-kit-7-2".toList ∧
      (((createTemp platform ['7']).apply littered).2.object? (placeOf ["tmp", "io-kit-7-2"])).map
        (·.attributes.mode) = some 0o2700 := by
  decide +kernel

end Directory

end Bytework
