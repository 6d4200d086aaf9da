import Bytework.Proofs.Directory.Itself
import Bytework.Proofs.Directory.Steady

/-!
# A directory that feeds itself

What becomes of an empty directory that is brought up to date with a place in it: each level that is made is read,
and then copied one level deeper.

* `apply_create_join`: a directory is made in a directory.
* `Barren.create`: it is empty, and the only one there.
* **`sync_barren`**: the work never ends, however many levels there are.
-/

namespace Bytework.Directory

open Bytework.Action Volume

variable {v v' : Volume} {place : Place} {name : Name} {p q : Path} {levels n : Nat}

/-! ## Making a name in a directory -/

theorem stat_join_vacant (hs : v.Sound) (hr : v.reach true p = .ok place) (hd : v.isDirectory place)
    (hn : Path.IsPlain name) (hv : v.Vacant (place ++ [name])) (follow : Bool) :
    v.stat follow (p.join name) = .error .noEntry := by
  rw [Volume.stat, find, reach_join_vacant hs hr hd hn hv follow]
  simp [hs.object?_eq_none.mpr hv, bind, Except.bind, throw, throwThe, MonadExceptOf.throw]

theorem mkdir_join_vacant (hs : v.Sound) (hr : v.reach true p = .ok place) (hd : v.isDirectory place)
    (hn : Path.IsPlain name) (hv : v.Vacant (place ++ [name])) (mode : Nat) :
    v.mkdir (p.join name) mode =
      .ok (v.create (place ++ [name]) (v.adopt (place ++ [name]) (.new .directory (v.grantedMode mode)))) := by
  have hvacant : v.vacant (p.join name) = .ok (place ++ [name]) := by
    rw [Volume.vacant, seat_join hn, reach_join_vacant hs hr hd hn hv false]
    simp [endsInName_join hn, hs.object?_eq_none.mpr hv, bind, Except.bind, pure, Except.pure]
  rw [Volume.mkdir, hvacant]
  rfl

/-- From the parent on nothing is missing. -/
theorem apply_missing_join (hs : v.Sound) (hr : v.reach true p = .ok place) (hd : v.isDirectory place)
    (ha : p.isAbsolute) (hn : Path.IsPlain name) (hv : v.Vacant (place ++ [name])) :
    (missing platform (n + 1) (p.join name)).apply v = (.ok [p.join name], v) := by
  obtain ⟨q, hparent, hnames, hq⟩ := Path.parent?_join hn ha
  have hempty : q.isEmpty = p.isEmpty := by rw [Path.isEmpty_of_isAbsolute ha, Path.isEmpty_of_isAbsolute hq]
  have hreach : v.reach true q = .ok place := reach_congr_of_isDirectory hnames (hq.trans ha.symm) hempty hr hd
  have hstat : (platform.stat (p.join name)).apply v = (.error (.system (.stat (p.join name)) .noEntry), v) := by
    rw [apply_stat, stat_join_vacant hs hr hd hn hv]
    rfl
  rw [missing, Path.isEmpty_join hn, if_neg Bool.false_ne_true, apply_bind_ok (apply_outcome hstat)]
  simp only [hparent]
  rw [apply_bind_ok (apply_missing hreach hd n)]
  rfl

/-- A directory is made in a directory. -/
theorem apply_create_join (hs : v.Sound) (hr : v.reach true p = .ok place) (hd : v.isDirectory place)
    (ha : p.isAbsolute) (hn : Path.IsPlain name) (hv : v.Vacant (place ++ [name])) :
    ∃ object : Object, object.content = .directory ∧
      (create platform (p.join name)).apply v = (.ok (), v.create (place ++ [name]) object) := by
  set object := v.adopt (place ++ [name]) (.new .directory (v.grantedMode directoryMode)) with hobject
  refine ⟨object, content_adopt _ _ _, ?_⟩
  have hempty : (p.join name).isEmpty = false := Path.isEmpty_join hn
  obtain ⟨c, q, hq⟩ := List.exists_cons_of_ne_nil (List.isEmpty_eq_false_iff.mp hempty)
  have hlength : (p.join name).length = q.length + 1 := by rw [hq, List.length_cons]
  have hmkdir : (platform.mkdir (p.join name) directoryMode).apply v =
      (.ok (), v.create (place ++ [name]) object) := by
    show (update (.mkdir (p.join name)) fun v => v.mkdir (p.join name) directoryMode).apply v = _
    rw [update, perform, apply_of, mkdir_join_vacant hs hr hd hn hv]
    rfl
  have hone : (makeOne platform (p.join name)).apply v =
      (.ok (), v.create (place ++ [name]) object) :=
    (apply_bind_ok (apply_outcome hmkdir)).trans rfl
  rw [create, hempty, if_neg Bool.false_ne_true, hlength, apply_bind_ok (apply_missing_join hs hr hd ha hn hv)]
  rw [makeAll, List.reverse_singleton]
  exact (apply_bind_ok hone).trans rfl

/-! ## Levels without end -/

/-- A directory with nothing in it. -/
structure Barren (v : Volume) (p : Path) (place : Place) : Prop where
  sound : v.Sound
  absolute : p.isAbsolute
  reach : v.reach true p = .ok place
  directory : v.isDirectory place
  vacant : ∀ name, v.Vacant (place ++ [name])

/-- What is made in an empty directory is all that is in it, and an empty directory. -/
theorem Barren.create (h : Barren v p place) (hn : Path.IsPlain name) :
    ∃ v', (Directory.create platform (p.join name)).apply v = (.ok (), v') ∧ v'.reach true p = .ok place ∧
      v'.isDirectory place ∧ (∀ other, other ∈ v'.names place → other = name) ∧
      Barren v' (p.join name) (place ++ [name]) := by
  have hs := h.sound
  have hv := h.vacant name
  obtain ⟨object, hc, hcreate⟩ := apply_create_join hs h.reach h.directory h.absolute hn hv
  have hstands := isSome_number?_of_isDirectory h.directory
  have hb : Bounded (· = place ++ [name]) (fun _ => False) v (v.create (place ++ [name]) object) :=
    bounded_create hs h.directory hv hn (.inl rfl)
  have hs' := hb.sound hs
  have hd' := hb.isDirectory (fun he => by simpa using congrArg List.length he) h.directory
  have ho' : (v.create (place ++ [name]) object).object? (place ++ [name]) = some object := by
    rw [object?_create hs hstands hv, if_pos rfl]
  have hbelow : ∀ w, place ++ [name] <+: w → v.Vacant w := by
    rintro _ ⟨more, rfl⟩
    exact number?_append_eq_none more hv
  have hreach' : (v.create (place ++ [name]) object).reach true p = .ok place := by
    refine reach_agrees (hb.agrees hs fun _ he => eq_isPrefix he) hs hs' (fun w hw => hw.trans w.dropLast_prefix)
      (fun hw => by simpa using hw.length_le) (not_concat_isPrefix place name) (Option.isSome_iff_ne_none.mp hstands)
      ((leads_of_reach hs h.reach).mono hbelow) h.reach
  have hnumber : ∀ w, (v.create (place ++ [name]) object).number? w =
      if w = place ++ [name] then some v.objects.size else v.number? w := number?_create hstands hv
  refine ⟨_, hcreate, hreach', hd', fun other hmem => ?_, hs', ?_, ?_, isDirectory_iff.mpr ⟨object, ho', hc⟩,
    fun other => ?_⟩
  · have hsome := mem_names.mp hmem
    rw [hnumber] at hsome
    split at hsome
    case isTrue he => exact List.singleton_injective (List.append_cancel_left he)
    case isFalse => exact absurd (h.vacant other) (Option.isSome_iff_ne_none.mp hsome)
  · rw [Path.isAbsolute_join hn]
    exact h.absolute
  · exact reach_join_unlinked hs' hreach' hd' ho' fun target => by simp [hc]
  · rw [Vacant, hnumber, if_neg fun he => by simpa using congrArg List.length he]
    exact hbelow _ (List.prefix_append _ _)

/-- An empty directory that is brought up to date with a name in it is never finished: all levels are used up, and
with each of them a directory has been made. -/
theorem ends_syncTree_barren (h : Barren v p place) (hn : Path.IsPlain name) (levels : Nat) :
    (syncTree platform levels p (p.join name)).Ends v (fun _ _ => False)
      fun e v' => e = .endless ∧ v'.isDirectory (place ++ List.replicate levels name) := by
  induction levels generalizing v p place with
  | zero => exact Ends.throw ⟨rfl, by rw [List.replicate_zero, List.append_nil]; exact h.directory⟩
  | succ levels ih =>
    obtain ⟨v', hcreate, hreach, hd, hnames, hnext⟩ := h.create hn
    obtain ⟨entries, hchildren⟩ := apply_children hnext.sound hreach hd
    have hends : (children platform p).Ends v' _ _ := ends_children falters_platform hnext.sound
    obtain ⟨-, directory, hreach', -, hall⟩ := hends.ok (by rw [hchildren])
    obtain rfl := Except.ok.inj (hreach.symm.trans hreach')
    have hmem : name ∈ v'.names place := mem_names.mpr (isSome_number?_of_isDirectory hnext.directory)
    rw [syncTree]
    refine Ends.after hcreate (Ends.after hchildren ?_)
    -- the only entry that is read is the directory that has been made
    change List.Forall₂ _ entries (v'.names place) at hall
    cases hlist : v'.names place with
    | nil => exact absurd (hlist ▸ hmem) List.not_mem_nil
    | cons first rest =>
      rw [hlist] at hall
      obtain rfl : first = name := hnames first (by rw [hlist]; exact List.mem_cons_self)
      cases hall with
      | @cons child _ children _ hchild _ =>
        have hvacant := stat_join_vacant hnext.sound hnext.reach hnext.directory hn (hnext.vacant first) false
        have hway : (namesSuch platform ((p.join first).join first)
            fun e => e.isDirectory != child.isDirectory).apply v' = (.ok false, v') :=
          apply_not_succeeds (apply_lstat_error hvacant)
        have hbody := ih hnext
        rw [List.append_assoc, List.singleton_append, ← List.replicate_succ] at hbody
        refine Ends.bind ?_ fun _ _ => False.elim
        dsimp only
        rw [hchild.childOf, hchild.path]
        refine Ends.after hway ?_
        rw [if_neg Bool.false_ne_true, if_pos (hchild.isDirectory_iff.mpr hnext.directory)]
        exact hbody

theorem apply_requireDirectory (hr : v.reach true p = .ok place) (hd : v.isDirectory place) :
    (requireDirectory platform p).apply v = (.ok (), v) := by
  obtain ⟨entry, hdir, hstat⟩ := apply_stat_directory hr hd
  rw [requireDirectory, apply_bind_ok hstat, hdir]
  rfl

/-- An empty directory is brought up to date with a name in it: no number of levels is enough. -/
theorem sync_barren (h : Barren v p place) (hn : Path.IsPlain name) (deleteExtraneous : Bool) :
    ((sync platform p (p.join name) deleteExtraneous).apply v).1 = .error .endless ∧
      ∀ levels, ((syncTree platform levels p (p.join name)).apply v).1 = .error .endless ∧
        ((syncTree platform levels p (p.join name)).apply v).2.isDirectory (place ++ List.replicate levels name) := by
  have hsync : (sync platform p (p.join name) deleteExtraneous).Ends v (fun _ _ => False) fun e _ => e = .endless := by
    refine Ends.after (apply_requireDirectory h.reach h.directory) (Ends.bind ?_ fun _ _ => False.elim)
    exact ends_withLevels_of ((ends_syncTree_barren h hn _).mono (fun _ _ => False.elim) fun _ _ hend => hend.1)
  obtain ⟨e, herror, rfl⟩ := hsync.fails
  refine ⟨herror, fun levels => ?_⟩
  obtain ⟨e, herror, rfl, hd⟩ := (ends_syncTree_barren h hn levels).fails
  exact ⟨herror, hd⟩

/-- An empty directory. -/
def hollow : Volume := grown [(placeOf ["src"], .directory)]

theorem barren_hollow : Barren hollow "/src".toList (placeOf ["src"]) where
  sound := sound_grown (by decide +kernel)
  absolute := by decide
  reach := by decide +kernel
  directory := by decide +kernel
  vacant name := by
    by_contra hstands
    have hmem := mem_of_not_vacant_grown (by decide +kernel) hstands
    have hlength : (placeOf ["src"] ++ [name]).length ≤ 1 := by
      simp only [List.map_cons, List.map_nil, List.mem_cons, List.not_mem_nil, or_false] at hmem
      rcases hmem with he | he <;> rw [he] <;> decide
    simp [placeOf] at hlength

/-- A directory that is brought up to date with a place in it is copied into its copies for ever. -/
theorem sync_into_itself_endless :
    (hollow.Sound ∧ hollow.isDirectory (placeOf ["src"])) ∧
    ((sync platform "/src".toList "/src/sub".toList false).apply hollow).1 = .error .endless ∧
      ∀ levels, ((syncTree platform levels "/src".toList "/src/sub".toList).apply hollow).1 = .error .endless ∧
        ((syncTree platform levels "/src".toList "/src/sub".toList).apply hollow).2.isDirectory
          (placeOf ["src"] ++ List.replicate levels "sub".toList) := by
  have hplain : Path.IsPlain "sub".toList := by decide
  have hjoin : Path.join "/src".toList "sub".toList = "/src/sub".toList := by decide +kernel
  have hends := sync_barren barren_hollow hplain false
  rw [hjoin] at hends
  exact ⟨⟨barren_hollow.sound, barren_hollow.directory⟩, hends⟩

end Bytework.Directory
