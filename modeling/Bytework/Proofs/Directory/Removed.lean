import Bytework.Proofs.Directory.Answers
import Bytework.Proofs.Directory.Confined

/-!
# What is taken away

What taking away leaves of a volume. Links are taken away and not followed, so nothing is lost that is not
below the path, whatever leads there.

* `Spared`: what stands outside some places is as it was.
* `apply_removeRecursive_of_error`: nothing is done where nothing is found.
* **`removeRecursive_clear`**: what is gone, and what is left.
-/

namespace Bytework

open Bytework.Action Directory

namespace Volume

variable {v v' : Volume} {gone : Place → Prop} {w : Place}

/-! ## What is spared -/

/-- What stands outside some places is as it was. -/
structure Spared (v : Volume) (gone : Place → Prop) (v' : Volume) : Prop where
  number : ∀ w, ¬ gone w → v'.number? w = v.number? w
  object : ∀ w, ¬ gone w → v'.object? w = v.object? w

end Volume

namespace Directory

open Volume

variable {v v' : Volume} {gone : Place → Prop} {place w : Place} {p : Path} {entry : Entry} {levels : Nat}

theorem spared_of_changes (hc : reading.Changes gone (fun _ => False) v v') (ht : Thinned v v') :
    v.Spared gone v' := by
  have hnumber (w : Place) (hw : ¬ gone w) : v'.number? w = v.number? w :=
    (hc.bounded.outside w hw).resolve_right fun hnew => hnew.2.1
  exact ⟨hnumber, fun w hw => ht.object?_eq (hnumber w hw)⟩

theorem apply_lstat_error {e : Errno} (h : v.stat false p = .error e) :
    (platform.lstat p).apply v = (.error (.system (.lstat p) e), v) := by
  have hrun : (platform.lstat p).apply v = ((v.stat false p).mapError (.system (.lstat p)), v) := rfl
  rw [hrun, h]
  rfl

/-- Where nothing is found, nothing is done. -/
theorem apply_removeRecursive_of_error {e : Errno} (h : v.stat false p = .error e) :
    (removeRecursive platform p).apply v =
      (if e = .noEntry then .ok () else .error (.system (.lstat p) e), v) := by
  rw [removeRecursive, apply_bind_ok (apply_outcome (apply_lstat_error h))]
  by_cases he : e = .noEntry
  · subst he
    rfl
  · have hne : (Failure.system (.lstat p) e).errno? ≠ some .noEntry := by simpa [Failure.errno?] using he
    simp only [hne, he, ne_eq, not_false_eq_true, if_true, if_false]
    rfl

theorem apply_present_of_error {e : Errno} (h : v.stat false p = .error e) :
    (present platform p).apply v = (.ok false, v) :=
  apply_not_succeeds (apply_lstat_error h)

/-- What a removal that succeeds takes away: what the path names, with all that is below it. -/
theorem ends_removeRecursive_found (hs : v.Sound) {object : Object} (hr : v.reach false p = .ok place)
    (ho : v.object? place = some object) :
    (removeRecursive platform p).Ends v
      (fun _ v' => v.Spared (place <+: ·) v' ∧ (present platform p).apply v' = (.ok false, v')) fun _ _ => True := by
  have hl := leads_of_reach hs hr
  have hends : (removeRecursive platform p).Ends v
      (fun _ v' => reading.Removes place (fun _ => False) v v' ∧ Cleared reading p place v v') _ :=
    ends_removeRecursive_of_leads falters_platform hs hl
  refine hends.mono (fun _ v' hend => ?_) fun _ _ _ => trivial
  obtain ⟨hremoves, hcleared⟩ := hend
  have hvacant : v'.Vacant place := hcleared.vacant id hremoves.thinned (.inr hr)
  refine ⟨spared_of_changes hremoves.toChanges hremoves.thinned, ?_⟩
  cases hstat : v'.stat false p with
  | error e => exact apply_present_of_error hstat
  | ok entry =>
    obtain ⟨goal, object', hr', ho', -⟩ := stat_eq_ok.mp hstat
    obtain rfl := hremoves.eq_of_reach hs (hl.mono fun _ => False.elim) hr' (not_vacant_of_object? ho')
    exact absurd hvacant (not_vacant_of_object? ho')

/-- A directory that has been cleared is empty, and nothing that is not below it has changed. -/
theorem ends_clear (hs : v.Sound) :
    (clear platform p).Ends v
      (fun _ v' => ∃ directory, v.reach true p = .ok directory ∧ v'.isDirectory directory ∧
        v'.names directory = [] ∧ v.Spared (fun w => directory <+: w ∧ w ≠ directory) v') fun _ _ => True := by
  refine (ends_requireDirectory falters_platform v p).andThen (fun _ _ _ => trivial) ?_
  rintro - v₁ ⟨hstill, -⟩
  obtain rfl : v₁ = v := hstill.1
  refine (ends_children falters_platform hs).andThen (fun _ _ _ => trivial) ?_
  rintro entries v₂ ⟨hstill', directory, hreach, hdirectory, hall⟩
  obtain rfl : v₂ = v₁ := hstill'.1
  have hleads : v₂.Leads (fun _ => False) true p directory := (leads_of_reach hs hreach).mono fun _ => False.elim
  -- of the names that are done nothing is left; whatever is gone by then stood below the directory
  refine (Ends.forM₂ (fun done v' => reading.Removes [] (fun _ => False) v₂ v' ∧
      reading.Changes (fun w => directory <+: w ∧ w ≠ directory) (fun _ => False) v₂ v' ∧
      ∀ name ∈ done, v'.Vacant (directory ++ [name])) hall ⟨.refl _, .refl _, by simp⟩ ?_).mono
    (fun _ v' hend => ?_) fun _ _ h => h
  · rintro done child name rest v' - hchild ⟨hremoves, hchanges, hdone⟩
    have hout : ¬ directory ++ [name] <+: directory := not_concat_isPrefix directory name
    have hchildLeads : v₂.Leads (fun _ => False) false child.path (directory ++ [name]) := by
      rw [hchild.path]
      exact hleads.join (fun _ hw => hw) id (passable_of_isDirectory hdirectory) hchild.plain fun hf =>
        absurd hf Bool.false_ne_true
    have hpass (hc : child.isDirectory) : v₂.Passable (directory ++ [name]) :=
      passable_of_isDirectory (hchild.isDirectory_iff.mp hc)
    refine ends_withLevels fun levels => (ends_removeEntry_of_leads falters_platform hs hremoves hchildLeads
      hpass).mono (fun _ v'' hend => ?_) fun _ _ _ => trivial
    obtain ⟨hremoves', hgone⟩ := hend
    refine ⟨hremoves.after hremoves', hchanges.trans (hremoves'.toChanges.mono (fun w hw => ?_) fun _ hm => hm), ?_⟩
    · exact ⟨(List.prefix_append _ _).trans hw, fun he => hout (he ▸ hw)⟩
    · rw [List.forall_mem_append, List.forall_mem_singleton]
      exact ⟨fun name hn => hremoves'.thinned.vacant (hdone name hn), hgone⟩
  · obtain ⟨hremoves, hchanges, hgone⟩ := hend
    refine ⟨directory, hreach, hchanges.bounded.isDirectory (fun hw => hw.2 rfl) hdirectory, ?_,
      spared_of_changes hchanges hremoves.thinned⟩
    refine List.eq_nil_iff_forall_not_mem.mpr fun name hname => ?_
    have hstands : ¬ v'.Vacant (directory ++ [name]) := Option.isSome_iff_ne_none.mp (mem_names.mp hname)
    have hbefore : ¬ v₂.Vacant (directory ++ [name]) := fun hv => hstands (hremoves.thinned.vacant hv)
    exact hstands (hgone name (mem_names.mpr (Option.isSome_iff_ne_none.mpr hbefore)))

/-- When `removeRecursive` succeeds, its path names nothing any more, and all that is not at the place of the
path or below is as it was, also what links there lead to and what has the same object. Where nothing was
found nothing is done. When `clear` succeeds, the directory of its path is left and is empty, and all that is
not below it is as it was. -/
theorem removeRecursive_clear (hs : v.Sound) (p : Path) :
    (∀ v', (removeRecursive platform p).apply v = (.ok (), v') →
      (present platform p).apply v' = (.ok false, v') ∧
        ((∃ e, v.stat false p = .error e) ∧ v' = v ∨
          ∃ place, v.reach false p = .ok place ∧ v.Spared (place <+: ·) v')) ∧
    (v.stat false p = .error .noEntry → (removeRecursive platform p).apply v = (.ok (), v)) ∧
    ∀ v', (clear platform p).apply v = (.ok (), v') →
      ∃ directory, v.reach true p = .ok directory ∧ v'.isDirectory directory ∧ v'.names directory = [] ∧
        v.Spared (fun w => directory <+: w ∧ w ≠ directory) v' := by
  refine ⟨fun v' hrun => ?_, fun hstat => ?_, fun v' hrun => ?_⟩
  · cases hstat : v.stat false p with
    | error e =>
      rw [apply_removeRecursive_of_error hstat] at hrun
      obtain rfl : v = v' := congrArg Prod.snd hrun
      exact ⟨apply_present_of_error hstat, .inl ⟨⟨e, rfl⟩, rfl⟩⟩
    | ok entry =>
      obtain ⟨place, object, hr, ho, -⟩ := stat_eq_ok.mp hstat
      have hend := (ends_removeRecursive_found hs hr ho).ok (x := ()) (by rw [hrun])
      rw [hrun] at hend
      exact ⟨hend.2, .inr ⟨place, hr, hend.1⟩⟩
  · rw [apply_removeRecursive_of_error hstat, if_pos rfl]
  · have hend := (ends_clear hs).ok (x := ()) (by rw [hrun])
    rwa [hrun] at hend

/-- A directory with a link to the directory beside it and a link to itself, and a link to it from outside. -/
def entwined : Volume :=
  grown [(placeOf ["d"], .directory), (placeOf ["d", "l"], .symlink "/z".toList),
    (placeOf ["d", "up"], .symlink "/d".toList), (placeOf ["d", "s"], .directory),
    (placeOf ["d", "s", "f"], .file []), (placeOf ["k"], .symlink "/d".toList), (placeOf ["z"], .directory),
    (placeOf ["z", "f"], .file [0x78])]

theorem sound_entwined : entwined.Sound := sound_grown (by decide +kernel)

theorem removeRecursive_clear_entwined :
    entwined.Sound ∧
    (((removeRecursive platform "/d".toList).apply entwined).1 = .ok () ∧
      (present platform "/d".toList).apply ((removeRecursive platform "/d".toList).apply entwined).2 =
        (.ok false, ((removeRecursive platform "/d".toList).apply entwined).2) ∧
      entwined.Spared (placeOf ["d"] <+: ·) ((removeRecursive platform "/d".toList).apply entwined).2) ∧
    (removeRecursive platform "/e".toList).apply entwined = (.ok (), entwined) ∧
    ((clear platform "/k".toList).apply entwined).1 = .ok () ∧
    ((clear platform "/k".toList).apply entwined).2.isDirectory (placeOf ["d"]) ∧
    ((clear platform "/k".toList).apply entwined).2.names (placeOf ["d"]) = [] ∧
    entwined.Spared (fun w => placeOf ["d"] <+: w ∧ w ≠ placeOf ["d"])
      ((clear platform "/k".toList).apply entwined).2 := by
  have hremove : ((removeRecursive platform "/d".toList).apply entwined).1 = .ok () := by decide +kernel
  have hclear : ((clear platform "/k".toList).apply entwined).1 = .ok () := by decide +kernel
  have hreach : entwined.reach false "/d".toList = .ok (placeOf ["d"]) := by decide +kernel
  have hreach' : entwined.reach true "/k".toList = .ok (placeOf ["d"]) := by decide +kernel
  obtain ⟨hgone, hspared⟩ := (removeRecursive_clear sound_entwined "/d".toList).1 _ (apply_eq_ok hremove)
  have hmissing := (removeRecursive_clear sound_entwined "/e".toList).2.1 (by decide +kernel)
  obtain ⟨directory, hd, hcleared⟩ := (removeRecursive_clear sound_entwined "/k".toList).2.2 _ (apply_eq_ok hclear)
  obtain rfl := Except.ok.inj (hreach'.symm.trans hd)
  refine ⟨sound_entwined, ⟨hremove, hgone, ?_⟩, hmissing, hclear, hcleared⟩
  rcases hspared with ⟨⟨e, he⟩, -⟩ | ⟨place, hplace, hspared⟩
  · have hstat : (entwined.stat false "/d".toList).isOk := by decide +kernel
    rw [he] at hstat
    exact absurd hstat Bool.false_ne_true
  · rwa [← Except.ok.inj (hreach.symm.trans hplace)] at hspared

end Directory

end Bytework
