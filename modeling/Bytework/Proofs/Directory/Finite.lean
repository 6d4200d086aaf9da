import Bytework.Proofs.Directory.Answers
import Bytework.Proofs.Directory.Frames
import Bytework.Proofs.Volume.Connected

/-!
# Work that ends

On a volume, what looks at entries, makes directories or takes away ends before its levels are used up,
wherever its paths lead.

* `Finishes`: a computation that does not run out of levels or steps.
* `apply_children`: a directory is read to its end; `finishes_children`: whatever a path names.
* **`finishes_removeRecursive`**, **`ends_prune_finite`**: taking away, with all that is below.
-/

namespace Bytework.Directory

open Bytework.Action Volume

variable {α β : Type} {v v' start : Volume} {p q source : Path} {place : Place} {name : Name} {ahead : List Name}
  {entry : Entry} {n levels : Nat} {shut : Place → Prop}

/-- From a volume, a computation ends before its levels and steps are used up. -/
def Finishes (a : Action Volume α) (v : Volume) : Prop := a.Ends v (fun _ _ => True) fun e _ => e ≠ .endless

namespace Finishes

variable {a : Action Volume α} {f : α → Action Volume β} {good : α → Volume → Prop}
  {bad : Failure → Volume → Prop}

theorem ends (h : Finishes a v) (h' : a.Ends v good bad) : a.Ends v good fun e _ => e ≠ .endless :=
  (h'.and h).mono (fun _ _ hend => hend.1) fun _ _ hend => hend.2

theorem of_ends (h : a.Ends v good fun e _ => e ≠ .endless) : Finishes a v :=
  h.mono (fun _ _ _ => trivial) fun _ _ hend => hend

theorem bind (h : Finishes a v) (hf : ∀ x v', Finishes (f x) v') : Finishes (a >>= f) v :=
  Ends.bind h fun x v' _ => hf x v'

theorem bind_outcome {f : Except Failure α → Action Volume β} (h : Finishes a v)
    (hok : ∀ x v', Finishes (f (.ok x)) v') (herror : ∀ e v', e ≠ .endless → Finishes (f (.error e)) v') :
    Finishes (a.outcome >>= f) v :=
  Ends.bind_outcome h (fun x v' _ => hok x v') herror

theorem forM {body : β → Action Volume Unit} {xs : List β} (h : ∀ x ∈ xs, ∀ v', Finishes (body x) v') :
    Finishes (xs.forM body) v :=
  Ends.forM (fun _ => True) trivial fun x hx v' _ => h x hx v'

end Finishes

theorem finishes_pure (x : α) (v : Volume) : Finishes (pure x) v := Ends.pure trivial

theorem finishes_succeeds {a : Action Volume α} {test : α → Bool} (h : Finishes a v) :
    Finishes (a.succeeds test) v :=
  h.bind_outcome (fun _ _ => finishes_pure _ _) fun _ _ _ => finishes_pure _ _

/-! ## Calls -/

theorem finishes_ask (call : Call) (question : Volume → Except Errno α) (v : Volume) :
    Finishes (ask call question) v := by
  have hrun : (ask call question).apply v = ((question v).mapError (.system call), v) := rfl
  rw [Finishes, Ends, hrun]
  cases question v with
  | ok => trivial
  | error => exact Failure.noConfusion

theorem finishes_perform (call : Call) (change : Volume → Except Errno (α × Volume)) (v : Volume) :
    Finishes (perform call change) v := by
  rw [Finishes, Ends, perform, apply_of]
  cases change v with
  | ok => trivial
  | error => exact Failure.noConfusion

theorem finishes_update (call : Call) (change : Volume → Except Errno Volume) (v : Volume) :
    Finishes (update call change) v :=
  finishes_perform _ _ v

theorem finishes_requireDirectory (p : Path) (v : Volume) : Finishes (requireDirectory platform p) v := by
  refine (finishes_ask _ _ v).bind fun entry v' => ?_
  split
  · exact Ends.throw Failure.noConfusion
  · exact finishes_pure _ _

theorem finishes_unlinkSymlink (p : Path) (v : Volume) : Finishes (unlinkSymlink platform p) v := by
  refine (finishes_succeeds (finishes_ask _ _ v)).bind fun linked v' => ?_
  split
  · exact finishes_update _ _ _
  · exact finishes_pure _ _

theorem finishes_makeOne (p : Path) (v : Volume) : Finishes (makeOne platform p) v := by
  refine (finishes_update _ _ v).bind_outcome (fun _ _ => finishes_pure _ _) fun e v' he => ?_
  refine (finishes_succeeds (finishes_ask _ _ v')).bind fun is v'' => ?_
  split
  · exact Ends.throw he
  · exact finishes_pure _ _

theorem finishes_missing (n : Nat) (p : Path) (v : Volume) : Finishes (missing platform n p) v := by
  induction n generalizing p v with
  | zero => exact finishes_pure _ _
  | succ n ih =>
    rw [missing]
    split
    · exact finishes_pure _ _
    · refine (finishes_ask _ _ v).bind_outcome (fun entry v' => ?_) fun e v' _ => ?_
      · dsimp only
        split
        · exact finishes_pure _ _
        · exact Ends.throw Failure.noConfusion
      · dsimp only
        split
        · exact finishes_pure _ _
        · exact (ih _ v').bind fun _ _ => finishes_pure _ _

theorem finishes_create (p : Path) (v : Volume) : Finishes (create platform p) v := by
  rw [create]
  split
  · exact Ends.throw Failure.noConfusion
  · exact (finishes_missing _ p v).bind fun ps v' => Finishes.forM fun p' _ => finishes_makeOne p'

/-! ## Reading a directory -/

theorem apply_next_of_advance {w w' : Walk Stream} {next? : Option Entry} (hw : w.sorted? = none)
    (h : ∀ steps, (Walk.advance platform (steps + 2)).apply (v, w) = (.ok next?, (v, w'))) :
    (Walk.next platform).apply (v, w) = (.ok next?, (v, w')) := by
  have hsteps : Walk.steps platform v = 2 * platform.extent v + 2 := rfl
  refine Walk.apply_next hw ?_
  rw [Walk.nextUnsorted, apply_of]
  dsimp only
  rw [hsteps, h]

theorem apply_next_single (hs : v.Sound) (hr : v.reach true p = .ok place) (hd : v.isDirectory place)
    {object : Object} (ho : v.object? (place ++ [name]) = some object) :
    (Walk.next platform).apply (v, single ⟨p, name :: ahead⟩) =
      (.ok (some (object.entry (p.join name))), (v, single ⟨p, ahead⟩)) := by
  refine apply_next_of_advance rfl fun steps => ?_
  have hread : (platform.readdir ⟨p, name :: ahead⟩).apply v =
      (.ok (some (object.entry (p.join name), ⟨p, ahead⟩)), v) := apply_readdir hs hr hd ho
  exact Walk.advance_beside (w := single _) rfl hread Bool.false_ne_true rfl

theorem apply_next_nil (p : Path) (v : Volume) :
    (Walk.next platform).apply (v, single ⟨p, []⟩) = (.ok none, (v, ⟨{}, [], [], none⟩)) := by
  refine apply_next_of_advance rfl fun steps => ?_
  have hend : (platform.readdir ⟨p, []⟩).apply v = (.ok none, v) := rfl
  exact Walk.advance_left (w := single _) rfl hend rfl

/-- All names in a directory are read one after the other. -/
theorem yields_single (hs : v.Sound) (hr : v.reach true p = .ok place) (hd : v.isDirectory place)
    (hahead : ∀ name ∈ ahead, ¬ v.Vacant (place ++ [name])) :
    ∃ entries w, entries.length = ahead.length ∧
      Walk.Yields (Walk.next platform) (v, single ⟨p, ahead⟩) entries (v, w) := by
  induction ahead with
  | nil => exact ⟨[], _, rfl, .ended (apply_next_nil p v)⟩
  | cons name ahead ih =>
    obtain ⟨hname, hrest⟩ := List.forall_mem_cons.mp hahead
    obtain ⟨object, ho⟩ := hs.isSome_object? (Option.isSome_iff_ne_none.mpr hname)
    obtain ⟨entries, w, hlength, hyields⟩ := ih hrest
    exact ⟨_ :: entries, w, congrArg (· + 1) hlength, .gives (apply_next_single hs hr hd ho) hyields⟩

/-- A directory can be read to its end. -/
theorem apply_children (hs : v.Sound) (hr : v.reach true p = .ok place) (hd : v.isDirectory place) :
    ∃ entries, (children platform p).apply v = (.ok entries, v) := by
  obtain ⟨entries, w, hlength, hyields⟩ := yields_single hs hr hd
    fun name hname => Option.isSome_iff_ne_none.mp (mem_names.mp hname)
  have hroom : entries.length < platform.extent v + 1 := by
    rw [hlength]
    exact Nat.lt_succ_of_lt (Nat.lt_succ_of_le (length_names_le hs place))
  have hstart : (Walk.start platform {} p).apply v = (.ok (single ⟨p, v.names place⟩), v) :=
    (apply_bind_ok (apply_opendir hr hd)).trans rfl
  exact ⟨entries, (apply_bind_ok hstart).trans (Walk.finish_eq (hyields.all hroom))⟩

theorem finishes_children (hs : v.Sound) (p : Path) : Finishes (children platform p) v := by
  rcases hrun : (platform.opendir p).apply v with ⟨r, v'⟩
  have hopen := falters_platform.opendir v p
  have hfin : Finishes (platform.opendir p) v := finishes_ask _ _ v
  rw [Ends, hrun] at hopen
  rw [Finishes, Ends, hrun] at hfin
  cases r with
  | ok handle =>
    obtain ⟨place, hr, hd, -⟩ := list_eq_ok hopen.2.2
    obtain ⟨entries, hchildren⟩ := apply_children hs hr hd
    rw [Finishes, Ends, hchildren]
    trivial
  | error e =>
    have hstart : (Walk.start platform {} p).apply v = (.error e, v') := apply_bind_error hrun
    have hchildren : (children platform p).apply v = (.error e, v') := apply_bind_error hstart
    rw [Finishes, Ends, hchildren]
    exact hfin

/-! ## Taking away -/

/-- Nothing stands deeper in a volume. -/
def Depth (v : Volume) (n : Nat) : Prop := ∀ w, ¬ v.Vacant w → w.length ≤ n

theorem depth_size (v : Volume) : Depth v v.entries.size := fun _ => length_le_size

theorem Depth.of_thinned (h : Depth v n) (ht : Thinned v v') : Depth v' n :=
  fun w hw => h w fun hv => hw (ht.vacant hv)

theorem IsChild.length_le {directory : Place} (h : IsChild v p directory entry name) (hdepth : Depth v n) :
    directory.length + 1 ≤ n := by
  obtain ⟨object, ho, -⟩ := h.object
  have hlength := hdepth _ (not_vacant_of_object? ho)
  rwa [List.length_append, List.length_singleton] at hlength

theorem size_add_length_lt_levels (p : Path) (v : Volume) :
    v.entries.size + p.length < Directory.levels platform p v := by
  show _ < (v.entries.size + 1 + 1) * (v.entries.size + 1 + p.length + 1)
  refine Nat.lt_of_lt_of_le ?_ (Nat.le_mul_of_pos_left _ (Nat.succ_pos _))
  omega

theorem ends_withLevels_of {body : Nat → Action Volume α} {good : α → Volume → Prop}
    {bad : Failure → Volume → Prop} (h : (body (Directory.levels platform p v)).Ends v good bad) :
    (withLevels platform p body).Ends v good bad :=
  Ends.of (f := fun v => body (Directory.levels platform p v)) h

/-- An entry is taken away within as many levels as there are below it. -/
theorem finishes_removeEntry (hs : start.Sound) (hr : reading.Removes [] (fun _ => False) start v)
    (hl : start.Leads (fun _ => False) false entry.path place) (hd : entry.isDirectory → start.Passable place)
    (hdepth : Depth v n) (hpos : 0 < levels) (hlevels : n < place.length + levels) :
    Finishes (removeEntry platform levels entry) v := by
  induction levels generalizing v place entry with
  | zero => exact absurd hpos (Nat.lt_irrefl _)
  | succ levels ih =>
    rw [removeEntry]
    split
    case isFalse => exact finishes_update _ _ _
    case isTrue hdir =>
      have hpass := hd hdir
      have hfollow : start.Leads (fun _ => False) true entry.path place :=
        hl.followed fun _ hlink => hlink.not_passable hpass
      have hsv := hr.bounded.sound hs
      refine Ends.bind ((finishes_children hsv entry.path).ends (ends_children falters_platform hsv)) ?_
      rintro entries v₁ ⟨hstill, directory, hreach, hdirectory, hall⟩
      obtain rfl : v₁ = v := hstill.1
      have hstands := not_vacant_of_isDirectory hdirectory
      obtain rfl := hr.eq_of_reach hs hfollow hreach hstands
      refine Ends.bind (Ends.forM₂ (fun _ v' => reading.Removes directory (fun _ => False) v₁ v') hall
        (.refl v₁) ?_) fun _ v' _ => finishes_update _ _ v'
      rintro done child name rest v' - hchild hremoves
      have hchildLeads : start.Leads (fun _ => False) false child.path (directory ++ [name]) := by
        rw [hchild.path]
        exact hfollow.join (fun _ hw => hw) id hpass hchild.plain fun hf => absurd hf Bool.false_ne_true
      have hchildPass (hc : child.isDirectory) : start.Passable (directory ++ [name]) :=
        passable_of_isDirectory (hr.thinned.isDirectory (hchild.isDirectory_iff.mp hc))
      have hlength := hchild.length_le hdepth
      have hr' := hr.after hremoves
      have hfinishes : Finishes (removeEntry platform levels child) v' := by
        refine ih hr' hchildLeads hchildPass (hdepth.of_thinned hremoves.thinned) (by omega) ?_
        rw [List.length_append, List.length_singleton]
        omega
      have hends : (removeEntry platform levels child).Ends v' _ _ :=
        ends_removeEntry_of_leads falters_platform hs hr' hchildLeads hchildPass
      exact (hfinishes.ends hends).mono
        (fun _ v'' hend => hremoves.trans (hend.1.mono (List.prefix_append _ _) fun _ hm => hm)) fun _ _ hend => hend

theorem finishes_removeRecursive (hs : v.Sound) (hl : v.Leads shut false p place) :
    Finishes (removeRecursive platform p) v := by
  have hlstat : Finishes (platform.lstat p) v := finishes_ask _ _ v
  refine Ends.bind_outcome (hlstat.ends (ends_lstat falters_platform hs hl)) ?_ fun e v' he => ?_
  · rintro entry v₁ ⟨hstill, rfl, object, ho, ht⟩
    obtain rfl : v₁ = v := hstill.1
    have hd : entry.isDirectory → v₁.Passable place := by
      intro hdir object' ho'
      obtain rfl := Option.some.inj (ho.symm.trans ho')
      exact (isDirectory_of_type ht).mp hdir
    have hlevels := size_add_length_lt_levels entry.path v₁
    exact ends_withLevels_of (finishes_removeEntry hs (.refl v₁) (hl.mono fun _ => False.elim) hd
      (depth_size v₁) (by omega) (by omega))
  · dsimp only
    split
    · exact Ends.throw he
    · exact finishes_pure _ _

/-- Pruning only takes away, and ends within as many levels as there are in the second directory. -/
theorem ends_prune_finite (hs : start.Sound) (hr : reading.Removes [] (fun _ => False) start v)
    (hl : start.Leads (fun _ => False) true q place) (hdepth : Depth v n) (hpos : 0 < levels)
    (hlevels : n < place.length + levels) :
    (prune platform levels source q).Ends v (fun _ v' => reading.Removes [] (fun _ => False) v v')
      fun e _ => e ≠ .endless := by
  induction levels generalizing v q place source with
  | zero => exact absurd hpos (Nat.lt_irrefl _)
  | succ levels ih =>
    rw [prune]
    have hsv := hr.bounded.sound hs
    refine Ends.bind ((finishes_children hsv source).ends (ends_children falters_platform hsv)) ?_
    rintro _ v₁ ⟨hstill₁, -⟩
    obtain rfl : v₁ = v := hstill₁.1
    refine Ends.bind ((finishes_children hsv q).ends (ends_children falters_platform hsv)) ?_
    rintro extras v₂ ⟨hstill₂, directory, hreach, hdirectory, hall⟩
    obtain rfl : v₂ = v₁ := hstill₂.1
    have hstands := not_vacant_of_isDirectory hdirectory
    obtain rfl := hr.eq_of_reach hs hl hreach hstands
    have hpass : start.Passable directory := passable_of_isDirectory (hr.thinned.isDirectory hdirectory)
    refine Ends.forM₂ (fun _ v' => reading.Removes [] (fun _ => False) v₂ v') hall (.refl v₂) ?_
    rintro done extra name rest v' - hextra hremoves
    have hr' := hr.trans hremoves
    have hextraPass (hd : extra.isDirectory) : start.Passable (directory ++ [name]) :=
      passable_of_isDirectory (hr.thinned.isDirectory (hextra.isDirectory_iff.mp hd))
    have hextraLeads : start.Leads (fun _ => False) false extra.path (directory ++ [name]) := by
      rw [hextra.path]
      exact hl.join (fun _ hw => hw) id hpass hextra.plain fun hf => absurd hf Bool.false_ne_true
    have hlength := hextra.length_le hdepth
    rw [hextra.fileName?]
    dsimp only
    split
    · have hlevels' := size_add_length_lt_levels q v'
      have hfinishes : Finishes (removeEntry platform (Directory.levels platform q v') extra) v' :=
        finishes_removeEntry hs hr' hextraLeads hextraPass (depth_size v') (by omega) (by omega)
      refine ends_withLevels_of ((hfinishes.ends (ends_removeEntry_of_leads falters_platform hs hr'
        hextraLeads hextraPass)).mono (fun _ _ hend => hremoves.after hend.1) ?_)
      exact fun _ _ hend => hend
    · split
      case isTrue hd =>
        have hfollow : start.Leads (fun _ => False) true extra.path (directory ++ [name]) :=
          hextraLeads.followed fun _ hlink => hlink.not_passable (hextraPass hd)
        refine (ih hr' hfollow (hdepth.of_thinned hremoves.thinned) (by omega) ?_).mono
          (fun _ _ => hremoves.trans) fun _ _ hend => hend
        rw [List.length_append, List.length_singleton]
        omega
      case isFalse => exact Ends.pure hremoves

end Bytework.Directory
