import Bytework.Directory.Faults
import Bytework.Directory.OnVolume
import Bytework.Proofs.Directory.Recorded
import Bytework.Proofs.Volume.Grown

/-!
# Open directories

What becomes of the directories that a walk opens, and of a walk that has failed.

* `Use`: what can be done with a walk, in every order.
* `Walk.Over`: what a failure leaves of a walk, which gives nothing more.
* **`inOrder_within`**: every directory that was opened is given back once and not read after that.
-/

namespace Bytework

open Bytework.Action

variable {σ η α : Type}

/-! ## Every use of a walk -/

/-- What can be done with a walk, in every order and for as long as one likes; what comes next may
depend on what was answered so far. The state may be changed from outside meanwhile. -/
inductive Use (σ α : Type)
  /-- The walk is dropped. -/
  | drop (result : α)
  /-- The walk is closed, which ends it. -/
  | close (after : Except Failure Unit → α)
  /-- The next entry is asked for. -/
  | ask (after : Except Failure (Option Entry) → Use σ α)
  | meanwhile (change : σ → σ) (after : Use σ α)

namespace Use

/-- A use as a computation on a walk. -/
def run (platform : Platform σ η) : Use σ α → Walking σ η α
  | drop result => pure result
  | close after => do return after (← (Walk.close platform).outcome)
  | ask after => do (after (← (Walk.next platform).outcome)).run platform
  | meanwhile change after => do
    Action.of fun (s, walk) => (.ok (), (change s, walk))
    after.run platform

/-- The same use beside a log. -/
def recorded : Use σ α → Use (σ × List Deed) α
  | drop result => .drop result
  | close after => .close after
  | ask after => .ask fun answer => (after answer).recorded
  | meanwhile change after => .meanwhile (fun (s, log) => (change s, log)) after.recorded

theorem alike_run (platform : Platform σ η) (use : Use σ α) {sw : σ × Walk η}
    {tw : (σ × List Deed) × Walk (Nat × η)} (hw : Walk.Tied Recorded sw tw) :
    (use.run platform).Alike sw (use.recorded.run platform.recorded) tw
      (fun x y sw tw => x = y ∧ Walk.Tied Recorded sw tw) (Walk.Tied Recorded) := by
  have h := custody_recorded platform
  induction use generalizing sw tw with
  | drop result => exact Alike.pure ⟨rfl, hw⟩
  | close after =>
    refine Alike.bind (h.alike_close hw).outcome ?_
    rintro r _ sw' tw' ⟨rfl, hw'⟩
    exact Alike.pure ⟨rfl, hw'⟩
  | ask after ih =>
    refine Alike.bind (h.alike_next hw).outcome ?_
    rintro answer _ sw' tw' ⟨rfl, hw'⟩
    exact ih answer hw'
  | meanwhile change after ih =>
    refine Alike.step rfl rfl (ih ?_)
    obtain ⟨hs, hheld⟩ := hw.handles
    exact ⟨hw.options, hw.visited, hw.sorted, congrArg change hs, hheld⟩

end Use

/-! ## After a failure -/

namespace Walk

variable {platform : Platform σ η} {ahead : Option (List Entry)}

/-- What a walk that was sorted has still to give. -/
def Ahead (ahead : Option (List Entry)) (sw : σ × Walk η) : Prop := sw.2.sorted? = ahead

theorem keeps_lift (a : Action σ α) : (lift a : Walking σ η α).Keeps (Ahead ahead) := by
  rintro ⟨s, walk⟩ hs
  have hrun : (lift a).apply (s, walk) = ((a.apply s).1, ((a.apply s).2, walk)) := rfl
  rw [Ends, hrun]
  cases (a.apply s).1 <;> exact hs

theorem keeps_setHandles (handles : List η) : (setHandles handles : Walking σ η Unit).Keeps (Ahead ahead) :=
  fun _ hs => hs

theorem keeps_visit (real : Path) : (visit real : Walking σ η Bool).Keeps (Ahead ahead) := by
  rintro ⟨s, walk⟩ hs
  by_cases hin : walk.visited.contains real
  · have hrun : (visit real : Walking σ η Bool).apply (s, walk) = (.ok false, (s, walk)) := if_pos hin
    rw [Ends, hrun]
    exact hs
  · have hrun : (visit real : Walking σ η Bool).apply (s, walk) =
        (.ok true, (s, { walk with visited := real :: walk.visited })) := if_neg hin
    rw [Ends, hrun]
    exact hs

theorem keeps_enters (options : WalkOptions) (entry : Entry) :
    (enters platform options entry).Keeps (Ahead ahead) := by
  by_cases hr : options.recursive
  case neg =>
    rw [enters_of_flat hr]
    exact .pure false
  by_cases hf : options.followSymlinks
  case neg =>
    rw [enters_of_stay hr hf]
    exact .pure _
  rw [enters_of_follow hr hf]
  refine Keeps.bind ?_ fun leads => ?_
  · split
    · exact keeps_lift _
    · exact .pure _
  · split
    · exact .pure false
    · exact (keeps_lift _).bind keeps_visit

theorem keeps_advance (steps : Nat) : (advance platform steps).Keeps (Ahead ahead) := by
  induction steps with
  | zero => exact .throw _
  | succ steps ih =>
    rw [advance]
    refine Keeps.bind (fun _ hs => hs) fun walk => ?_
    cases walk.handles with
    | nil => exact .pure none
    | cons handle outer =>
      have hgive : ∀ entry, (if walk.options.gives entry then pure (some entry) else
          advance platform steps : Walking σ η (Option Entry)).Keeps (Ahead ahead) := by
        intro entry
        split
        · exact .pure _
        · exact ih
      refine (keeps_lift _).bind fun next? => ?_
      cases next? with
      | none => exact (keeps_setHandles outer).bind fun _ => (keeps_lift _).bind fun _ => ih
      | some next =>
        refine (keeps_setHandles _).bind fun _ => ?_
        dsimp only
        split
        · exact ih
        refine (keeps_enters _ _).bind fun inner => ?_
        cases inner with
        | false => exact hgive next.1
        | true => exact (keeps_lift _).bind fun _ => (keeps_setHandles _).bind fun _ => hgive next.1

/-- Nothing is open, and nothing was read ahead. -/
structure Over (walk : Walk η) : Prop where
  handles : walk.handles = []
  sorted : walk.sorted? = none

theorem ends_close_over {s : σ} {walk : Walk η} (h : walk.sorted? = none) :
    (close platform).Ends (s, walk) (fun _ sw => sw.2.Over) fun _ sw => sw.2.Over := by
  have hrun : (close platform).apply (s, walk) = (((closeAll platform walk.handles).apply s).1,
      (((closeAll platform walk.handles).apply s).2, { walk with handles := [] })) := rfl
  rw [Ends, hrun]
  cases ((closeAll platform walk.handles).apply s).1 <;> exact ⟨rfl, h⟩

theorem ends_next_over (platform : Platform σ η) (sw : σ × Walk η) :
    (next platform).Ends sw (fun _ _ => True) fun _ sw' => sw'.2.Over := by
  obtain ⟨s, walk⟩ := sw
  have hcurrent : (current : Walking σ η (Walk η)).Ends (s, walk) (fun w sw => walk = w ∧ sw = (s, walk))
      fun _ sw => sw.2.Over := ⟨rfl, rfl⟩
  refine hcurrent.bind ?_
  rintro _ _ ⟨rfl, rfl⟩
  match hahead : walk.sorted? with
  | some [] => trivial
  | some (_ :: _) => trivial
  | none =>
    have hadvance : (nextUnsorted platform).Ends (s, walk) (fun _ => Ahead none) fun _ => Ahead none :=
      Ends.of (keeps_advance (steps platform s) (s, walk) hahead)
    refine hadvance.bind_outcome (fun _ _ _ => trivial) fun e sw hsw => ?_
    have hclose : (close platform).ignore.Ends sw (fun _ sw => sw.2.Over) fun _ sw => sw.2.Over :=
      (ends_close_over hsw).bind_outcome (fun _ _ h => Ends.pure h) fun _ _ h => Ends.pure h
    exact hclose.bind fun _ _ h => Ends.throw h

theorem Over.next {walk : Walk η} (h : walk.Over) (s : σ) :
    (next platform).apply (s, walk) = (.ok none, (s, walk)) := by
  obtain ⟨options, _, visited, _⟩ := walk
  obtain ⟨rfl, rfl⟩ := h
  rfl

end Walk

/-! ## Walks from their start to their end -/

variable {platform : Platform σ η}

/-- A start that strands fails, and the directory that was opened is not given back. -/
theorem within_of_stranded {options : WalkOptions} {p : Path} {s : σ} (hs : Walk.Stranded platform options p s)
    (body : Walking σ η α) (body' : Walking (σ × List Deed) (Nat × η) α) :
    ∃ e s', (Walk.within platform options p body).apply s = (.error e, s') ∧
      (Walk.within platform.recorded options p body').apply (s, []) = (.error e, (s', [.opened 0 p])) := by
  obtain ⟨hf, handle, s₁, e, s₂, hopen, hfail⟩ := hs
  refine ⟨e, s₂, apply_bind_error ?_, apply_bind_error ?_⟩
  · rw [Walk.start, apply_bind_ok hopen, if_pos hf, map_eq_pure_bind]
    exact apply_bind_error (apply_bind_error hfail)
  · rw [Walk.start, apply_bind_ok (apply_opendir_ok hopen), if_pos hf, map_eq_pure_bind]
    exact apply_bind_error (apply_bind_error (apply_noting hfail))

/-- On every platform, with every choice of options and in every use of the walk: unless the first
directory's real path is not found out, each directory that was opened is given back exactly once and not
read after that; in the exceptional case the first one, and nothing else, is left open. After a failure a
walk gives nothing for ever. -/
theorem inOrder_within (platform : Platform σ η) (options : WalkOptions) (p : Path) (use : Use σ α) (s : σ) :
    let plain := (Walk.within platform options p (use.run platform)).apply s
    let recorded := (Walk.within platform.recorded options p (use.recorded.run platform.recorded)).apply (s, [])
    (recorded.1 = plain.1 ∧ recorded.2.1 = plain.2) ∧
      (¬ Walk.Stranded platform options p s → InOrder recorded.2.2) ∧
      (Walk.Stranded platform options p s → recorded.2.2 = [.opened 0 p]) ∧
      ∀ sw e s₁ walk₁, (Walk.next platform).apply sw = (.error e, (s₁, walk₁)) →
        ∀ s₂, (Walk.next platform).apply (s₂, walk₁) = (.ok none, (s₂, walk₁)) := by
  have hover : ∀ sw e s₁ walk₁, (Walk.next platform).apply sw = (.error e, (s₁, walk₁)) →
      ∀ s₂, (Walk.next platform).apply (s₂, walk₁) = (.ok none, (s₂, walk₁)) := by
    intro sw e s₁ walk₁ hnext
    have hend := Walk.ends_next_over platform sw
    rw [Ends, hnext] at hend
    exact hend.next
  by_cases hs : Walk.Stranded platform options p s
  · obtain ⟨e, s', hplain, hrecorded⟩ := within_of_stranded hs (use.run platform)
      (use.recorded.run platform.recorded)
    rw [hplain, hrecorded]
    exact ⟨⟨rfl, rfl⟩, fun h => absurd hs h, fun _ => rfl, hover⟩
  · obtain ⟨x, _, s', t', hplain, hrecorded, rfl, hend⟩ | ⟨e, s', t', hplain, hrecorded, hend⟩ :=
      ((custody_recorded platform).alike_within (t := (s, [])) options p hs ⟨rfl, rfl, Tidy.nil⟩
        fun _ _ => use.alike_run platform).cases
    all_goals
      obtain ⟨rfl, -, htidy⟩ := hend
      rw [hplain, hrecorded]
      exact ⟨⟨rfl, rfl⟩, fun _ => htidy.inOrder, fun h => absurd h hs, hover⟩

namespace Volume

/-- A directory with a file in it. -/
def nested : List (Place × Content) := [(placeOf ["d"], .directory), (placeOf ["d", "f"], .file [0x78])]

/-- All calls of a name fail. -/
def broken (call : String) : Fault := ⟨call, none, .errno .inputOutput, 0, none⟩

/-- All below a directory, links followed. -/
def deepFollowing : WalkOptions := { recursive := true, followSymlinks := true }

theorem run_eq {r : Except Failure α × σ} {x : Except Failure α} (h : r.1 = x) : r = (x, r.2) := by rw [← h]

theorem stranded_nested :
    Walk.Stranded Volume.platform.withFaults deepFollowing "/d".toList (grown nested, [broken "realpath"]) :=
  ⟨rfl, ("/d".toList, ⟨"/d".toList, ["f".toList]⟩), _, .system (.realpath "/d".toList) .inputOutput, _,
    run_eq (by decide +kernel), run_eq (by decide +kernel)⟩

/-- The use of a walk from which two entries are asked for. -/
def askTwice : Use σ Unit := .ask fun _ => .ask fun _ => .drop ()

/-- A walk that is at the beginning of a directory. -/
def opened : Walk (Path × Stream) :=
  ⟨deepFollowing, [("/d".toList, ⟨"/d".toList, ["f".toList]⟩)], ["/d".toList], none⟩

/-- An entry that cannot be read ends a walk, and what was opened is given back. -/
theorem inOrder_nested :
    let log (plan : List Fault) := ((Walk.within Volume.platform.withFaults.recorded deepFollowing "/d".toList
      (askTwice.recorded.run Volume.platform.withFaults.recorded)).apply ((grown nested, plan), [])).2.2
    (¬ Walk.Stranded Volume.platform.withFaults deepFollowing "/d".toList (grown nested, [broken "readdir"]) ∧
      InOrder (log [broken "readdir"]) ∧
      log [broken "readdir"] = [.opened 0 "/d".toList, .read 0, .closed 0]) ∧
    (Walk.Stranded Volume.platform.withFaults deepFollowing "/d".toList (grown nested, [broken "realpath"]) ∧
      log [broken "realpath"] = [.opened 0 "/d".toList]) ∧
    let r := (Walk.next Volume.platform.withFaults).apply ((grown nested, [broken "readdir"]), opened)
    r.1 = .error (.system (.readdir "/d/f".toList) .inputOutput) ∧
      ∀ s₂, (Walk.next Volume.platform.withFaults).apply (s₂, r.2.2) = (.ok none, (s₂, r.2.2)) := by
  have hall := inOrder_within Volume.platform.withFaults deepFollowing "/d".toList askTwice
  have hnot : ¬ Walk.Stranded Volume.platform.withFaults deepFollowing "/d".toList
      (grown nested, [broken "readdir"]) := by
    rintro ⟨-, handle, s₁, e, s₂, hopen, hreal⟩
    have hs : s₁ = ((Volume.platform.withFaults.opendir "/d".toList).apply (grown nested, [broken "readdir"])).2 := by
      rw [hopen]
    have hok : ((Volume.platform.withFaults.realpath "/d".toList).apply s₁).1 = .ok "/d".toList := by
      rw [hs]
      decide +kernel
    rw [hreal] at hok
    cases hok
  have hlog : InOrder _ := (hall (grown nested, [broken "readdir"])).2.1 hnot
  have hfail : ((Walk.next Volume.platform.withFaults).apply ((grown nested, [broken "readdir"]), opened)).1 =
      .error (.system (.readdir "/d/f".toList) .inputOutput) := by decide +kernel
  refine ⟨⟨hnot, hlog, by decide +kernel⟩, ⟨stranded_nested, ?_⟩, hfail, ?_⟩
  · exact (hall (grown nested, [broken "realpath"])).2.2.1 stranded_nested
  · exact (hall (grown nested, [])).2.2.2 _ _ _ _ (run_eq hfail)

/-- A directory that was opened for a walk is not given back if its real path is not found out. -/
theorem unsettled_nested :
    let recorded := (Walk.within Volume.platform.withFaults.recorded deepFollowing "/d".toList
      ((Use.drop ()).recorded.run Volume.platform.withFaults.recorded)).apply ((grown nested, [broken "realpath"]), [])
    0 < Deed.count recorded.2.2 ∧ ¬ Deed.Settled recorded.2.2 0 := by
  obtain ⟨e, s', -, hrecorded⟩ := within_of_stranded stranded_nested
    ((Use.drop ()).run Volume.platform.withFaults) ((Use.drop ()).recorded.run Volume.platform.withFaults.recorded)
  rw [hrecorded]
  refine ⟨Nat.zero_lt_one, ?_⟩
  rintro ⟨p, n, habout⟩
  exact absurd (congrArg List.length habout) (by simp [Deed.about, Deed.id])

end Volume

end Bytework
