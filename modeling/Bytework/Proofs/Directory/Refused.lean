import Bytework.Proofs.Directory.Custody
import Bytework.Proofs.Directory.Itself
import Bytework.Proofs.Path.Normal

/-!
# Copies into themselves

When copying a directory is refused because the copy would lie in the directory itself.

* `Willing`: a computation that never ends with that refusal; making, reading, and taking away are such ones.
* `willing_copyEntry`: a copy that has begun is not refused any more.
* **`copyRecursive_refused`**: what is refused is told by the names that the two paths come to by their text.
-/

namespace Bytework

open Bytework.Action Volume

variable {σ η α β : Type}

/-- A failure is the refusal to copy a directory into itself. -/
def Failure.Refusal : Failure → Prop
  | .intoItself _ _ => True
  | _ => False

/-- A computation does not fail with a refusal, whatever the state. -/
def Action.Willing (a : Action σ α) : Prop := ∀ s, a.Ends s (fun _ _ => True) fun e _ => ¬ e.Refusal

namespace Action.Willing

variable {a : Action σ α} {f : α → Action σ β}

theorem pure (x : α) : (pure x : Action σ α).Willing := fun _ => trivial

theorem throw {e : Failure} (h : ¬ e.Refusal) : (throw e : Action σ α).Willing := fun _ => h

theorem bind (h : a.Willing) (hf : ∀ x, (f x).Willing) : (a >>= f).Willing :=
  fun s => Ends.bind (h s) fun x s' _ => hf x s'

theorem bind_outcome {f : Except Failure α → Action σ β} (h : a.Willing) (hok : ∀ x, (f (.ok x)).Willing)
    (herror : ∀ e, ¬ e.Refusal → (f (.error e)).Willing) : (a.outcome >>= f).Willing :=
  fun s => Ends.bind_outcome (h s) (fun x s' _ => hok x s') fun e s' he => herror e he s'

theorem outcome (a : Action σ α) : a.outcome.Willing := fun _ => trivial

theorem ignore (a : Action σ α) : a.ignore.Willing := (outcome a).bind fun _ => .pure _

theorem succeeds (h : a.Willing) (test : α → Bool) : (a.succeeds test).Willing :=
  h.bind_outcome (fun _ => .pure _) fun _ _ => .pure _

theorem forM {body : β → Action σ Unit} (h : ∀ x, (body x).Willing) (xs : List β) : (xs.forM body).Willing :=
  fun _ => Ends.forM (fun _ => True) trivial fun x _ s' _ => h x s'

theorem of {f : σ → Action σ α} (h : ∀ s, (f s).Willing) : (Action.of fun s => (f s).apply s).Willing :=
  fun s => Ends.of (f := f) (h s s)

theorem lift (h : a.Willing) : (Walk.lift a : Walking σ η α).Willing :=
  fun sw => (Directory.ends_lift (h sw.1)).mono (fun _ _ _ => trivial) fun _ _ he => he

theorem finish {platform : Platform σ η} {body : Walking σ η α} (h : body.Willing) (walk : Walk η) :
    (Walk.finish platform walk body).Willing := by
  intro s
  have hbody := h (s, walk)
  unfold Ends at hbody ⊢
  have hrun : (Walk.finish platform walk body).apply s = ((body.apply (s, walk)).1,
    ((Walk.closeAll platform (body.apply (s, walk)).2.2.handles).apply (body.apply (s, walk)).2.1).2) := rfl
  rw [hrun]
  split at hbody
  case h_1 he => rw [he]; trivial
  case h_2 he => rw [he]; exact hbody

end Action.Willing

namespace Directory

/-! ## Calls and walks -/

theorem willing_ask (call : Call) (question : Volume → Except Errno α) : (ask call question).Willing := by
  intro v
  have hrun : (ask call question).apply v = ((question v).mapError (.system call), v) := rfl
  rw [Ends, hrun]
  cases question v with
  | ok => trivial
  | error => exact id

theorem willing_perform (call : Call) (change : Volume → Except Errno (α × Volume)) :
    (perform call change).Willing := by
  intro v
  rw [Ends, perform, apply_of]
  cases change v with
  | ok => trivial
  | error => exact id

theorem willing_update (call : Call) (change : Volume → Except Errno Volume) : (update call change).Willing :=
  willing_perform _ _

theorem willing_readNext (stream : Stream) : (readNext stream).Willing := by
  unfold readNext
  split
  · exact .pure _
  · exact (willing_ask _ _).bind fun _ => .pure _

theorem willing_visit (real : Path) : (Walk.visit real : Walking Volume Stream Bool).Willing := by
  intro sw
  by_cases hvisited : real ∈ sw.2.visited
  · simp [Ends, Walk.visit, apply_of, hvisited]
  · simp [Ends, Walk.visit, apply_of, hvisited]

theorem willing_enters (options : WalkOptions) (entry : Entry) :
    (Walk.enters platform options entry : Walking Volume Stream Bool).Willing := by
  by_cases hr : options.recursive
  · by_cases hf : options.followSymlinks
    · rw [Walk.enters_of_follow hr hf]
      refine .bind ?_ fun leads => ?_
      · split
        · exact ((willing_ask _ _).succeeds _).lift
        · exact .pure _
      · split
        · exact .pure _
        · exact (willing_ask _ _).lift.bind willing_visit
    · rw [Walk.enters_of_stay hr hf]
      exact .pure _
  · rw [Walk.enters_of_flat hr]
    exact .pure _

theorem willing_current : (Walk.current : Walking Volume Stream (Walk Stream)).Willing := fun _ => trivial

theorem willing_setHandles (handles : List Stream) :
    (Walk.setHandles handles : Walking Volume Stream Unit).Willing := fun _ => trivial

theorem willing_advance (steps : Nat) : (Walk.advance platform steps).Willing := by
  induction steps with
  | zero => exact .throw id
  | succ steps ih =>
    rw [Walk.advance]
    refine willing_current.bind fun walk => ?_
    split
    case h_1 => exact .pure _
    case h_2 handle outer _ =>
      refine (willing_readNext _).lift.bind fun next? => ?_
      split
      case h_1 => exact (willing_setHandles _).bind fun _ => (Willing.pure ()).lift.bind fun _ => ih
      case h_2 entry handle =>
        refine (willing_setHandles _).bind fun _ => ?_
        split
        · exact ih
        · refine (willing_enters _ _).bind fun enters => ?_
          have hgive : (if walk.options.gives entry then pure (some entry)
              else Walk.advance platform steps : Walking Volume Stream (Option Entry)).Willing := by
            split
            · exact .pure _
            · exact ih
          dsimp only
          cases enters with
          | false => exact hgive
          | true => exact (willing_ask _ _).lift.bind fun _ => (willing_setHandles _).bind fun _ => hgive

theorem willing_nextUnsorted : (Walk.nextUnsorted platform).Willing := by
  rintro ⟨v, walk⟩
  rw [Ends, Walk.nextUnsorted, apply_of]
  exact willing_advance _ (v, walk)

theorem willing_next : (Walk.next platform).Willing := by
  rw [Walk.next]
  refine willing_current.bind fun walk => ?_
  split
  · split
    · exact .pure _
    · exact Willing.bind (fun _ => trivial) fun _ => .pure _
  · refine willing_nextUnsorted.bind_outcome (fun _ => .pure _) fun e he => ?_
    exact (Willing.ignore _).bind fun _ => .throw he

theorem willing_children (p : Path) : (children platform p).Willing := by
  have hdrain (n : Nat) : (Walk.drain (Walk.next platform) n).Willing := by
    induction n with
    | zero => exact .throw id
    | succ n ih =>
      rw [Walk.drain]
      refine willing_next.bind fun next? => ?_
      split
      · exact .pure _
      · exact ih.bind fun _ => .pure _
  have hall : (Walk.all platform (Walk.next platform)).Willing := fun sw => hdrain _ sw
  have hstart : (Walk.start platform {} p).Willing :=
    (willing_ask _ _).bind fun _ => (Willing.pure _).bind fun _ => .pure _
  exact hstart.bind fun walk => hall.finish walk

/-! ## Copying -/

theorem willing_isDirectory (p : Path) : (isDirectory platform p).Willing := (willing_ask _ _).succeeds _

theorem willing_unlinkSymlink (p : Path) : (unlinkSymlink platform p).Willing := by
  refine ((willing_ask _ _).succeeds _).bind fun linked => ?_
  split
  · exact willing_update _ _
  · exact .pure _

theorem willing_makeOne (p : Path) : (makeOne platform p).Willing := by
  refine (willing_update _ _).bind_outcome (fun _ => .pure _) fun e he => ?_
  refine (willing_isDirectory p).bind fun is => ?_
  cases is with
  | false => exact .throw he
  | true => exact .pure _

theorem willing_missing (n : Nat) (p : Path) : (missing platform n p).Willing := by
  induction n generalizing p with
  | zero => exact .pure _
  | succ n ih =>
    rw [missing]
    split
    · exact .pure _
    · refine (willing_ask _ _).bind_outcome (fun entry => ?_) fun e _ => ?_
      · dsimp only
        split
        · exact .pure _
        · exact .throw id
      · dsimp only
        split
        · exact .pure _
        · exact (ih _).bind fun _ => .pure _

theorem willing_create (p : Path) : (create platform p).Willing := by
  rw [create]
  split
  · exact .throw id
  · exact (willing_missing _ p).bind fun ps => .forM willing_makeOne _

theorem willing_removeEntry (levels : Nat) (entry : Entry) : (removeEntry platform levels entry).Willing := by
  induction levels generalizing entry with
  | zero => exact .throw id
  | succ levels ih =>
    rw [removeEntry]
    split
    · exact (willing_children _).bind fun entries => (Willing.forM ih entries).bind fun _ => willing_update _ _
    · exact willing_update _ _

theorem willing_withLevels {body : Nat → Action Volume α} (h : ∀ levels, (body levels).Willing) (p : Path) :
    (withLevels platform p body).Willing :=
  .of fun v => h (Directory.levels platform p v)

theorem willing_removeRecursive (p : Path) : (removeRecursive platform p).Willing := by
  refine (willing_ask _ _).bind_outcome (fun entry => ?_) fun e he => ?_
  · exact willing_withLevels (fun levels => willing_removeEntry levels entry) p
  · dsimp only
    split
    · exact .throw he
    · exact .pure _

/-- A copy that has begun is not refused any more. -/
theorem willing_copyEntry (levels : Nat) (entry : Entry) (target : Path) :
    (copyEntry platform levels entry target).Willing := by
  induction levels generalizing entry target with
  | zero => exact .throw id
  | succ levels ih =>
    rw [copyEntry]
    refine (willing_unlinkSymlink target).bind fun _ => ?_
    split
    · refine (willing_create target).bind fun _ => (willing_children _).bind fun entries => ?_
      exact .forM (fun child => ih child _) entries
    · exact (willing_ask _ _).bind fun _ => (willing_removeRecursive target).bind fun _ => willing_update _ _
    · exact (willing_perform _ _).bind fun _ => .pure _
    · exact .pure _

/-! ## What is refused -/

section Refused

variable {v : Volume} {source target : Path} {entry : Entry}

/-- A copy is refused, and nothing is done. -/
def Refused (v : Volume) (source target : Path) : Prop :=
  (copyRecursive platform source target).apply v = (.error (.intoItself source target), v)

theorem liesWithin_iff (hcwd : v.cwd.isAbsolute) (p top : Path) :
    liesWithin v p top ↔ Path.lexicalFrom v.cwd top <+: Path.lexicalFrom v.cwd p := by
  have hp := Path.isAbsolute_join_of_isAbsolute hcwd p
  have htop := Path.isAbsolute_join_of_isAbsolute hcwd top
  rw [liesWithin, Path.startsWith_normalize_iff hp htop, Path.lexical_join hcwd, Path.lexical_join hcwd]

/-- A directory is refused if the text of the paths places the copy in it, and in no other case. -/
theorem refused_iff (hcwd : v.cwd.isAbsolute) (hstat : v.stat false source = .ok entry) (hd : entry.isDirectory)
    (target : Path) :
    (Refused v source target ↔ Path.lexicalFrom v.cwd source <+: Path.lexicalFrom v.cwd target) ∧
      ∀ e, e.Refusal → ((copyRecursive platform source target).apply v).1 = .error e → Refused v source target := by
  rw [← liesWithin_iff hcwd]
  have hlstat : (platform.lstat source).apply v = (.ok entry, v) := by
    have hrun : (platform.lstat source).apply v = ((v.stat false source).mapError (.system (.lstat source)), v) := rfl
    rw [hrun, hstat]
    rfl
  have hcheck : (isWithin platform target source).apply v = (.ok (liesWithin v target source), v) :=
    apply_isWithin v target source
  have hcopy : (copyRecursive platform source target).apply v =
      if liesWithin v target source then (.error (.intoItself source target), v)
      else (withLevels platform target fun levels => copyEntry platform levels entry target).apply v := by
    rw [copyRecursive, apply_bind_ok hlstat, if_pos hd, apply_bind_ok hcheck]
    cases liesWithin v target source <;> rfl
  have hwilling : (withLevels platform target fun levels => copyEntry platform levels entry target).Willing :=
    willing_withLevels (fun levels => willing_copyEntry levels entry target) target
  unfold Refused
  rw [hcopy]
  by_cases hw : liesWithin v target source
  · simp [hw]
  · rw [if_neg hw]
    have hnone (e : Failure) (he : e.Refusal) :
        ((withLevels platform target fun levels => copyEntry platform levels entry target).apply v).1 ≠ .error e :=
      fun herror => (hwilling v).error herror he
    refine ⟨iff_of_false (fun hrun => ?_) hw, fun e he herror => absurd herror (hnone e he)⟩
    exact hnone (.intoItself source target) trivial (by rw [hrun])

/-- **A directory is not copied to a place in itself.** That is told by the names that the two paths come to from
the working directory, with dots left out and each double dot taking back the name before it: the copy is refused,
before anything is changed, if those of the directory are the first ones of the target, and in no other case. So
each further text of the directory is refused, with names behind it too, and a path whose name only starts with the
name of the directory is not. A normalized path from the root has no dots and is its own normal form. -/
theorem copyRecursive_refused (hcwd : v.cwd.isAbsolute) (hstat : v.stat false source = .ok entry)
    (hd : entry.isDirectory) :
    (∀ target,
      (Refused v source target ↔ Path.lexicalFrom v.cwd source <+: Path.lexicalFrom v.cwd target) ∧
      ∀ e, e.Refusal → ((copyRecursive platform source target).apply v).1 = .error e → Refused v source target) ∧
    (Refused v source source ∧ (¬ source.isAbsolute → Refused v source ("./".toList ++ source)) ∧
      (source.isAbsolute → ∀ x, Path.IsPlain x → Refused v source ('/' :: source ++ "/./".toList ++ x)) ∧
      ∀ parent name, Path.lexicalFrom v.cwd source = parent ++ [name] →
        (∀ x, Path.IsPlain x → Refused v source (source ++ "/../".toList ++ name ++ '/' :: x)) ∧
        ∀ target suffix below, suffix ≠ [] → Path.lexicalFrom v.cwd target = parent ++ (name ++ suffix) :: below →
          ∀ e, e.Refusal → ((copyRecursive platform source target).apply v).1 ≠ .error e) ∧
    ∀ p : Path, p.isAbsolute → p.normalize.isAbsolute ∧ p.normalize.normalize = p.normalize ∧
      .current ∉ p.normalize.components ∧ .parent ∉ p.normalize.components := by
  have hiff := refused_iff hcwd hstat hd
  have hrefused {target : Path} (more : List Name)
      (h : Path.lexicalFrom v.cwd target = Path.lexicalFrom v.cwd source ++ more) : Refused v source target :=
    (hiff target).1.mpr (h ▸ List.prefix_append _ more)
  obtain ⟨place, object, hreach, -, -⟩ := stat_eq_ok.mp hstat
  have hne : source ≠ [] := List.isEmpty_eq_false_iff.mp (isEmpty_of_reach hreach)
  refine ⟨hiff, ⟨hrefused [] (List.append_nil _).symm, fun hrelative => ?_, fun habsolute x hx => ?_,
    fun parent name hnames => ⟨fun x hx => ?_, fun target suffix below hsuffix htarget e he herror => ?_⟩⟩,
    fun p hp => ⟨Path.isAbsolute_normalize hp, Path.normalize_normalize hp, ?_⟩⟩
  · have htext : "./".toList ++ source = ['.'] ++ '/' :: source := rfl
    have hdot : Path.lexicalFrom v.cwd ['.'] = Path.lexical v.cwd := rfl
    refine hrefused [] ?_
    rw [htext, Path.lexicalFrom_append (List.cons_ne_nil _ _), hdot, Path.lexicalFrom, if_neg hrelative,
      List.append_nil]
  · have htext : '/' :: source ++ "/./".toList ++ x = ('/' :: source) ++ '/' :: (['.'] ++ '/' :: x) := by simp
    have hslash : Path.lexicalFrom v.cwd ('/' :: source) = Path.lexicalFrom v.cwd source := by
      rw [Path.lexicalFrom, Path.lexicalFrom, if_pos habsolute]
      exact Path.lexical_slash_cons source
    have hdot : Path.descend (Path.lexicalFrom v.cwd source) ['.'] = Path.lexicalFrom v.cwd source := rfl
    refine hrefused [x] ?_
    rw [htext, Path.lexicalFrom_append (List.cons_ne_nil _ _), hslash, Path.foldl_segment_append (by decide), hdot,
      Path.foldl_segment hx.2.2.2, Path.descend_plain hx]
  · have htext : source ++ "/../".toList ++ name ++ '/' :: x =
        source ++ '/' :: (Path.up ++ '/' :: (name ++ '/' :: x)) := by simp [Path.up]
    have hname := Path.plain_lexicalFrom v.cwd source name (by simp [hnames])
    refine hrefused [x] ?_
    rw [htext, Path.lexicalFrom_append hne, Path.foldl_segment_append (by decide), Path.descend_up,
      Path.foldl_segment_append hname.2.2.2, Path.foldl_segment hx.2.2.2, Path.descend_plain hx,
      Path.descend_plain hname, hnames, List.dropLast_concat]
  · have hprefix := (hiff target).1.mp ((hiff target).2 e he herror)
    rw [hnames, htarget, List.prefix_append_right_inj, List.cons_prefix_cons] at hprefix
    exact hsuffix (by simpa using hprefix.1)
  · rw [Path.components_normalize hp]
    simp

/-- A directory with a name in it and one with a longer name, below the working directory. -/
def sheltered : Volume :=
  { grown [(placeOf ["d"], .directory), (placeOf ["d", "src"], .directory), (placeOf ["d", "srcx"], .directory)] with
    cwd := "/d".toList }

theorem copyRecursive_refused_sheltered :
    (sheltered.cwd.isAbsolute ∧ ∃ entry, sheltered.stat false "src".toList = .ok entry ∧ entry.isDirectory) ∧
    (∀ target ∈ ["src/../src/x", "./src", "//d/src/./x", "src", "../d/./src/x/y/.."],
      Refused sheltered "src".toList target.toList) ∧
    ∀ e, e.Refusal → ((copyRecursive platform "src".toList "srcx".toList).apply sheltered).1 ≠ .error e := by
  have hcwd : sheltered.cwd.isAbsolute := by decide +kernel
  have hentry : ∃ entry, sheltered.stat false "src".toList = .ok entry ∧ entry.isDirectory :=
    ⟨(Object.new .directory 0o755).entry "src".toList, by decide +kernel⟩
  obtain ⟨entry, hstat, hd⟩ := hentry
  obtain ⟨hiff, ⟨-, -, -, hnames⟩, -⟩ := copyRecursive_refused hcwd hstat hd
  refine ⟨⟨hcwd, entry, hstat, hd⟩, fun target htarget => (hiff _).1.mpr ?_, ?_⟩
  · revert target
    decide +kernel
  · exact (hnames (placeOf ["d"]) "src".toList (by decide +kernel)).2 _ ['x'] [] (by simp) (by decide +kernel)

end Refused

end Directory

end Bytework
