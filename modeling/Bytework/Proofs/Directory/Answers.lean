import Bytework.Proofs.Directory.Children
import Bytework.Proofs.Volume.Joined

/-!
# Answers of a volume

What the calls of a volume give where nothing is in the way, and how a walk passes them on.

* `apply_opendir`, `apply_lstat`, `apply_readdir`: calls that succeed.
* `Walk.apply_lift`, `Walk.apply_next`, `Walk.finish_eq`: a call on a walk, a step, and the end of a walk.
* `Walk.advance_left`, `Walk.advance_excluded`, `Walk.advance_beside`, `Walk.advance_below`: what a step does.
* `Walk.Yields`: all that a walk gives; `Yields.drain`: a run that reads it.
-/

namespace Bytework

open Bytework.Action

namespace Volume

variable {v : Volume} {p : Path} {place : Place} {name : Name} {ahead : List Name} {object : Object}

theorem apply_opendir (hr : v.reach true p = .ok place) (hd : v.isDirectory place) :
    (platform.opendir p).apply v = (.ok ⟨p, v.names place⟩, v) := by
  obtain ⟨object, ho, hc⟩ := isDirectory_iff.mp hd
  have hlist : v.list p = .ok (v.names place) := by
    rw [list, find_eq_ok.mpr ⟨hr, ho⟩]
    exact if_pos hc
  have hrun : (platform.opendir p).apply v =
      (((v.list p).map fun names => (⟨p, names⟩ : Stream)).mapError (.system (.opendir p)), v) := rfl
  rw [hrun, hlist]
  rfl

theorem apply_lstat (hr : v.reach false p = .ok place) (ho : v.object? place = some object) :
    (platform.lstat p).apply v = (.ok (object.entry p), v) := by
  have hrun : (platform.lstat p).apply v = ((v.stat false p).mapError (.system (.lstat p)), v) := rfl
  rw [hrun, stat_eq_ok.mpr ⟨place, object, hr, ho, rfl⟩]
  rfl

theorem apply_realpath (hr : v.reach true p = .ok place) (hd : v.isDirectory place) :
    (platform.realpath p).apply v = (.ok place.path, v) := by
  obtain ⟨object, ho, hc⟩ := isDirectory_iff.mp hd
  have hreal : v.realpath p = .ok place.path := by
    rw [realpath, find_eq_ok.mpr ⟨hr, ho⟩]
    simp only [bind, Except.bind, hc, ne_eq, not_true_eq_false, decide_false, Bool.and_false, Bool.false_eq_true,
      if_false]
    rfl
  have hrun : (platform.realpath p).apply v = ((v.realpath p).mapError (.system (.realpath p)), v) := rfl
  rw [hrun, hreal]
  rfl

theorem apply_stat (p : Path) :
    (platform.stat p).apply v = ((v.stat true p).mapError (.system (.stat p)), v) := rfl

theorem apply_readdir (hs : v.Sound) (hr : v.reach true p = .ok place) (hd : v.isDirectory place)
    (ho : v.object? (place ++ [name]) = some object) :
    (platform.readdir ⟨p, name :: ahead⟩).apply v =
      (.ok (some (object.entry (p.join name), ⟨p, ahead⟩)), v) := by
  have hstat : v.stat false (p.join name) = .ok (object.entry (p.join name)) :=
    stat_eq_ok.mpr ⟨_, _, reach_join hs hr hd ho, ho, rfl⟩
  have hask : (ask (.readdir (p.join name)) fun v => v.stat false (p.join name)).apply v =
      (.ok (object.entry (p.join name)), v) := by
    rw [ask, apply_of, hstat]
    rfl
  exact apply_bind_ok hask

end Volume

theorem Action.apply_succeeds {σ α : Type} {a : Action σ α} {s s' : σ} {x : α} {test : α → Bool}
    (h : a.apply s = (.ok x, s')) : (a.succeeds test).apply s = (.ok (test x), s') :=
  apply_bind_ok (apply_outcome h)

theorem Action.apply_not_succeeds {σ α : Type} {a : Action σ α} {s s' : σ} {e : Failure} {test : α → Bool}
    (h : a.apply s = (.error e, s')) : (a.succeeds test).apply s = (.ok false, s') :=
  apply_bind_ok (apply_outcome h)

namespace Walk

variable {σ η α : Type} {a : Action σ α} {s s' : σ} {w : Walk η} {r : Except Failure α}

theorem apply_lift (h : a.apply s = (r, s')) : (lift a).apply (s, w) = (r, (s', w)) := by
  have hrun : (lift a).apply (s, w) = ((a.apply s).1, ((a.apply s).2, w)) := rfl
  rw [hrun, h]

theorem apply_next {platform : Platform σ η} {w' : Walk η} {next? : Option Entry} (hw : w.sorted? = none)
    (h : (nextUnsorted platform).apply (s, w) = (.ok next?, (s', w'))) :
    (next platform).apply (s, w) = (.ok next?, (s', w')) := by
  rw [next]
  refine (apply_bind_ok rfl).trans ?_
  rw [hw]
  exact (apply_bind_ok (apply_outcome h)).trans rfl

/-! ## Steps -/

section Steps

variable {platform : Platform σ η} {handle handle' inner : η} {outer : List η} {entry : Entry} {w' : Walk η}
  {s'' s₃ : σ} {n : Nat}

theorem apply_current (s : σ) (w : Walk η) : (current : Walking σ η (Walk η)).apply (s, w) = (.ok w, (s, w)) := rfl

theorem apply_setHandles (handles : List η) (s : σ) (w : Walk η) :
    (setHandles handles : Walking σ η Unit).apply (s, w) = (.ok (), (s, { w with handles })) := rfl

theorem advance_left (hw : w.handles = handle :: outer) (hread : (platform.readdir handle).apply s = (.ok none, s'))
    (hclose : (platform.closedir handle).apply s' = (.ok (), s'')) :
    (advance platform (n + 1)).apply (s, w) =
      (advance platform n).apply (s'', { w with handles := outer }) := by
  rw [advance, apply_bind_ok (apply_current s w), hw]
  dsimp only
  rw [apply_bind_ok (apply_lift hread)]
  dsimp only
  rw [apply_bind_ok (apply_setHandles outer s' w), apply_bind_ok (apply_lift hclose)]

section Entries

variable (hw : w.handles = handle :: outer)
  (hread : (platform.readdir handle).apply s = (.ok (some (entry, handle')), s'))

include hw hread

theorem advance_readdir : (advance platform (n + 1)).apply (s, w) =
    (if w.options.excludes entry then advance platform n
      else do
        if ← enters platform w.options entry then
          let inner ← lift (platform.opendir entry.path)
          setHandles (inner :: handle' :: outer)
        if w.options.gives entry then return some entry
        else advance platform n : Walking σ η (Option Entry)).apply (s', { w with handles := handle' :: outer }) := by
  rw [advance, apply_bind_ok (apply_current s w), hw]
  dsimp only
  rw [apply_bind_ok (apply_lift hread)]
  dsimp only
  rw [apply_bind_ok (apply_setHandles (handle' :: outer) s' w)]

theorem advance_excluded (hx : w.options.excludes entry) :
    (advance platform (n + 1)).apply (s, w) =
      (advance platform n).apply (s', { w with handles := handle' :: outer }) := by
  rw [advance_readdir hw hread, if_pos hx]

variable (hx : ¬ w.options.excludes entry)

include hx

theorem advance_beside (henters : (enters platform w.options entry).apply (s', { w with handles := handle' :: outer }) =
      (.ok false, (s'', w'))) :
    (advance platform (n + 1)).apply (s, w) =
      if w.options.gives entry then (.ok (some entry), (s'', w')) else (advance platform n).apply (s'', w') := by
  rw [advance_readdir hw hread, if_neg hx, apply_bind_ok henters, if_neg Bool.false_ne_true]
  split <;> rfl

theorem advance_below (henters : (enters platform w.options entry).apply (s', { w with handles := handle' :: outer }) =
      (.ok true, (s'', w'))) (hopen : (platform.opendir entry.path).apply s'' = (.ok inner, s₃)) :
    (advance platform (n + 1)).apply (s, w) =
      if w.options.gives entry then (.ok (some entry), (s₃, { w' with handles := inner :: handle' :: outer }))
      else (advance platform n).apply (s₃, { w' with handles := inner :: handle' :: outer }) := by
  rw [advance_readdir hw hread, if_neg hx, apply_bind_ok henters, if_pos rfl, apply_bind_ok (apply_lift hopen),
    apply_bind_ok (apply_setHandles _ s₃ w')]
  split <;> rfl

end Entries

end Steps

theorem finish_eq {v : Volume} {body : Walking Volume Volume.Stream α} {w w' : Walk Volume.Stream}
    (h : body.apply (v, w) = (r, (v, w'))) : (finish Volume.platform w body).apply v = (r, v) := by
  have hrun : (finish Volume.platform w body).apply v = ((body.apply (v, w)).1,
      ((closeAll Volume.platform (body.apply (v, w)).2.2.handles).apply (body.apply (v, w)).2.1).2) := rfl
  rw [hrun, h]
  have hstill : Volume.reading.Still v ((closeAll Volume.platform w'.handles).apply v).2 :=
    (Directory.ends_closeAll Volume.falters_platform w'.handles v).always
  exact congrArg _ hstill.1

/-! ## All that a source gives -/

/-- What a source gives of a walk, one entry after the other, until the walk is over. -/
inductive Yields (source : Walking σ η (Option Entry)) : σ × Walk η → List Entry → σ × Walk η → Prop
  | ended {sw sw' : σ × Walk η} : source.apply sw = (.ok none, sw') → Yields source sw [] sw'
  | gives {sw sw' sw'' : σ × Walk η} {entry : Entry} {entries : List Entry} :
      source.apply sw = (.ok (some entry), sw') → Yields source sw' entries sw'' →
      Yields source sw (entry :: entries) sw''

theorem Yields.drain {source : Walking σ η (Option Entry)} {sw sw' : σ × Walk η} {entries : List Entry} {n : Nat}
    (h : Yields source sw entries sw') (hn : entries.length < n) :
    (Walk.drain source n).apply sw = (.ok entries, sw') := by
  induction h generalizing n with
  | ended hended =>
    obtain ⟨n, rfl⟩ := Nat.exists_eq_add_of_lt hn
    exact apply_bind_ok hended
  | gives hgives _ ih =>
    cases n with
    | zero => exact absurd hn (Nat.not_lt_zero _)
    | succ n => exact (apply_bind_ok hgives).trans (apply_bind_ok (ih (Nat.lt_of_succ_lt_succ hn)))

theorem Yields.all {platform : Platform σ η} {source : Walking σ η (Option Entry)} {sw' : σ × Walk η}
    {entries : List Entry} (h : Yields source (s, w) entries sw') (hn : entries.length < platform.extent s + 1) :
    (Walk.all platform source).apply (s, w) = (.ok entries, sw') := h.drain hn

theorem yields_sorted (platform : Platform σ η) (s : σ) (w : Walk η) (entries : List Entry) :
    Yields (next platform) (s, { w with sorted? := some entries }) entries (s, { w with sorted? := some [] }) := by
  induction entries with
  | nil => exact .ended rfl
  | cons entry entries ih => exact .gives rfl ih

end Walk

end Bytework
