import Bytework.Proofs.Directory.Answers
import Bytework.Proofs.Volume.Preorder
import Mathlib.Algebra.Ring.Nat

/-!
# Levels of a walk

What is left of a walk that enters directories and follows no links.

* `Volume.entriesBelow`: the entries below a directory, in order, as a walk with some options gives them.
* `Level`: a directory on the way down and what is still to be read in it; `Level.Open`: what holds of it.
* `Level.left`: the entries that are left; `Level.load`: how much work is left.
* `left_excluded`, `left_entered`: what is left when an entry has been read.
-/

namespace Bytework

namespace Volume

variable {v : Volume} {p : Path} {start : Place}

/-! ## Entries by their places -/

/-- The entry at a place below a directory, under a path of the directory. -/
def below (v : Volume) (p : Path) (start w : Place) : Option Entry :=
  (v.object? (start ++ w)).map (·.entry (w.foldl Path.join p))

/-- Whether a walk does not leave out an entry below its start. -/
def keeps (v : Volume) (options : WalkOptions) (p : Path) (start w : Place) : Bool :=
  (v.below p start w).any (!options.excludes ·)

/-- The entries below a directory in order, without those that are left out with all below them. -/
def entriesBelow (v : Volume) (options : WalkOptions) (p : Path) (start : Place) : List Entry :=
  (v.descendants start (v.keeps options p start)).filterMap (v.below p start)

/-- The number of bytes of a file; what is no file has none. -/
def bytes (v : Volume) (w : Place) : Nat := (v.object? w).elim 0 (·.content.data.length)

theorem isSome_below (hs : v.Sound) {w : Place} (hw : ¬ v.Vacant (start ++ w)) : (v.below p start w).isSome := by
  obtain ⟨object, ho⟩ := hs.isSome_object? (Option.isSome_iff_ne_none.mpr hw)
  rw [below, ho]
  rfl

theorem elim_below (w : Place) : (v.below p start w).elim 0 Directory.fileSize = v.bytes (start ++ w) := by
  rw [below, bytes]
  cases v.object? (start ++ w) with
  | none => rfl
  | some object =>
    rw [Option.map_some, Option.elim_some, Option.elim_some, Directory.fileSize]
    obtain ⟨content, attributes⟩ := object
    cases content <;> rfl

/-- Each place that is kept gives one entry. -/
theorem map_below (hs : v.Sound) (hd : v.isDirectory start) (keep : Place → Bool) :
    (v.descendants start keep).map (v.below p start) =
      ((v.descendants start keep).filterMap (v.below p start)).map some := by
  have hsome : ∀ w ∈ v.descendants start keep, (v.below p start w).isSome :=
    fun w hw => isSome_below hs ((mem_descendants hs hd).mp hw).2.1
  generalize v.descendants start keep = places at hsome
  induction places with
  | nil => rfl
  | cons w places ih =>
    obtain ⟨hw, hplaces⟩ := List.forall_mem_cons.mp hsome
    obtain ⟨entry, he⟩ := Option.isSome_iff_exists.mp hw
    rw [List.map_cons, List.filterMap_cons, he, ih hplaces]
    rfl

theorem descendants_deep (hs : v.Sound) (hd : v.isDirectory start) :
    v.descendants start (v.keeps .deep p start) = v.descendants start fun _ => true := by
  refine preorder_congr (fun w hw => ?_) fun _ _ => rfl
  obtain ⟨entry, he⟩ := Option.isSome_iff_exists.mp (isSome_below hs (p := p) ((mem_descendants hs hd).mp hw).2.1)
  rw [keeps, he]
  rfl

end Volume

/-! ## What is left of a walk -/

/-- A directory on the way down, by the names that lead to it, and what is still to be read in it. -/
structure Level where
  place : Place
  forest : Forest

namespace Level

variable {v : Volume} {options : WalkOptions} {p : Path} {start place : Place} {l : Level} {levels : List Level}

/-- The directory, open at what is still to be read. -/
def stream (p : Path) (l : Level) : Volume.Stream := ⟨l.place.foldl Path.join p, l.forest.names⟩

/-- What holds of a directory on the way down from a start. -/
structure Open (v : Volume) (p : Path) (start : Place) (l : Level) : Prop where
  reach : v.reach true (l.place.foldl Path.join p) = .ok (start ++ l.place)
  directory : v.isDirectory (start ++ l.place)
  lies : v.Lies (start ++ l.place) l.forest

/-- The places that are left, the innermost directory first. -/
def places (v : Volume) (options : WalkOptions) (p : Path) (start : Place) (levels : List Level) : List Place :=
  levels.flatMap fun l => l.forest.preorder (v.keeps options p start) l.place

/-- The entries that are left to be given. -/
def left (v : Volume) (options : WalkOptions) (p : Path) (start : Place) (levels : List Level) : List Entry :=
  ((places v options p start levels).filterMap (v.below p start)).filter options.gives

/-- How many steps are left at most: every entry is read, and every directory is left. -/
def load (levels : List Level) : Nat := (levels.map fun l => 2 * l.forest.size + 1).sum

/-- A walk with the given directories open. -/
def walk (options : WalkOptions) (p : Path) (levels : List Level) : Walk Volume.Stream :=
  ⟨options, levels.map (stream p), [], none⟩

variable {name : Name} {number : Nat} {inner rest : Forest} {object : Object} {outer : List Level}

theorem stream_concat (place : Place) (name : Name) (inner : Forest) :
    stream p ⟨place ++ [name], inner⟩ = ⟨(place.foldl Path.join p).join name, inner.names⟩ := by
  rw [stream, List.foldl_concat]

theorem Open.tail (h : Open v p start ⟨place, .entry name number inner rest⟩) : Open v p start ⟨place, rest⟩ :=
  ⟨h.reach, h.directory, h.lies.tail⟩

theorem Open.object? (h : Open v p start ⟨place, .entry name number inner rest⟩) (hs : v.Sound) :
    ∃ object, v.object? (start ++ (place ++ [name])) = some object := by
  rw [← List.append_assoc]
  exact hs.isSome_object? (Option.isSome_iff_ne_none.mpr h.lies.not_vacant)

theorem below_eq (ho : v.object? (start ++ (place ++ [name])) = some object) :
    v.below p start (place ++ [name]) = some (object.entry ((place.foldl Path.join p).join name)) := by
  rw [Volume.below, ho, List.foldl_concat, Option.map_some]

/-- A directory that is met can be entered. -/
theorem Open.enter (h : Open v p start ⟨place, .entry name number inner rest⟩) (hs : v.Sound)
    (ho : v.object? (start ++ (place ++ [name])) = some object) (hc : object.content = .directory) :
    Open v p start ⟨place ++ [name], inner⟩ := by
  rw [← List.append_assoc] at ho
  refine ⟨?_, ?_, ?_⟩
  · rw [List.foldl_concat, ← List.append_assoc]
    exact Volume.reach_join_unlinked hs h.reach h.directory ho fun target ht => by simp [ht] at hc
  · rw [← List.append_assoc]
    exact Volume.isDirectory_iff.mpr ⟨object, ho, hc⟩
  · rw [← List.append_assoc]
    exact h.lies.below hs

/-- Nothing is below what is no directory. -/
theorem Open.inner_eq (h : Open v p start ⟨place, .entry name number inner rest⟩) (hs : v.Sound)
    (ho : v.object? (start ++ (place ++ [name])) = some object) (hc : object.content ≠ .directory) :
    inner = .empty := by
  cases inner with
  | empty => rfl
  | entry next _ _ _ =>
    have hstands := h.lies.mem_names.mp (List.mem_cons_self (a := next))
    have hd := hs.enclosed (Option.isSome_iff_ne_none.mpr hstands)
    obtain ⟨object', ho', hc'⟩ := Volume.isDirectory_iff.mp hd
    rw [List.append_assoc, ho, Option.some.injEq] at ho'
    exact absurd (ho' ▸ hc') hc

theorem left_empty (place : Place) (outer : List Level) :
    left v options p start (⟨place, .empty⟩ :: outer) = left v options p start outer := rfl

theorem left_excluded (ho : v.object? (start ++ (place ++ [name])) = some object)
    (hx : options.excludes (object.entry ((place.foldl Path.join p).join name))) :
    left v options p start (⟨place, .entry name number inner rest⟩ :: outer) =
      left v options p start (⟨place, rest⟩ :: outer) := by
  have hkeep : v.keeps options p start (place ++ [name]) = false := by
    rw [Volume.keeps, below_eq ho, Option.any_some, hx, Bool.not_true]
  simp [left, places, Forest.preorder, hkeep]

/-- What is left when an entry is met: the entry, what is below it, and the rest. -/
theorem left_met (ho : v.object? (start ++ (place ++ [name])) = some object)
    (hx : ¬ options.excludes (object.entry ((place.foldl Path.join p).join name))) :
    left v options p start (⟨place, .entry name number inner rest⟩ :: outer) =
      (if options.gives (object.entry ((place.foldl Path.join p).join name)) then
        [object.entry ((place.foldl Path.join p).join name)] else []) ++
        left v options p start (⟨place ++ [name], inner⟩ :: ⟨place, rest⟩ :: outer) := by
  have hkeep : v.keeps options p start (place ++ [name]) = true := by
    rw [Volume.keeps, below_eq ho, Option.any_some]
    simpa using hx
  simp only [left, places, List.flatMap_cons, Forest.preorder, hkeep, if_true, List.cons_append,
    List.filterMap_cons, below_eq ho, List.filter_cons, List.append_assoc]
  split <;> rfl

theorem load_cons (l : Level) (levels : List Level) :
    load (l :: levels) = 2 * l.forest.size + 1 + load levels := by
  rw [load, List.map_cons, List.sum_cons, load]

/-- The directories on the way down when an entry has been read: one more, if it is a directory. -/
def entered (object : Object) (place : Place) (name : Name) (inner rest : Forest)
    (outer : List Level) : List Level :=
  if object.content = .directory then ⟨place ++ [name], inner⟩ :: ⟨place, rest⟩ :: outer
  else ⟨place, rest⟩ :: outer

section Entered

variable (hs : v.Sound) (hl : Open v p start ⟨place, .entry name number inner rest⟩)
  (ho : v.object? (start ++ (place ++ [name])) = some object)

include hs hl ho

theorem open_entered (houter : ∀ l ∈ outer, l.Open v p start) :
    ∀ l ∈ entered object place name inner rest outer, l.Open v p start := by
  have hrest := List.forall_mem_cons.mpr ⟨hl.tail, houter⟩
  unfold entered
  split
  case isTrue hc => exact List.forall_mem_cons.mpr ⟨hl.enter hs ho hc, hrest⟩
  case isFalse => exact hrest

/-- What is left when an entry has been read that is not left out. -/
theorem left_entered (outer : List Level)
    (hx : ¬ options.excludes (object.entry ((place.foldl Path.join p).join name))) :
    left v options p start (⟨place, .entry name number inner rest⟩ :: outer) =
      (if options.gives (object.entry ((place.foldl Path.join p).join name)) then
        [object.entry ((place.foldl Path.join p).join name)] else []) ++
        left v options p start (entered object place name inner rest outer) := by
  rw [left_met ho hx, entered]
  by_cases hc : object.content = .directory
  · rw [if_pos hc]
  · rw [if_neg hc, hl.inner_eq hs ho hc, left_empty]

end Entered

theorem load_entered (object : Object) (place : Place) (name : Name) (number : Nat) (inner rest : Forest)
    (outer : List Level) : load (entered object place name inner rest outer) <
      load (⟨place, .entry name number inner rest⟩ :: outer) := by
  unfold entered
  split <;> simp only [load_cons, Forest.size] <;> omega

end Level

end Bytework
