import Bytework.Proofs.Volume.Reach

/-!
# Trees in order

The places below a directory, each one before what is below it and all of that before what comes next to
it.

* `Forest.preorder`: the places that a test keeps, with all that is below a place that it does not keep
  left out.
* `Lies`: entries side by side that are those of a directory, or the last ones of them.
* **`mem_descendants`**, **`nodup_descendants`**: every entry below a directory stands once among them.
-/

namespace Bytework

/-- The places of entries side by side and of all below them, under a place, if a test keeps them. -/
def Forest.preorder (keep : Place → Bool) : Place → Forest → List Place
  | _, .empty => []
  | above, .entry name _ inner rest =>
    (if keep (above ++ [name]) then (above ++ [name]) :: preorder keep (above ++ [name]) inner else []) ++
      preorder keep above rest

theorem Forest.length_preorder_le (keep : Place → Bool) (above : Place) (forest : Forest) :
    (forest.preorder keep above).length ≤ forest.size := by
  induction forest generalizing above with
  | empty => exact Nat.le_refl _
  | entry name number inner rest ihi ihr =>
    have hi := ihi (above ++ [name])
    have hr := ihr above
    rw [preorder, size, List.length_append]
    split
    · rw [List.length_cons]
      omega
    · rw [List.length_nil]
      omega

theorem Forest.size_lt_of_find? {name : Name} {forest : Forest} {branch : Branch}
    (h : forest.find? name = some branch) : branch.inner.size < forest.size := by
  induction forest with
  | empty => exact absurd h (by simp [find?])
  | entry other number inner rest _ ih =>
    rw [find?] at h
    rw [size]
    split at h
    · obtain rfl := Option.some.inj h
      show inner.size < 1 + inner.size + rest.size
      omega
    · have hrest := ih h
      omega

theorem Branch.length_add_size_le_of_at? {branch inner : Branch} {place : Place} (h : branch.at? place = some inner) :
    place.length + inner.inner.size ≤ branch.inner.size := by
  induction place generalizing branch with
  | nil =>
    obtain rfl := Option.some.inj h
    rw [List.length_nil, Nat.zero_add]
  | cons name place ih =>
    rw [at?] at h
    split at h
    case h_1 => exact absurd h (by simp)
    case h_2 next hfind =>
      have hinner := ih h
      have hnext := Forest.size_lt_of_find? hfind
      rw [List.length_cons]
      omega

theorem Branch.size_le_of_at? {branch inner : Branch} {place : Place} (h : branch.at? place = some inner) :
    inner.inner.size ≤ branch.inner.size :=
  Nat.le_trans (Nat.le_add_left _ _) (Branch.length_add_size_le_of_at? h)

namespace Volume

variable {v : Volume} {start place above w : Place} {name : Name} {number : Nat} {forest inner rest : Forest}
  {keep : Place → Bool}

theorem length_le_size (h : ¬ v.Vacant w) : w.length ≤ v.entries.size := by
  obtain ⟨number, hn⟩ := Option.ne_none_iff_exists'.mp h
  obtain ⟨branch, hb, -⟩ := Option.map_eq_some_iff.mp hn
  have hle : w.length + branch.inner.size ≤ v.entries.size := Branch.length_add_size_le_of_at? hb
  omega

/-- Entries side by side stand in a directory, each name once. -/
structure Lies (v : Volume) (place : Place) (forest : Forest) : Prop where
  nodup : forest.names.Nodup
  found : ∀ {name branch}, forest.find? name = some branch → v.branch? (place ++ [name]) = some branch

theorem Sound.lies (hs : v.Sound) {branch : Branch} (hb : v.branch? place = some branch) :
    v.Lies place branch.inner := by
  refine ⟨?_, fun hfind => branch?_concat hb hfind⟩
  have hnodup := hs.distinct place
  rwa [names, hb] at hnodup

namespace Lies

theorem branch? (h : v.Lies place (.entry name number inner rest)) :
    v.branch? (place ++ [name]) = some ⟨number, inner⟩ := h.found (by rw [Forest.find?, if_pos rfl])

theorem tail (h : v.Lies place (.entry name number inner rest)) : v.Lies place rest := by
  obtain ⟨hnew, hnodup⟩ := List.nodup_cons.mp h.nodup
  refine ⟨hnodup, fun {other branch} hfind => h.found ?_⟩
  have hmem : other ∈ rest.names := Forest.mem_names.mpr (by rw [hfind]; rfl)
  rw [Forest.find?, if_neg fun he => hnew (by rwa [he]), hfind]

theorem not_vacant (h : v.Lies place (.entry name number inner rest)) : ¬ v.Vacant (place ++ [name]) := by
  rw [Vacant, number?, h.branch?]
  exact Option.some_ne_none _

theorem below (h : v.Lies place (.entry name number inner rest)) (hs : v.Sound) :
    v.Lies (place ++ [name]) inner := hs.lies h.branch?

theorem mem_names (h : v.Lies place (.entry name number inner rest)) {other : Name} :
    other ∈ inner.names ↔ ¬ v.Vacant (place ++ [name] ++ [other]) := by
  have hnames : v.names (place ++ [name]) = inner.names := by rw [names, h.branch?, Option.elim_some]
  rw [← hnames, Volume.mem_names, Vacant, Option.isSome_iff_ne_none]

end Lies

theorem Vacant.append (h : v.Vacant place) (below : Place) : v.Vacant (place ++ below) :=
  number?_append_eq_none below h

/-! ## What is in order -/

/-- Among the places in order are those that stand under the names, if they and all above them are kept. -/
theorem mem_preorder (hs : v.Sound) (h : v.Lies (start ++ above) forest) :
    w ∈ forest.preorder keep above ↔ ∃ name below, name ∈ forest.names ∧ w = above ++ name :: below ∧
      ¬ v.Vacant (start ++ w) ∧ ∀ u, u ≠ [] → u <+: name :: below → keep (above ++ u) := by
  induction forest generalizing above with
  | empty => simp [Forest.preorder, Forest.names]
  | entry name number inner rest ihi ihr =>
    have hfirst : w ∈ (if keep (above ++ [name]) then
        (above ++ [name]) :: inner.preorder keep (above ++ [name]) else []) ↔
        ∃ below, w = above ++ name :: below ∧ ¬ v.Vacant (start ++ w) ∧
          ∀ u, u ≠ [] → u <+: name :: below → keep (above ++ u) := by
      split
      case isFalse hkeep =>
        simp only [List.not_mem_nil, false_iff]
        rintro ⟨below, -, -, hall⟩
        exact hkeep (hall [name] (by simp) (by simp))
      case isTrue hkeep =>
        have hinner := h.below hs
        rw [List.append_assoc] at hinner
        rw [List.mem_cons, ihi hinner]
        constructor
        · rintro (rfl | ⟨next, below, -, rfl, hstands, hall⟩)
          · refine ⟨[], rfl, by simpa using h.not_vacant, fun u hu hpre => ?_⟩
            obtain rfl | ⟨u', rfl, hpre'⟩ := List.prefix_cons_iff.mp hpre
            · exact absurd rfl hu
            · rwa [List.prefix_nil.mp hpre']
          · refine ⟨next :: below, by simp, hstands, fun u hu hpre => ?_⟩
            obtain rfl | ⟨u', rfl, hpre'⟩ := List.prefix_cons_iff.mp hpre
            · exact absurd rfl hu
            · by_cases hu' : u' = []
              · rwa [hu']
              · simpa using hall u' hu' hpre'
        · rintro ⟨below, rfl, hstands, hall⟩
          rcases below with _ | ⟨next, below⟩
          · exact .inl rfl
          · refine .inr ⟨next, below, h.mem_names.mpr fun hv => hstands ?_, by simp, hstands, fun u hu hpre => ?_⟩
            · have happend := hv.append below
              simpa using happend
            · simpa using hall (name :: u) (by simp) (List.cons_prefix_cons.mpr ⟨rfl, hpre⟩)
    rw [Forest.preorder, List.mem_append, hfirst, ihr h.tail]
    constructor
    · rintro (⟨below, hw⟩ | ⟨other, below, hmem, hw⟩)
      · exact ⟨name, below, List.mem_cons_self, hw⟩
      · exact ⟨other, below, List.mem_cons_of_mem _ hmem, hw⟩
    · rintro ⟨other, below, hmem, hw⟩
      rcases List.mem_cons.mp hmem with rfl | hmem
      · exact .inl ⟨below, hw⟩
      · exact .inr ⟨other, below, hmem, hw⟩

/-- No place comes twice. -/
theorem nodup_preorder (hs : v.Sound) (h : v.Lies (start ++ above) forest) :
    (forest.preorder keep above).Nodup := by
  induction forest generalizing above with
  | empty => exact List.nodup_nil
  | entry name number inner rest ihi ihr =>
    have hinner := h.below hs
    rw [List.append_assoc] at hinner
    have hfirst : (if keep (above ++ [name]) then
        (above ++ [name]) :: inner.preorder keep (above ++ [name]) else []).Nodup := by
      split
      · refine List.nodup_cons.mpr ⟨fun hmem => ?_, ihi hinner⟩
        obtain ⟨next, below, -, hw, -⟩ := (mem_preorder hs hinner).mp hmem
        exact absurd (congrArg List.length hw) (by simp)
      · exact List.nodup_nil
    refine List.nodup_append.mpr ⟨hfirst, ihr h.tail, ?_⟩
    -- what is below one name is not below another one
    rintro w hw _ hw' rfl
    obtain ⟨other, below', hmem, hw', -⟩ := (mem_preorder hs h.tail).mp hw'
    have hname : ∃ below, w = above ++ name :: below := by
      split at hw
      · rcases List.mem_cons.mp hw with rfl | hw
        · exact ⟨[], rfl⟩
        · obtain ⟨next, below, -, rfl, -⟩ := (mem_preorder hs hinner).mp hw
          exact ⟨next :: below, by simp⟩
      · exact absurd hw List.not_mem_nil
    obtain ⟨below, rfl⟩ := hname
    obtain ⟨rfl, -⟩ := List.cons.inj (List.append_cancel_left hw')
    exact (List.nodup_cons.mp h.nodup).1 hmem

/-- The places below a directory that are kept, by the names from the directory down. -/
def descendants (v : Volume) (start : Place) (keep : Place → Bool) : List Place :=
  (v.branch start).inner.preorder keep []

/-- Every entry below a directory is among its descendants, if it and all above it are kept. -/
theorem mem_descendants (hs : v.Sound) (hd : v.isDirectory start) :
    w ∈ v.descendants start keep ↔ w ≠ [] ∧ ¬ v.Vacant (start ++ w) ∧ ∀ u, u ≠ [] → u <+: w → keep u := by
  have hb := branch?_eq_branch (isSome_number?_of_isDirectory hd)
  have hl : v.Lies (start ++ []) (v.branch start).inner := by simpa using hs.lies hb
  rw [descendants, mem_preorder hs hl]
  constructor
  · rintro ⟨name, below, -, rfl, hstands, hall⟩
    exact ⟨by simp, hstands, hall⟩
  · rintro ⟨hne, hstands, hall⟩
    obtain ⟨name, below, rfl⟩ := List.exists_cons_of_ne_nil hne
    refine ⟨name, below, ?_, rfl, hstands, hall⟩
    have hnames : v.names start = (v.branch start).inner.names := by rw [names, hb, Option.elim_some]
    rw [← hnames, mem_names, Option.isSome_iff_ne_none]
    intro hv
    have happend := Vacant.append hv below
    exact hstands (by simpa using happend)

theorem nodup_descendants (hs : v.Sound) (hd : v.isDirectory start) : (v.descendants start keep).Nodup := by
  have hb := branch?_eq_branch (isSome_number?_of_isDirectory hd)
  have hl : v.Lies (start ++ []) (v.branch start).inner := by simpa using hs.lies hb
  exact nodup_preorder hs hl

theorem preorder_congr {keep' : Place → Bool} (h : ∀ w ∈ forest.preorder keep above, keep' w = keep w)
    (hk : ∀ w, keep' w → keep w) : forest.preorder keep' above = forest.preorder keep above := by
  induction forest generalizing above with
  | empty => rfl
  | entry name number inner rest ihi ihr =>
    rw [Forest.preorder] at h
    have hrest : rest.preorder keep' above = rest.preorder keep above :=
      ihr fun w hw => h w (List.mem_append_right _ hw)
    rw [Forest.preorder, Forest.preorder, hrest]
    by_cases hkeep : keep (above ++ [name])
    · rw [if_pos hkeep] at h ⊢
      have hsame : keep' (above ++ [name]) = keep (above ++ [name]) := h _ (by simp)
      rw [if_pos (hsame.trans hkeep), ihi fun w hw => h w (by simp [hw])]
    · rw [if_neg hkeep, if_neg fun hkeep' => hkeep (hk _ hkeep')]

end Volume

end Bytework
