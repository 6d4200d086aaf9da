import Bytework.Proofs.Volume.Joined
import Bytework.Proofs.Volume.Preorder
import Mathlib.Data.List.Nodup
import Mathlib.Data.List.Perm.Subperm

/-!
# What is connected

The directories that are reached from a directory over its entries and over links among them.

* `Connected`: directories that are reached; `childPlaces`: what is in a directory.
* `Met`: an entry of a directory, under a path of the directory; `spot`: where it stands.
* `path_injective`: a place has a path of its own.
* `length_directories_le`, `length_children_le`, `length_names_le`: how many there can be.
-/

namespace Bytework.Volume

variable {v : Volume} {start place d d' w : Place} {name : Name} {p : Path} {entry : Entry} {object : Object}

/-- A directory is reached from another one over the names in directories, links followed. -/
inductive Connected (v : Volume) (start : Place) : Place → Prop
  | start : Connected v start start
  | through {d w : Place} {name : Name} : Connected v start d → name ∈ v.names d →
      Way v v.Vacant true d [name] w → v.isDirectory w → Connected v start w

/-- The places of the entries of a directory, in order. -/
def childPlaces (v : Volume) (d : Place) : List Place := (v.names d).map (d ++ [·])

/-- Where an entry stands by its path; a link at the end is not followed. -/
def spot (v : Volume) (entry : Entry) : Place := (v.reach false entry.path).toOption.getD []

/-- An entry of a directory, under a path of the directory. -/
structure Met (v : Volume) (entry : Entry) (p : Path) (d : Place) (name : Name) : Prop where
  reach : v.reach true p = .ok d
  directory : v.isDirectory d
  entry : ∃ object, v.object? (d ++ [name]) = some object ∧ entry = object.entry (p.join name)

theorem Met.path (h : v.Met entry p d name) : entry.path = p.join name := by
  obtain ⟨object, -, he⟩ := h.entry
  rw [he, Object.entry]

theorem Met.mem (h : v.Met entry p d name) : name ∈ v.names d := by
  obtain ⟨object, ho, -⟩ := h.entry
  exact mem_names.mpr (Option.isSome_iff_ne_none.mpr (not_vacant_of_object? ho))

theorem Met.reach_entry (h : v.Met entry p d name) (hs : v.Sound) :
    v.reach false entry.path = .ok (d ++ [name]) := by
  obtain ⟨object, ho, -⟩ := h.entry
  rw [h.path]
  exact reach_join hs h.reach h.directory ho

theorem Met.spot (h : v.Met entry p d name) (hs : v.Sound) : v.spot entry = d ++ [name] := by
  rw [Volume.spot, h.reach_entry hs]
  rfl

theorem Met.way (h : v.Met entry p d name) (hs : v.Sound) (hw : v.reach true entry.path = .ok w) :
    Way v v.Vacant true d [name] w := by
  obtain ⟨left, hleft⟩ := reach_concat hs h.reach h.directory (hs.plain (mem_names.mp h.mem))
  rw [h.path, hleft] at hw
  exact way_of_travel hs h.directory hw

theorem Met.leads (h : v.Met entry p d name) (hs : v.Sound) (hway : Way v v.Vacant true d [name] w) :
    v.Leads v.Vacant true entry.path w := by
  have hn := hs.plain (mem_names.mp h.mem)
  have hd := leads_of_reach hs h.reach
  rw [Leads, h.path, route_join hn, follows_true, Bool.true_or]
  exact Way.append hd (fun _ hw => hw) (not_vacant_of_isDirectory h.directory)
    (passable_of_isDirectory h.directory) (List.cons_ne_nil _ _) hway

/-! ## Paths of places -/

theorem plain_of_not_vacant (hs : v.Sound) (h : ¬ v.Vacant w) : ∀ name ∈ w, Path.IsPlain name := by
  intro name hname
  obtain ⟨above, below, rfl⟩ := List.append_of_mem hname
  have hprefix : above ++ [name] <+: above ++ name :: below := ⟨below, by simp⟩
  exact hs.plain (isSome_number?_of_isPrefix hprefix (Option.isSome_iff_ne_none.mpr h))

theorem names_path (h : ∀ name ∈ w, Path.IsPlain name) : (Place.path w).names = w := by
  rw [Place.path, Path.names_ofSegments fun name hn => (h name hn).2.2.2]
  refine List.filter_eq_self.mpr fun name hn => ?_
  rw [(h name hn).isIdle, Bool.not_false]

theorem path_injective (hs : v.Sound) (hd : ¬ v.Vacant d) (hd' : ¬ v.Vacant d') (h : d.path = d'.path) :
    d = d' := by
  rw [← names_path (plain_of_not_vacant hs hd), h, names_path (plain_of_not_vacant hs hd')]

/-! ## How many there are -/

theorem length_le_of_nodup (hs : v.Sound) {places : List Place} (hn : places.Nodup)
    (h : ∀ w ∈ places, w ≠ [] ∧ ¬ v.Vacant w) : places.length ≤ v.entries.size := by
  have hsub : places ⊆ v.descendants [] fun _ => true := by
    intro w hw
    obtain ⟨hne, hstands⟩ := h w hw
    exact (mem_descendants hs hs.root).mpr ⟨hne, hstands, fun _ _ _ => rfl⟩
  have hlength := (List.Nodup.subperm hn hsub).length_le
  exact Nat.le_trans hlength (Forest.length_preorder_le _ _ _)

theorem length_directories_le (hs : v.Sound) {places : List Place} (hn : places.Nodup)
    (h : ∀ d ∈ places, v.isDirectory d) : places.length ≤ v.entries.size + 1 := by
  have herase := length_le_of_nodup hs (hn.erase []) fun w hw => by
    have hmem := hn.mem_erase_iff.mp hw
    exact ⟨hmem.1, not_vacant_of_isDirectory (h w hmem.2)⟩
  have hle := List.le_length_erase (a := ([] : Place)) (l := places)
  omega

theorem mem_childPlaces : w ∈ v.childPlaces d ↔ ∃ name ∈ v.names d, w = d ++ [name] := by
  simp [childPlaces, eq_comm]

theorem nodup_children (hs : v.Sound) {places : List Place} (hn : places.Nodup) :
    (places.flatMap v.childPlaces).Nodup := by
  refine List.nodup_flatMap.mpr ⟨fun d _ => ?_, hn.imp fun {d d'} hne => ?_⟩
  · exact (hs.distinct d).map fun name name' he => by simpa using he
  · intro w hw hw'
    obtain ⟨name, -, rfl⟩ := mem_childPlaces.mp hw
    obtain ⟨name', -, he⟩ := mem_childPlaces.mp hw'
    exact hne (List.append_inj' he rfl).1

theorem length_children_le (hs : v.Sound) {places : List Place} (hn : places.Nodup) :
    (places.flatMap v.childPlaces).length ≤ v.entries.size := by
  refine length_le_of_nodup hs (nodup_children hs hn) fun w hw => ?_
  obtain ⟨d, -, hw⟩ := List.mem_flatMap.mp hw
  obtain ⟨name, hname, rfl⟩ := mem_childPlaces.mp hw
  exact ⟨by simp, Option.isSome_iff_ne_none.mp (mem_names.mp hname)⟩

theorem length_names_le (hs : v.Sound) (d : Place) : (v.names d).length ≤ v.entries.size := by
  have hle := length_children_le hs (List.nodup_singleton d)
  rwa [List.flatMap_singleton, childPlaces, List.length_map] at hle

end Bytework.Volume
