import Bytework.Cipher.Rearrange

/-!
# Rearranged bytes, put back

A rearrangement by a list of all positions is undone by writing each byte back to its position.

* `gather_eq_map`: the bytes at positions that exist; `getElem?_scattered`: what has been written
  back.
* **`scatter_gather`**: an order that has every position once is undone.
* `railOrder_perm`, `shuffleOrder_perm`: rails and shuffles are such orders.
* `railDecode_railEncode`, `unshuffle_shuffle`: both ciphers are undone.
-/

namespace Bytework.Cipher

/-! ## There and back -/

theorem gather_eq_map {order : List Nat} {text : Bytes} (h : ∀ i ∈ order, i < text.length) :
    gather order text = order.map fun i => text.getD i 0 := by
  induction order with
  | nil => rfl
  | cons i order ih =>
    obtain ⟨hi, hrest⟩ := List.forall_mem_cons.mp h
    have hget : text.toArray[i]? = some (text.getD i 0) := by simp [hi]
    rw [gather, List.filterMap_cons_some hget]
    exact congrArg (text.getD i 0 :: ·) (ih hrest)

/-- Writing at each position of a list what belongs there. -/
theorem getElem?_scattered (source : Nat → UInt8) (order : List Nat) (out : Array UInt8) {j : Nat}
    (hj : j < out.size) :
    (order.foldl (fun out i => out.setIfInBounds i (source i)) out)[j]? =
      if j ∈ order then some (source j) else out[j]? := by
  induction order generalizing out with
  | nil => rw [List.foldl_nil, if_neg List.not_mem_nil]
  | cons i order ih =>
    rw [List.foldl_cons, ih _ (by rwa [Array.size_setIfInBounds])]
    by_cases hmem : j ∈ order
    · rw [if_pos hmem, if_pos (List.mem_cons_of_mem i hmem)]
    · rw [if_neg hmem, Array.getElem?_setIfInBounds]
      by_cases he : i = j
      · subst he
        rw [if_pos rfl, if_pos hj, if_pos List.mem_cons_self]
      · rw [if_neg he, if_neg (by rintro (_ | ⟨_, hin⟩) <;> contradiction)]

theorem size_scattered (source : Nat → UInt8) (order : List Nat) (out : Array UInt8) :
    (order.foldl (fun out i => out.setIfInBounds i (source i)) out).size = out.size := by
  induction order generalizing out with
  | nil => rfl
  | cons i order ih => rw [List.foldl_cons, ih, Array.size_setIfInBounds]

theorem length_gather {order : List Nat} {text : Bytes}
    (h : order.Perm (List.range text.length)) : (gather order text).length = text.length := by
  rw [gather_eq_map fun i hi => List.mem_range.mp (h.mem_iff.mp hi), List.length_map, h.length_eq,
    List.length_range]

/-- **An order that has every position once is undone.** -/
theorem scatter_gather {order : List Nat} {text : Bytes}
    (h : order.Perm (List.range text.length)) : scatter order (gather order text) = text := by
  have hlen := length_gather h
  -- what is written to a position depends on the position alone, so the order does not matter
  rw [scatter, hlen, gather_eq_map fun i hi => List.mem_range.mp (h.mem_iff.mp hi),
    ← List.map_prod_left_eq_zip, List.foldl_map]
  refine List.ext_getElem? fun j => ?_
  rw [Array.getElem?_toList]
  by_cases hj : j < text.length
  · rw [getElem?_scattered _ _ _ (by rwa [Array.size_replicate]),
      if_pos (h.mem_iff.mpr (List.mem_range.mpr hj)), List.getElem?_eq_getElem hj,
      List.getD_eq_getElem?_getD, List.getElem?_eq_getElem hj, Option.getD_some]
  · rw [List.getElem?_eq_none (Nat.not_lt.mp hj), Array.getElem?_eq_none]
    rw [size_scattered, Array.size_replicate]
    exact Nat.not_lt.mp hj

/-! ## Rails -/

theorem railOrder_perm (length rails : Nat) :
    (railOrder length rails).Perm (List.range length) :=
  List.mergeSort_perm _ _

theorem railDecode_railEncode (rails : Nat) (text : Bytes) :
    railDecode rails (railEncode rails text) = text := by
  have h := railOrder_perm text.length rails
  rw [railDecode, railEncode, length_gather h]
  exact scatter_gather h

/-! ## Shuffles -/

theorem swapIfInBounds_perm (order : Array Nat) (i j : Nat) :
    (order.swapIfInBounds i j).toList.Perm order.toList := by
  unfold Array.swapIfInBounds
  split
  · split
    · exact (Array.swap_perm _ _).toList
    · exact List.Perm.refl _
  · exact List.Perm.refl _

theorem shuffleFrom_perm (i state : Nat) (order : Array Nat) :
    (shuffleFrom i state order).toList.Perm order.toList := by
  induction i generalizing state order with
  | zero => exact List.Perm.refl _
  | succ i ih => exact (ih _ _).trans (swapIfInBounds_perm ..)

theorem shuffleOrder_perm (length seed : Nat) :
    (shuffleOrder length seed).Perm (List.range length) := by
  have h := shuffleFrom_perm (length - 1) seed (Array.range length)
  rwa [Array.toList_range] at h

theorem unshuffle_shuffle (seed : Nat) (text : Bytes) :
    unshuffle seed (shuffle seed text) = text := by
  have h := shuffleOrder_perm text.length seed
  rw [unshuffle, shuffle, length_gather h]
  exact scatter_gather h

end Bytework.Cipher
