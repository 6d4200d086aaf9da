import Bytework.Proofs.Cipher.Rearrange
import Mathlib.Data.List.FinRange
import Mathlib.Data.Fintype.EquivFin

/-!
# The rail fence, and what a rearrangement may depend on

A text is written along a zigzag by a pen that goes down and up over all its rails, however many
they are, and the rails are read one after another. The cipher instead sorts the positions of the
text by their rails, over no more rails than the text has bytes.

* `Pen`, `fence`: a text written along the zigzag; `fenceFrom_penAt`: what stands on each rail.
* `filter_mergeSort`, `mergeSort_eq_flatMap`: a stable sort puts the classes of its key one after
  another, each in its old order.
* `railOrder_eq`: the positions rail by rail, over all the rails; `railOrder_of_length_le`: as many
  rails as positions leave them in their order.
* `railEncode_eq_fence`: the cipher reads the fence; `cycle_lt`: its arithmetic fits a word.
* `Rearranges`: a cipher that permutes the positions of a text by its length alone;
  `rearranges_gather`: reading by an order of all positions is one.
* **`railEncode_fence_rearranges`**: the rail cipher reads the fence, and both it and the shuffle
  rearrange.
-/

namespace Bytework.Cipher

/-! ## The fence -/

/-- The rail a pen is on and whether it is going down. -/
structure Pen where
  rail : Nat
  down : Bool
deriving DecidableEq

/-- One step of the pen, which turns at the first rail and at the last. -/
def Pen.next (rails : Nat) (pen : Pen) : Pen :=
  let rail := if pen.down then pen.rail + 1 else pen.rail - 1
  ⟨rail, if rail = 0 then true else if rail + 1 = rails then false else pen.down⟩

/-- The rails after a text has been written by a pen, byte after byte. -/
def fenceFrom (rails : Nat) : Pen → Bytes → List Bytes
  | _, [] => List.replicate rails []
  | pen, b :: text => (fenceFrom rails (pen.next rails) text).modify pen.rail (b :: ·)

/-- The rails after a text has been written along the zigzag, from the first rail down. -/
def fence (rails : Nat) (text : Bytes) : List Bytes := fenceFrom rails ⟨0, true⟩ text

theorem length_fenceFrom (rails : Nat) (pen : Pen) (text : Bytes) :
    (fenceFrom rails pen text).length = rails := by
  induction text generalizing pen with
  | nil => exact List.length_replicate
  | cons b text ih => rw [fenceFrom, List.length_modify, ih]

/-! ## The pen at a position -/

theorem zigzag_lt {rails : Nat} (h : 2 ≤ rails) (i : Nat) : zigzag rails i < rails := by
  have hlt : i % (2 * (rails - 1)) < 2 * (rails - 1) := Nat.mod_lt _ (by omega)
  simp only [zigzag]
  split <;> omega

theorem zigzag_of_lt {rails i : Nat} (h : 2 ≤ rails) (hi : i < rails) : zigzag rails i = i := by
  have hmod : i % (2 * (rails - 1)) = i := Nat.mod_eq_of_lt (by omega)
  simp only [zigzag, hmod, if_pos hi]

/-- The pen some steps into its cycle, before it turns at the last rail and after. -/
def penIn (rails k : Nat) : Pen :=
  if k < rails - 1 then ⟨k, true⟩ else ⟨2 * (rails - 1) - k, false⟩

theorem next_penIn {rails k : Nat} (h : 2 ≤ rails) (hk : k < 2 * (rails - 1)) :
    (penIn rails k).next rails = penIn rails (if k + 1 = 2 * (rails - 1) then 0 else k + 1) := by
  by_cases hdown : k < rails - 1
  · by_cases hturn : k + 1 = rails - 1 <;> grind [penIn, Pen.next]
  · by_cases hturn : k + 1 = 2 * (rails - 1) <;> grind [penIn, Pen.next]

/-- The pen that is about to write the byte at position `i`. -/
def penAt (rails i : Nat) : Pen := penIn rails (i % (2 * (rails - 1)))

theorem penAt_zero {rails : Nat} (h : 2 ≤ rails) : penAt rails 0 = ⟨0, true⟩ := by
  rw [penAt, Nat.zero_mod, penIn, if_pos (by omega)]

theorem rail_penAt {rails : Nat} (h : 2 ≤ rails) (i : Nat) :
    (penAt rails i).rail = zigzag rails i := by
  have hlt : i % (2 * (rails - 1)) < 2 * (rails - 1) := Nat.mod_lt _ (by omega)
  simp only [penAt, penIn, zigzag]
  -- at the last rail both branches of the zigzag agree
  split <;> split <;> simp only <;> omega

theorem next_penAt {rails : Nat} (h : 2 ≤ rails) (i : Nat) :
    (penAt rails i).next rails = penAt rails (i + 1) := by
  have hlt : i % (2 * (rails - 1)) < 2 * (rails - 1) := Nat.mod_lt _ (by omega)
  rw [penAt, next_penIn h hlt, penAt, Nat.add_mod_eq_ite,
    Nat.mod_eq_of_lt (a := 1) (by omega)]
  congr 1
  split <;> split <;> omega

/-- What stands on each rail: the bytes whose positions lie on it, in their order. -/
theorem fenceFrom_penAt {rails : Nat} (h : 2 ≤ rails) (i : Nat) (text : Bytes) :
    fenceFrom rails (penAt rails i) text = (List.range rails).map fun r =>
      ((text.zipIdx i).filter fun p => zigzag rails p.2 == r).map Prod.fst := by
  induction text generalizing i with
  | nil => simp [fenceFrom]
  | cons b text ih =>
    rw [fenceFrom, next_penAt h, ih, rail_penAt h, List.zipIdx_cons]
    refine List.ext_getElem (by simp) fun r _ _ => ?_
    by_cases hrail : zigzag rails i = r
    · simp [hrail]
    · simp [hrail]

/-! ## Sorting by a key -/

section Sorting

variable {α : Type*} (key : α → Nat)

/-- A stable sort keeps the elements of one key in their order. -/
theorem filter_mergeSort (k : Nat) (l : List α) :
    (l.mergeSort fun a b => key a ≤ key b).filter (key · == k) = l.filter (key · == k) := by
  have hsame : (l.filter (key · == k)).Pairwise fun a b => decide (key a ≤ key b) := by
    refine List.pairwise_of_forall_mem_list fun a ha b hb => ?_
    simp only [List.mem_filter, beq_iff_eq] at ha hb
    exact decide_eq_true (by omega)
  have hsub : List.Sublist (l.filter (key · == k)) (l.mergeSort fun a b => key a ≤ key b) :=
    List.sublist_mergeSort (by grind) (by grind) hsame List.filter_sublist
  have hclass := hsub.filter (key · == k)
  simp only [List.filter_filter, Bool.and_self] at hclass
  exact (hclass.eq_of_length ((List.mergeSort_perm l _).filter _).length_eq.symm).symm

variable {key}

/-- A list in the order of its keys ends with the elements of the greatest key. -/
theorem filter_lt_append_filter_eq {l : List α} (hsorted : l.Pairwise fun a b => key a ≤ key b)
    {n : Nat} (hle : ∀ a ∈ l, key a ≤ n) :
    l.filter (key · < n) ++ l.filter (key · == n) = l := by
  induction l with
  | nil => rfl
  | cons a l ih =>
    obtain ⟨hfirst, hrest⟩ := List.pairwise_cons.mp hsorted
    obtain ⟨ha, hl⟩ := List.forall_mem_cons.mp hle
    rcases Nat.lt_or_eq_of_le ha with hlt | heq
    · simpa [hlt, hlt.ne] using ih hrest hl
    · -- from here on every key is the greatest one
      have hall : ∀ b ∈ l, key b = n := fun b hb => le_antisymm (hl b hb) (heq ▸ hfirst b hb)
      have hnone : l.filter (key · < n) = [] := by
        rw [List.filter_eq_nil_iff]
        intro b hb
        simp [hall b hb]
      have hevery : l.filter (key · == n) = l := by
        rw [List.filter_eq_self]
        intro b hb
        simp [hall b hb]
      simp [heq, hnone, hevery]

/-- A list in the order of its keys is its classes one after another. -/
theorem flatMap_filter_eq {l : List α} (hsorted : l.Pairwise fun a b => key a ≤ key b) {n : Nat}
    (hlt : ∀ a ∈ l, key a < n) : (List.range n).flatMap (fun k => l.filter (key · == k)) = l := by
  induction n generalizing l with
  | zero => exact (List.eq_nil_iff_forall_not_mem.mpr fun a ha => Nat.not_lt_zero _ (hlt a ha)).symm
  | succ n ih =>
    have hsplit := filter_lt_append_filter_eq hsorted fun a ha => Nat.le_of_lt_succ (hlt a ha)
    have hlow := ih (l := l.filter (key · < n)) (hsorted.filter _) (by simp)
    have hsame : ∀ k ∈ List.range n,
        (l.filter (key · < n)).filter (key · == k) = l.filter (key · == k) := by
      intro k hk
      rw [List.filter_filter]
      refine List.filter_congr fun a _ => ?_
      by_cases hkey : key a = k
      · simp [hkey, List.mem_range.mp hk]
      · simp [hkey]
    rw [List.range_succ, List.flatMap_append, List.flatMap_singleton,
      ← List.flatMap_congr hsame, hlow, hsplit]

/-- A stable sort puts the classes of its key one after another. -/
theorem mergeSort_eq_flatMap {l : List α} {n : Nat} (hlt : ∀ a ∈ l, key a < n) :
    (l.mergeSort fun a b => key a ≤ key b) =
      (List.range n).flatMap fun k => l.filter (key · == k) := by
  have hsorted : (l.mergeSort fun a b => key a ≤ key b).Pairwise fun a b => key a ≤ key b := by
    have h : (l.mergeSort fun a b => key a ≤ key b).Pairwise fun a b => decide (key a ≤ key b) :=
      List.pairwise_mergeSort (by grind) (by grind) l
    simpa only [decide_eq_true_eq] using h
  have hbound : ∀ a ∈ l.mergeSort fun a b => key a ≤ key b, key a < n :=
    fun a ha => hlt a (List.mem_mergeSort.mp ha)
  rw [← flatMap_filter_eq hsorted hbound]
  simp only [filter_mergeSort]

end Sorting

/-! ## The order of the rails -/

theorem pairwise_zigzag {length rails : Nat} (h : 2 ≤ rails) (hle : length ≤ rails) :
    (List.range length).Pairwise fun i j => zigzag rails i ≤ zigzag rails j := by
  refine List.pairwise_lt_range.imp_of_mem fun hi hj hij => ?_
  rw [List.mem_range] at hi hj
  rw [zigzag_of_lt h (hi.trans_le hle), zigzag_of_lt h (hj.trans_le hle)]
  exact hij.le

theorem railOrder_of_length_le {length rails : Nat} (h : length ≤ rails) :
    railOrder length rails = List.range length := by
  have hused : length ≤ railCount rails length := by
    unfold railCount
    omega
  have hsorted := pairwise_zigzag (le_max_left _ _) hused
  exact List.mergeSort_of_pairwise (hsorted.imp fun hij => decide_eq_true hij)

/-- The positions rail by rail, over all the rails that are asked for. -/
theorem railOrder_eq {rails : Nat} (h : 2 ≤ rails) (length : Nat) :
    railOrder length rails =
      (List.range rails).flatMap fun r => (List.range length).filter (zigzag rails · == r) := by
  have hlt : ∀ i ∈ List.range length, zigzag rails i < rails := fun i _ => zigzag_lt h i
  rcases Nat.le_total length rails with hle | hle
  · rw [railOrder_of_length_le hle, flatMap_filter_eq (pairwise_zigzag h hle) hlt]
  · have hused : railCount rails length = rails := by
      unfold railCount
      omega
    rw [railOrder, hused]
    exact mergeSort_eq_flatMap hlt

/-- The cipher reads the fence. -/
theorem railEncode_eq_fence {rails : Nat} (h : 2 ≤ rails) (text : Bytes) :
    railEncode rails text = (fence rails text).flatten := by
  have hin : ∀ i ∈ railOrder text.length rails, i < text.length := fun i hi =>
    List.mem_range.mp ((railOrder_perm text.length rails).mem_iff.mp hi)
  have hpairs : text.zipIdx = (List.range text.length).map fun i => (text.getD i 0, i) := by
    refine List.ext_getElem (by simp) fun i hi _ => ?_
    simp only [List.length_zipIdx] at hi
    simp [hi]
  rw [railEncode, gather_eq_map hin, railOrder_eq h, List.map_flatMap, fence, ← penAt_zero h,
    fenceFrom_penAt h, ← List.flatMap_def, hpairs]
  simp only [List.filter_map, List.map_map, Function.comp_def]

theorem railEncode_of_length_le {rails : Nat} {text : Bytes} (h : text.length ≤ rails) :
    railEncode rails text = text := by
  rw [railEncode, railOrder_of_length_le h, gather_eq_map fun i => List.mem_range.mp]
  exact List.ext_getElem (by simp) fun i _ hi => by simp [hi]

theorem cycle_lt {length values : Nat} (rails : Nat) (htwo : 2 < values)
    (h : 2 * length < values) : 2 * (railCount rails length - 1) < values := by
  unfold railCount
  omega

/-! ## Rearrangements -/

/-- Two ciphers move the bytes of a text, and back, by a permutation of its positions, one for each
length of text. -/
def Rearranges (encode decode : Bytes → Bytes) : Prop :=
  ∀ n, ∃ σ : Equiv.Perm (Fin n), ∀ text : Fin n → UInt8,
    encode (List.ofFn text) = List.ofFn (text ∘ σ) ∧
      decode (List.ofFn text) = List.ofFn (text ∘ σ.symm)

theorem Rearranges.perm {encode decode : Bytes → Bytes} (h : Rearranges encode decode)
    (text : Bytes) : (encode text).Perm text := by
  obtain ⟨σ, hσ⟩ := h text.length
  have hperm := σ.ofFn_comp_perm text.get
  rwa [← (hσ text.get).1, List.ofFn_get] at hperm

/-- An order of all positions is a permutation of them. -/
theorem exists_perm_of_order {order : List Nat} {n : Nat} (h : order.Perm (List.range n)) :
    ∃ σ : Equiv.Perm (Fin n), order = List.ofFn fun i => (σ i : Nat) := by
  have hlen : order.length = n := by rw [h.length_eq, List.length_range]
  have hin : ∀ i ∈ order, i < n := fun i hi => List.mem_range.mp (h.mem_iff.mp hi)
  have hnodup : order.Nodup := h.nodup_iff.mpr List.nodup_range
  subst hlen
  let σ : Fin order.length → Fin order.length := fun i => ⟨order[i], hin _ (List.getElem_mem _)⟩
  have hinj : Function.Injective σ := fun i j hij =>
    Fin.ext (hnodup.getElem_inj_iff.mp (congrArg Fin.val hij))
  exact ⟨Equiv.ofBijective σ (Finite.injective_iff_bijective.mp hinj), List.ofFn_getElem.symm⟩

theorem gather_ofFn {n : Nat} (σ : Equiv.Perm (Fin n)) (text : Fin n → UInt8) :
    gather (List.ofFn fun i => (σ i : Nat)) (List.ofFn text) = List.ofFn (text ∘ σ) := by
  rw [gather_eq_map (by simp [List.mem_ofFn]), List.map_ofFn]
  simp [Function.comp_def]

/-- Reading by an order that has every position once, and putting back. -/
theorem rearranges_gather {order : Nat → List Nat} (h : ∀ n, (order n).Perm (List.range n)) :
    Rearranges (fun text => gather (order text.length) text)
      (fun text => scatter (order text.length) text) := by
  intro n
  obtain ⟨σ, hσ⟩ := exists_perm_of_order (h n)
  refine ⟨σ, fun text => ⟨?_, ?_⟩⟩
  · simp only [List.length_ofFn]
    rw [hσ, gather_ofFn]
  · -- the text is what is read by the order from the text that the inverse makes of it
    have hback : scatter (order n) (gather (order n) (List.ofFn (text ∘ σ.symm))) =
        List.ofFn (text ∘ σ.symm) := scatter_gather (by rw [List.length_ofFn]; exact h n)
    simp only [List.length_ofFn]
    rwa [hσ, gather_ofFn, Function.comp_assoc, Equiv.symm_comp_self, Function.comp_id,
      ← hσ] at hback

/-- **The rail cipher reads the fence, and rails and shuffles only rearrange.** The fence has as many
rails as are asked for, be they more than the text has bytes, where the text is left as it is; the
cycle of the rails in use fits a word with more values than twice the length. Both ciphers permute
the positions of a text by its length and their parameter alone, so the bytes are the same ones. -/
theorem railEncode_fence_rearranges {rails : Nat} (h : 2 ≤ rails) (seed : Nat) :
    (∀ text, (fence rails text).length = rails ∧
      railEncode rails text = (fence rails text).flatten) ∧
    (∀ text : Bytes, text.length ≤ rails → railEncode rails text = text) ∧
    (∀ length values : Nat, 2 < values → 2 * length < values →
      2 * (railCount rails length - 1) < values) ∧
    Rearranges (railEncode rails) (railDecode rails) ∧ Rearranges (shuffle seed) (unshuffle seed) ∧
    ∀ text, (railEncode rails text).Perm text ∧ (shuffle seed text).Perm text := by
  have hrails : Rearranges (railEncode rails) (railDecode rails) :=
    rearranges_gather fun n => railOrder_perm n rails
  have hshuffle : Rearranges (shuffle seed) (unshuffle seed) :=
    rearranges_gather fun n => shuffleOrder_perm n seed
  exact ⟨fun text => ⟨length_fenceFrom .., railEncode_eq_fence h text⟩,
    fun _ => railEncode_of_length_le, fun _ _ => cycle_lt rails, hrails, hshuffle,
    fun text => ⟨hrails.perm text, hshuffle.perm text⟩⟩

/-- Three rails under a text that reaches the last one twice, and under one that fits them. -/
theorem railEncode_fence_rearranges_three :
    2 ≤ 3 ∧ fence 3 (ascii "WEAREDIS") = [ascii "WE", ascii "ERDS", ascii "AI"] ∧
      railEncode 3 (ascii "WEAREDIS") = ascii "WEERDSAI" ∧
      (ascii "abc").length ≤ 3 ∧ railEncode 3 (ascii "abc") = ascii "abc" ∧
      2 < 18446744073709551616 ∧ 2 * 9223372036854775807 < 18446744073709551616 ∧
      2 * (railCount 3 9223372036854775807 - 1) < 18446744073709551616 ∧
      (shuffle 7 (ascii "abc")).Perm (ascii "abc") := by
  have h : 2 ≤ 3 := by decide
  have hfence : fence 3 (ascii "WEAREDIS") = [ascii "WE", ascii "ERDS", ascii "AI"] := by decide
  have hshort : (ascii "abc").length ≤ 3 := by decide
  obtain ⟨hread, hkept, hcycle, -, -, hsame⟩ := railEncode_fence_rearranges h 7
  have htwo : 2 < 18446744073709551616 := by decide
  have hlength : 2 * 9223372036854775807 < 18446744073709551616 := by decide
  refine ⟨h, hfence, ?_, hshort, hkept _ hshort, htwo, hlength, hcycle _ _ htwo hlength,
    (hsame _).2⟩
  rw [(hread _).2, hfence]
  decide

end Bytework.Cipher
