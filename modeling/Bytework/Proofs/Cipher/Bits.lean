import Bytework.Cipher.Radix
import Mathlib.Algebra.Ring.Nat
import Mathlib.Data.List.Induction

/-!
# Bits, groups and digits

* `ofBits_bitsOf`, `bitsOf_ofBits`: numbers and their bits; `bitsOf_add`: bits above a place and below.
* `chunks_of_lt`, `chunks_append`: a list cut into groups.
* **`bytesOfBits_bitsOfBytes`**: bytes are read back from their bits, whatever few bits follow;
  `bitsOfBytes_bytesOfBits`: bits that make whole bytes are read back from them.
* **`flatMap_digitsOf`**, **`bitsOf_join`**: the digits of a number, and the number of some digits, have
  the same bits.
-/

namespace Bytework.Cipher

/-! ## Numbers and bits -/

@[simp] theorem length_bitsOf (width n : Nat) : (bitsOf width n).length = width := by
  rw [bitsOf, List.length_map, List.length_range]

theorem bitsOf_succ (width n : Nat) :
    bitsOf (width + 1) n = bitsOf width (n / 2) ++ [n.testBit 0] := by
  rw [bitsOf, bitsOf, List.range_succ, List.map_append, List.map_singleton, Nat.add_sub_cancel,
    Nat.sub_self]
  congr 1
  refine List.map_congr_left fun i hi => ?_
  have hi' := List.mem_range.mp hi
  rw [show width - i = width - 1 - i + 1 by omega, Nat.testBit_succ]

theorem ofBits_concat (bits : List Bool) (b : Bool) :
    ofBits (bits ++ [b]) = 2 * ofBits bits + b.toNat := by
  rw [ofBits, List.foldl_append]
  rfl

theorem ofBits_bitsOf {width n : Nat} (h : n < 2 ^ width) : ofBits (bitsOf width n) = n := by
  induction width generalizing n with
  | zero =>
    rw [Nat.pow_zero] at h
    rw [Nat.lt_one_iff.mp h]
    rfl
  | succ width ih =>
    rw [Nat.pow_succ] at h
    rw [bitsOf_succ, ofBits_concat, ih (by omega), Nat.testBit_zero]
    have hmod : (decide (n % 2 = 1)).toNat = n % 2 := by
      rcases Nat.mod_two_eq_zero_or_one n with h | h <;> rw [h] <;> rfl
    rw [hmod]
    omega

theorem ofBits_lt (bits : List Bool) : ofBits bits < 2 ^ bits.length := by
  induction bits using List.reverseRecOn with
  | nil => exact Nat.one_pos
  | append_singleton bits b ih =>
    have hb := Bool.toNat_lt b
    rw [ofBits_concat, List.length_append, List.length_singleton, Nat.pow_succ]
    omega

theorem bitsOf_ofBits (bits : List Bool) : bitsOf bits.length (ofBits bits) = bits := by
  induction bits using List.reverseRecOn with
  | nil => rfl
  | append_singleton bits b ih =>
    have hhalf : (2 * ofBits bits + b.toNat) / 2 = ofBits bits := by
      have hb := Bool.toNat_lt b
      omega
    have hlast : (2 * ofBits bits + b.toNat).testBit 0 = b := by
      rw [Nat.testBit_zero]
      cases b with
      | false => exact decide_eq_false (by rw [Bool.toNat_false]; omega)
      | true => exact decide_eq_true (by rw [Bool.toNat_true]; omega)
    rw [List.length_append, List.length_singleton, bitsOf_succ, ofBits_concat, hhalf, hlast, ih]

theorem bitsOf_congr {width m n : Nat} (h : ∀ i < width, m.testBit i = n.testBit i) :
    bitsOf width m = bitsOf width n := by
  refine List.map_congr_left fun i hi => h _ ?_
  have hi' := List.mem_range.mp hi
  omega

theorem bitsOf_zero (width : Nat) : bitsOf width 0 = List.replicate width false := by
  simp only [bitsOf, Nat.zero_testBit, List.map_const', List.length_range]

theorem bitsOf_mod (width n : Nat) : bitsOf width (n % 2 ^ width) = bitsOf width n :=
  bitsOf_congr fun i hi => by rw [Nat.testBit_mod_two_pow, decide_eq_true hi, Bool.true_and]

theorem bitsOf_add (high low n : Nat) :
    bitsOf (high + low) n = bitsOf high (n >>> low) ++ bitsOf low n := by
  rw [bitsOf, List.range_add, List.map_append, List.map_map]
  congr 1
  · refine List.map_congr_left fun i hi => ?_
    have hi' := List.mem_range.mp hi
    rw [Nat.testBit_shiftRight, show low + (high - 1 - i) = high + low - 1 - i by omega]
  · refine List.map_congr_left fun i hi => ?_
    rw [Function.comp_apply, show high + low - 1 - (high + i) = low - 1 - i by omega]

/-! ## Groups -/

section Chunks

variable {α : Type} {width : Nat}

theorem chunks_nil : chunks width ([] : List α) = [] := by
  rw [chunks]

theorem chunks_append {l : List α} (hw : 0 < width) (hl : l.length = width) (l' : List α) :
    chunks width (l ++ l') = l :: chunks width l' := by
  cases l with
  | nil =>
    rw [List.length_nil] at hl
    omega
  | cons x l =>
    obtain rfl : width = l.length + 1 := hl.symm
    rw [List.cons_append, chunks, Nat.add_sub_cancel, List.take_left, List.drop_left]

theorem chunks_of_lt {l : List α} (hne : l ≠ []) (hl : l.length < width) :
    chunks width l = [l] := by
  cases l with
  | nil => exact absurd rfl hne
  | cons x l =>
    rw [List.length_cons] at hl
    rw [chunks, List.take_of_length_le (by omega), List.drop_of_length_le (by omega), chunks_nil]

theorem flatten_chunks (l : List α) : (chunks width l).flatten = l := by
  fun_induction chunks width l with
  | case1 => rfl
  | case2 x l ih => rw [List.flatten_cons, ih, List.cons_append, List.take_append_drop]

/-- A list is full groups and a rest that is shorter. -/
theorem chunks_induction {motive : List α → Prop} (hw : 0 < width)
    (short : ∀ l, l.length < width → motive l)
    (group : ∀ l l', l.length = width → motive l' → motive (l ++ l')) (l : List α) : motive l := by
  induction hn : l.length using Nat.strongRecOn generalizing l with
  | _ n ih =>
    subst hn
    by_cases hl : l.length < width
    · exact short l hl
    · rw [← List.take_append_drop width l]
      refine group _ _ (List.length_take_of_le (Nat.not_lt.mp hl)) (ih _ ?_ _ rfl)
      rw [List.length_drop]
      omega

end Chunks

/-! ## Bytes -/

theorem toUInt8_ofBits (b : UInt8) : (ofBits (bitsOf 8 b.toNat)).toUInt8 = b := by
  rw [ofBits_bitsOf (show b.toNat < 2 ^ 8 from b.toNat_lt), Nat.toUInt8_eq, UInt8.ofNat_toNat]

/-- **Bytes are read back from their bits**, whatever few bits follow. -/
theorem bytesOfBits_bitsOfBytes (data : Bytes) {rest : List Bool} (h : rest.length < 8) :
    bytesOfBits (bitsOfBytes data ++ rest) = data := by
  induction data with
  | nil =>
    rw [bitsOfBytes, List.flatMap_nil, List.nil_append, bytesOfBits]
    by_cases hne : rest = []
    · rw [hne, chunks_nil]
      rfl
    · rw [chunks_of_lt hne h]
      simp [Nat.ne_of_lt h]
  | cons b data ih =>
    rw [bytesOfBits] at ih ⊢
    rw [bitsOfBytes, List.flatMap_cons, List.append_assoc,
      chunks_append (by decide) (length_bitsOf 8 _), List.filter_cons_of_pos (by simp),
      List.map_cons, toUInt8_ofBits]
    exact congrArg (b :: ·) ih

/-- Bits that fill up bytes are read back from these. -/
theorem bitsOfBytes_bytesOfBits {bits : List Bool} (h : bits.length % 8 = 0) :
    bitsOfBytes (bytesOfBits bits) = bits := by
  induction bits using chunks_induction (show 0 < 8 by decide) with
  | short bits hlt =>
    obtain rfl : bits = [] := List.length_eq_zero_iff.mp (by omega)
    rw [bytesOfBits, chunks_nil]
    rfl
  | group group bits hlength ih =>
    have hlt : ofBits group < 2 ^ 8 := hlength ▸ ofBits_lt group
    rw [List.length_append, hlength, Nat.add_mod_left] at h
    rw [bytesOfBits] at ih ⊢
    rw [chunks_append (by decide) hlength, List.filter_cons_of_pos (by simp [hlength]),
      List.map_cons, bitsOfBytes, List.flatMap_cons, ← bitsOfBytes, ih h, Nat.toUInt8_eq,
      UInt8.toNat_ofNat_of_lt' hlt, ← hlength, bitsOf_ofBits]

theorem length_flatMap_bitsOf (width : Nat) (values : List Nat) :
    (values.flatMap (bitsOf width)).length = values.length * width := by
  induction values with
  | nil => simp
  | cons n values ih =>
    rw [List.flatMap_cons, List.length_append, length_bitsOf, ih, List.length_cons, Nat.succ_mul,
      Nat.add_comm]

theorem length_bitsOfBytes (data : Bytes) : (bitsOfBytes data).length = data.length * 8 := by
  have hvalues : bitsOfBytes data = (data.map UInt8.toNat).flatMap (bitsOf 8) :=
    (List.flatMap_map ..).symm
  rw [hvalues, length_flatMap_bitsOf, List.length_map]

theorem bitsOfBytes_injective : Function.Injective bitsOfBytes := fun a b h => by
  have ha := bytesOfBits_bitsOfBytes a (show [].length < 8 by decide)
  rw [h, bytesOfBits_bitsOfBytes b (by decide)] at ha
  exact ha.symm

theorem bitsOfBytes_append (a b : Bytes) : bitsOfBytes (a ++ b) = bitsOfBytes a ++ bitsOfBytes b :=
  List.flatMap_append

theorem bitsOfBytes_map_toUInt8 (values : List Nat) :
    bitsOfBytes (values.map Nat.toUInt8) = values.flatMap (bitsOf 8) := by
  rw [bitsOfBytes, List.flatMap_map]
  refine congrArg (List.flatMap · values) (funext fun n => ?_)
  rw [Nat.toUInt8_eq, UInt8.toNat_ofNat']
  exact bitsOf_mod 8 n

/-! ## Digits -/

section Digits

variable {width count n : Nat} {values digits : List Nat}

/-- The first digits have the first bits. -/
theorem take_flatMap_bitsOf (width k : Nat) (values : List Nat) :
    (values.take k).flatMap (bitsOf width) = (values.flatMap (bitsOf width)).take (width * k) := by
  induction values generalizing k with
  | nil => simp
  | cons d values ih =>
    cases k with
    | zero => simp
    | succ k =>
      have hlength : width * (k + 1) = (bitsOf width d).length + width * k := by
        rw [length_bitsOf, Nat.mul_succ, Nat.add_comm]
      rw [List.take_succ_cons, List.flatMap_cons, List.flatMap_cons, ih, hlength,
        List.take_length_add_append]

/-- Digits are told by their bits. -/
theorem flatMap_bitsOf_injective {values' : List Nat} (h : ∀ d ∈ values, d < 2 ^ width)
    (h' : ∀ d ∈ values', d < 2 ^ width) (hlength : values.length = values'.length)
    (hbits : values.flatMap (bitsOf width) = values'.flatMap (bitsOf width)) : values = values' := by
  induction values generalizing values' with
  | nil => exact (List.length_eq_zero_iff.mp hlength.symm).symm
  | cons d values ih =>
    cases values' with
    | nil => cases hlength
    | cons d' values' =>
      obtain ⟨hd, hvalues⟩ := List.forall_mem_cons.mp h
      obtain ⟨hd', hvalues'⟩ := List.forall_mem_cons.mp h'
      rw [List.flatMap_cons, List.flatMap_cons] at hbits
      obtain ⟨hfirst, hrest⟩ := List.append_inj hbits (by rw [length_bitsOf, length_bitsOf])
      rw [← ofBits_bitsOf hd, hfirst, ofBits_bitsOf hd',
        ih hvalues hvalues' (Nat.succ.inj hlength) hrest]

/-- The digits of a number, from the highest of `count` places on. -/
def digitsOf (width count n : Nat) : List Nat := (List.range count).map (digitAt width count n)

theorem length_digitsOf (width count n : Nat) : (digitsOf width count n).length = count := by
  rw [digitsOf, List.length_map, List.length_range]

theorem lt_of_mem_digitsOf {d : Nat} (h : d ∈ digitsOf width count n) : d < 2 ^ width := by
  obtain ⟨place, -, rfl⟩ := List.mem_map.mp h
  rw [digitAt, Nat.one_shiftLeft]
  exact Nat.mod_lt _ (Nat.two_pow_pos width)

theorem digitsOf_succ (width count n : Nat) : digitsOf width (count + 1) n =
    n >>> (width * count) % 2 ^ width :: digitsOf width count n := by
  have hplace : digitAt width (count + 1) n ∘ Nat.succ = digitAt width count n := by
    funext place
    have hplace : count + 1 - 1 - place.succ = count - 1 - place := by omega
    rw [Function.comp_apply, digitAt, digitAt, hplace]
  rw [digitsOf, List.range_succ_eq_map, List.map_cons, List.map_map, hplace, digitAt,
    Nat.one_shiftLeft]
  rfl

/-- **The digits of a number have its bits.** -/
theorem flatMap_digitsOf (width count n : Nat) :
    (digitsOf width count n).flatMap (bitsOf width) = bitsOf (width * count) n := by
  induction count with
  | zero => rfl
  | succ count ih =>
    rw [digitsOf_succ, List.flatMap_cons, bitsOf_mod, ih, Nat.mul_succ, Nat.add_comm, bitsOf_add]

theorem join_lt (hlength : digits.length ≤ count) (h : ∀ d ∈ digits, d < 2 ^ width) :
    join width count digits < 2 ^ (width * count) := by
  induction digits generalizing count with
  | nil => exact Nat.two_pow_pos _
  | cons d digits ih =>
    obtain ⟨hd, hdigits⟩ := List.forall_mem_cons.mp h
    obtain ⟨count, rfl⟩ : ∃ k, count = k + 1 := ⟨count - 1, by rw [List.length_cons] at hlength; omega⟩
    have hrest := ih (Nat.le_of_succ_le_succ hlength) hdigits
    have hpow : 2 ^ (width * (count + 1)) = 2 ^ width * 2 ^ (width * count) := by
      rw [← Nat.pow_add, Nat.mul_succ, Nat.add_comm]
    refine Nat.or_lt_two_pow ?_ ?_
    · rw [Nat.add_sub_cancel, Nat.shiftLeft_eq, hpow]
      exact Nat.mul_lt_mul_of_pos_right hd (Nat.two_pow_pos _)
    · refine Nat.lt_of_lt_of_le hrest (Nat.pow_le_pow_right (by decide) ?_)
      exact Nat.mul_le_mul_left _ (Nat.le_succ _)

/-- **A number of digits has their bits**, and zeros follow. -/
theorem bitsOf_join (hlength : digits.length ≤ count) (h : ∀ d ∈ digits, d < 2 ^ width) :
    bitsOf (width * count) (join width count digits) =
      digits.flatMap (bitsOf width) ++ List.replicate (width * (count - digits.length)) false := by
  induction digits generalizing count with
  | nil =>
    rw [join, List.flatMap_nil, List.nil_append, List.length_nil, Nat.sub_zero, bitsOf_zero]
  | cons d digits ih =>
    obtain ⟨hd, hdigits⟩ := List.forall_mem_cons.mp h
    obtain ⟨count, rfl⟩ : ∃ k, count = k + 1 := ⟨count - 1, by rw [List.length_cons] at hlength; omega⟩
    have hle : digits.length ≤ count := Nat.le_of_succ_le_succ hlength
    have hlow := join_lt hle hdigits
    have hhigh : (d <<< (width * count) ||| join width count digits) >>> (width * count) = d := by
      rw [Nat.shiftRight_or_distrib, Nat.shiftLeft_shiftRight, Nat.shiftRight_eq_div_pow,
        Nat.div_eq_of_lt hlow, Nat.or_zero]
    have hrest : bitsOf (width * count) (d <<< (width * count) ||| join width count digits) =
        bitsOf (width * count) (join width count digits) := by
      refine bitsOf_congr fun i hi => ?_
      rw [Nat.testBit_or, Nat.testBit_shiftLeft, decide_eq_false (Nat.not_le.mpr hi), Bool.false_and,
        Bool.false_or]
    rw [join, Nat.add_sub_cancel, Nat.mul_succ, Nat.add_comm, bitsOf_add, hhigh, hrest, ih hle hdigits,
      List.flatMap_cons, List.append_assoc, List.length_cons, Nat.add_sub_add_right]

end Digits

end Bytework.Cipher
