import Bytework.Cipher.Letters
import Bytework.Cipher.Mask

/-!
# Ciphers that go byte by byte

The letter ciphers and the mask are undone byte by byte.

* **`rotate_rotate_eq`**: two moves along the alphabet are one; `rotate_rotate`: by 26 places together
  they undo each other.
* **`caesar_caesar_eq`**: shifts add up; `caesar_caesar`, `atbash_atbash`, `vigenere_vigenere`: the letter
  ciphers undone.
* `mask_mask`: a mask undoes itself.
-/

namespace Bytework.Cipher

variable {b s t u : UInt8}

/-! ## Letters -/

theorem toNat_moved {base : UInt8} (hbase : base.toNat ≤ 97)
    (hb : base.toNat ≤ b.toNat ∧ b.toNat ≤ base.toNat + 25) (hs : s.toNat ≤ 26) :
    (base + (b - base + s) % 26).toNat = base.toNat + (b.toNat - base.toNat + s.toNat) % 26 := by
  have hlt := b.toNat_lt
  simp only [UInt8.toNat_add, UInt8.toNat_mod, UInt8.toNat_sub, UInt8.reduceToNat]
  omega

theorem rotate_of_lower (hb : isLower b = true) (hs : s.toNat ≤ 26) :
    (rotate s b).toNat = 97 + (b.toNat - 97 + s.toNat) % 26 := by
  rw [rotate, if_pos hb]
  rw [isLower_iff] at hb
  exact toNat_moved (Nat.le_refl 97) hb hs

theorem rotate_of_upper (hb : isUpper b = true) (hs : s.toNat ≤ 26) :
    (rotate s b).toNat = 65 + (b.toNat - 65 + s.toNat) % 26 := by
  rw [rotate, if_neg (not_isLower_of_isUpper hb), if_pos hb]
  rw [isUpper_iff] at hb
  exact toNat_moved (by decide) hb hs

theorem rotate_of_other (hl : ¬ isLower b = true) (hu : ¬ isUpper b = true) : rotate s b = b := by
  rw [rotate, if_neg hl, if_neg hu]

theorem isLower_rotate (hb : isLower b = true) (hs : s.toNat ≤ 26) :
    isLower (rotate s b) = true := by
  rw [isLower_iff, rotate_of_lower hb hs]
  omega

theorem isUpper_rotate (hb : isUpper b = true) (hs : s.toNat ≤ 26) :
    isUpper (rotate s b) = true := by
  rw [isUpper_iff, rotate_of_upper hb hs]
  omega

theorem isAlpha_rotate (hs : s.toNat ≤ 26) : isAlpha (rotate s b) = isAlpha b := by
  by_cases hl : isLower b = true
  · rw [isAlpha, isAlpha, isLower_rotate hl hs, hl]
    rfl
  · by_cases hu : isUpper b = true
    · rw [isAlpha, isAlpha, isUpper_rotate hu hs, hu, Bool.or_true, Bool.or_true]
    · rw [rotate_of_other hl hu]

/-- **Two moves** are one move by as many places together. -/
theorem rotate_rotate_eq (hs : s.toNat ≤ 26) (ht : t.toNat ≤ 26) (hu : u.toNat ≤ 26)
    (hstu : (s.toNat + t.toNat) % 26 = u.toNat % 26) (b : UInt8) :
    rotate t (rotate s b) = rotate u b := by
  by_cases hl : isLower b = true
  · apply UInt8.toNat_inj.mp
    rw [rotate_of_lower (isLower_rotate hl hs) ht, rotate_of_lower hl hs, rotate_of_lower hl hu]
    rw [isLower_iff] at hl
    omega
  · by_cases hu' : isUpper b = true
    · apply UInt8.toNat_inj.mp
      rw [rotate_of_upper (isUpper_rotate hu' hs) ht, rotate_of_upper hu' hs,
        rotate_of_upper hu' hu]
      rw [isUpper_iff] at hu'
      omega
    · rw [rotate_of_other hl hu', rotate_of_other hl hu', rotate_of_other hl hu']

theorem rotate_zero (b : UInt8) : rotate 0 b = b := by
  by_cases hl : isLower b = true
  · apply UInt8.toNat_inj.mp
    rw [rotate_of_lower hl (by decide), UInt8.toNat_zero]
    rw [isLower_iff] at hl
    omega
  · by_cases hu : isUpper b = true
    · apply UInt8.toNat_inj.mp
      rw [rotate_of_upper hu (by decide), UInt8.toNat_zero]
      rw [isUpper_iff] at hu
      omega
    · exact rotate_of_other hl hu

/-- **Moves by 26 places together** undo each other. -/
theorem rotate_rotate (hs : s.toNat ≤ 26) (ht : t.toNat ≤ 26)
    (hst : (s.toNat + t.toNat) % 26 = 0) (b : UInt8) : rotate t (rotate s b) = b :=
  (rotate_rotate_eq (u := 0) hs ht (by decide) hst b).trans (rotate_zero b)

/-! ## Ciphers of letters -/

theorem toNat_shiftOf (shift : Int) : ((shiftOf shift).toNat : Int) = shift % 26 := by
  have hpos := Int.emod_nonneg shift (show (26 : Int) ≠ 0 by decide)
  have hlt := Int.emod_lt_of_pos shift (show (0 : Int) < 26 by decide)
  have hsmall : (shift % 26).toNat < 256 := by omega
  rw [shiftOf, Nat.toUInt8_eq, UInt8.toNat_ofNat_of_lt' hsmall]
  omega

theorem toNat_shiftOf_lt (shift : Int) : (shiftOf shift).toNat < 26 := by
  have h := toNat_shiftOf shift
  have hlt := Int.emod_lt_of_pos shift (show (0 : Int) < 26 by decide)
  omega

/-- **Shifts add up**, up to multiples of 26. -/
theorem caesar_caesar_eq {a b c : Int} (h : c % 26 = (a + b) % 26) (text : Bytes) :
    caesar b (caesar a text) = caesar c text := by
  have ha := toNat_shiftOf a
  have hb := toNat_shiftOf b
  have hc := toNat_shiftOf c
  rw [caesar, caesar, caesar, List.map_map]
  refine List.map_congr_left fun x _ => ?_
  exact rotate_rotate_eq (by omega) (by omega) (by omega) (by omega) x

theorem caesar_zero (text : Bytes) : caesar 0 text = text :=
  (List.map_congr_left fun b _ => rotate_zero b).trans text.map_id

/-- **Shifts that add up to a multiple of 26** undo each other. -/
theorem caesar_caesar {shift shift' : Int} (h : (shift + shift') % 26 = 0) (text : Bytes) :
    caesar shift' (caesar shift text) = text :=
  (caesar_caesar_eq h.symm text).trans (caesar_zero text)

theorem opposite_of_lower (hb : isLower b = true) : (oppositeLetter b).toNat = 219 - b.toNat := by
  rw [oppositeLetter, if_pos hb]
  rw [isLower_iff] at hb
  simp only [UInt8.toNat_sub, UInt8.reduceToNat]
  omega

theorem opposite_of_upper (hb : isUpper b = true) : (oppositeLetter b).toNat = 155 - b.toNat := by
  rw [oppositeLetter, if_neg (not_isLower_of_isUpper hb), if_pos hb]
  rw [isUpper_iff] at hb
  simp only [UInt8.toNat_sub, UInt8.reduceToNat]
  omega

theorem opposite_opposite (b : UInt8) : oppositeLetter (oppositeLetter b) = b := by
  by_cases hl : isLower b = true
  · have hopposite : isLower (oppositeLetter b) = true := by
      rw [isLower_iff, opposite_of_lower hl]
      rw [isLower_iff] at hl
      omega
    apply UInt8.toNat_inj.mp
    rw [opposite_of_lower hopposite, opposite_of_lower hl]
    rw [isLower_iff] at hl
    omega
  · by_cases hu : isUpper b = true
    · have hopposite : isUpper (oppositeLetter b) = true := by
        rw [isUpper_iff, opposite_of_upper hu]
        rw [isUpper_iff] at hu
        omega
      apply UInt8.toNat_inj.mp
      rw [opposite_of_upper hopposite, opposite_of_upper hu]
      rw [isUpper_iff] at hu
      omega
    · rw [oppositeLetter, oppositeLetter, if_neg hl, if_neg hu, if_neg hl, if_neg hu]

theorem atbash_atbash (text : Bytes) : atbash (atbash text) = text := by
  rw [atbash, atbash, List.map_map]
  exact (List.map_congr_left fun b _ => opposite_opposite b).trans text.map_id

theorem toNat_keyShift_lt (k : UInt8) : (keyShift k).toNat < 26 := by
  rw [keyShift, UInt8.toNat_mod]
  exact Nat.mod_lt _ (by decide)

theorem toNat_directed_decode (k : UInt8) :
    (directed .decode (keyShift k)).toNat = 26 - (keyShift k).toNat := by
  have hlt := toNat_keyShift_lt k
  rw [directed, UInt8.toNat_sub_of_le]
  · rfl
  · rw [UInt8.le_iff_toNat_le]
    exact Nat.le_of_lt hlt

theorem toNat_directed_le (direction : Direction) (k : UInt8) :
    (directed direction (keyShift k)).toNat ≤ 26 := by
  cases direction with
  | encode => exact Nat.le_of_lt (toNat_keyShift_lt k)
  | decode =>
    rw [toNat_directed_decode]
    omega

theorem rotate_keyShift (k b : UInt8) :
    rotate (directed .decode (keyShift k)) (rotate (directed .encode (keyShift k)) b) = b := by
  have hlt := toNat_keyShift_lt k
  have hdecode := toNat_directed_decode k
  refine rotate_rotate (Nat.le_of_lt hlt) (by omega) ?_ b
  rw [hdecode]
  show ((keyShift k).toNat + (26 - (keyShift k).toNat)) % 26 = 0
  omega

section Vigenere

variable {direction : Direction} {key text : Bytes} {i : Nat}

theorem vigenereFrom_cons_of_alpha (hb : isAlpha b = true) :
    vigenereFrom direction key i (b :: text) =
      rotate (directed direction (keyShift (key.getD (i % key.length) 65))) b ::
        vigenereFrom direction key (i + 1) text :=
  if_pos hb

theorem vigenereFrom_cons_of_not_alpha (hb : ¬ isAlpha b = true) :
    vigenereFrom direction key i (b :: text) = b :: vigenereFrom direction key i text :=
  if_neg hb

end Vigenere

theorem vigenereFrom_vigenereFrom (key text : Bytes) (i : Nat) :
    vigenereFrom .decode key i (vigenereFrom .encode key i text) = text := by
  induction text generalizing i with
  | nil => rfl
  | cons b text ih =>
    by_cases hb : isAlpha b = true
    · have hmoved := (isAlpha_rotate (toNat_directed_le .encode (key.getD (i % key.length) 65))
        (b := b)).trans hb
      rw [vigenereFrom_cons_of_alpha hb, vigenereFrom_cons_of_alpha hmoved, ih, rotate_keyShift]
    · rw [vigenereFrom_cons_of_not_alpha hb, vigenereFrom_cons_of_not_alpha hb, ih]

theorem vigenere_vigenere (key text : Bytes) :
    vigenere .decode key (vigenere .encode key text) = text := by
  unfold vigenere
  split
  · rfl
  · exact vigenereFrom_vigenereFrom key text 0

/-! ## Masks -/

theorem mask_mask (key text : Bytes) : mask key (mask key text) = text := by
  unfold mask
  split
  · rfl
  · rw [List.mapIdx_mapIdx]
    refine List.ext_getElem (by simp) fun i h₁ h₂ => ?_
    rw [List.getElem_mapIdx]
    show (text[i] ^^^ _) ^^^ _ = text[i]
    rw [UInt8.xor_assoc, UInt8.xor_self, UInt8.xor_zero]

end Bytework.Cipher
