import Bytework.Proofs.Cipher.RoundTrip
import Mathlib.Data.List.Nodup

/-!
# Codes of symbols, read back

What a code has symbols for is read back with its letters in upper case, in the same order and with
every space in its place; all else is gone.

* `letterAt_letterIndex`, `letterIndex_letterAt`: letters and their places in the alphabet.
* `Bacon.decode_group`, **`Bacon.decode_encode`**: five symbols are read as one letter.
* `Morse.decode_intercalate`, `Morse.ofToken_of_token?`: tokens are found again between spaces, and are
  told apart; **`Morse.decode_encode`**: a text of tokens.
* **`decode_encode_legible`**: both codes at work, whatever the other parameters.
-/

namespace Bytework.Cipher

variable {b : UInt8} {i : Nat} {text : Bytes}

/-! ## Letters and their places -/

theorem upperByte_bounds (h : isAlpha b = true) :
    65 ≤ (upperByte b).toNat ∧ (upperByte b).toNat ≤ 90 := by
  rw [isAlpha, Bool.or_eq_true, isLower_iff, isUpper_iff] at h
  rw [toNat_upperByte]
  split <;> omega

theorem letterIndex_eq (h : isAlpha b = true) : letterIndex b = (upperByte b).toNat - 65 := by
  obtain ⟨hlow, -⟩ := upperByte_bounds h
  rw [letterIndex, UInt8.toNat_sub_of_le]
  · rfl
  · rw [UInt8.le_iff_toNat_le]
    exact hlow

theorem letterIndex_lt (h : isAlpha b = true) : letterIndex b < 26 := by
  obtain ⟨hlow, hhigh⟩ := upperByte_bounds h
  rw [letterIndex_eq h]
  omega

theorem toNat_letterAt (h : i < 26) : (letterAt i).toNat = 65 + i := by
  rw [letterAt, UInt8.toNat_add, Nat.toUInt8_eq, UInt8.toNat_ofNat', show (65 : UInt8).toNat = 65 from rfl]
  omega

theorem letterAt_letterIndex (h : isAlpha b = true) : letterAt (letterIndex b) = upperByte b := by
  obtain ⟨hlow, -⟩ := upperByte_bounds h
  apply UInt8.toNat_inj.mp
  rw [toNat_letterAt (letterIndex_lt h), letterIndex_eq h]
  omega

theorem isAlpha_letterAt (h : i < 26) : isAlpha (letterAt i) = true := by
  have hupper : isUpper (letterAt i) = true := by
    rw [isUpper_iff, toNat_letterAt h]
    omega
  rw [isAlpha, hupper, Bool.or_true]

theorem letterIndex_letterAt (h : i < 26) : letterIndex (letterAt i) = i := by
  have hupper : upperByte (letterAt i) = letterAt i := by
    rw [upperByte, if_neg]
    rw [isLower_iff, toNat_letterAt h]
    omega
  rw [letterIndex_eq (isAlpha_letterAt h), hupper, toNat_letterAt h]
  omega

/-! ## Groups of five -/

namespace Bacon

theorem letter_digits : ∀ i < 26,
    letter ([4, 3, 2, 1, 0].map fun k => if i.testBit k then byte 'B' else byte 'A') = letterAt i := by
  decide

theorem ne_space_of_digit (d : Bool) : (if d then byte 'B' else byte 'A') ≠ space := by
  cases d <;> decide

theorem decode_group (h : isAlpha b = true) (rest : Bytes) :
    decode (group b ++ rest) = upperByte b :: decode rest := by
  have hletter := letter_digits _ (letterIndex_lt h)
  rw [letterAt_letterIndex h] at hletter
  simp only [group, List.map_cons, List.map_nil, List.cons_append, List.nil_append] at hletter ⊢
  rw [decode, if_neg (ne_space_of_digit _)]
  exact congrArg (· :: decode rest) hletter

theorem decode_space (rest : Bytes) : decode (space :: rest) = space :: decode rest := by
  rw [decode.eq_def]
  exact if_pos rfl

/-- **What the groups keep**: letters, in upper case, and spaces. -/
theorem decode_encode (text : Bytes) : decode (encode text) =
    Bytes.upper (text.filter fun b => isAlpha b || b == space) := by
  unfold encode
  induction text with
  | nil => rfl
  | cons b text ih =>
    rw [List.flatMap_cons]
    by_cases halpha : isAlpha b = true
    · rw [if_pos halpha, decode_group halpha, ih, List.filter_cons_of_pos (by simp [halpha])]
      rfl
    · rw [if_neg halpha]
      by_cases hspace : b = space
      · subst hspace
        rw [if_pos rfl, List.singleton_append, decode_space, ih,
          List.filter_cons_of_pos (by simp)]
        rfl
      · rw [if_neg hspace, List.nil_append, ih, List.filter_cons_of_neg (by simp [halpha, hspace])]

end Bacon

/-! ## Tokens -/

namespace Morse

variable {token : Bytes} {tokens : List Bytes}

/-- Tokens without white space are found again between spaces. -/
theorem splitOnP_intercalate (hne : tokens ≠ [])
    (h : ∀ token ∈ tokens, ∀ b ∈ token, isBlank b = false) :
    (List.intercalate [space] tokens).splitOnP isBlank = tokens := by
  induction tokens with
  | nil => exact absurd rfl hne
  | cons token tokens ih =>
    obtain ⟨htoken, hrest⟩ := List.forall_mem_cons.mp h
    cases tokens with
    | nil => rw [List.intercalate_singleton, List.splitOnP_eq_singleton htoken]
    | cons next tokens =>
      rw [List.intercalate_cons_cons, List.append_assoc, List.singleton_append,
        List.splitOnP_append_cons_of_forall_mem htoken space (by decide),
        ih (List.cons_ne_nil _ _) hrest]

theorem decode_intercalate
    (h : ∀ token ∈ tokens, token ≠ [] ∧ ∀ b ∈ token, isBlank b = false) :
    decode (List.intercalate [space] tokens) = tokens.map ofToken := by
  by_cases hne : tokens = []
  · subst hne
    rfl
  · have hall : tokens.filter (!·.isEmpty) = tokens :=
      List.filter_eq_self.mpr fun token htoken => by simp [(h token htoken).1]
    rw [decode, splitOnP_intercalate hne fun token htoken => (h token htoken).2, hall]

theorem nodup_codes : codes.Nodup := by
  decide

theorem wordBreak_notMem_codes : wordBreak ∉ codes := by
  decide

theorem plain_of_mem : ∀ token ∈ wordBreak :: codes, token ≠ [] ∧ ∀ b ∈ token, isBlank b = false := by
  have h : (wordBreak :: codes).all fun token => token ≠ [] && !token.any isBlank := by decide
  simpa using h

theorem ofToken_of_codes (h : codes[i]? = some token) :
    ofToken token = if i < 26 then letterAt i else 48 + (i - 26).toUInt8 := by
  obtain ⟨hi, rfl⟩ := List.getElem?_eq_some_iff.mp h
  have hword : codes[i] ≠ wordBreak := fun hword =>
    wordBreak_notMem_codes (hword ▸ List.getElem_mem hi)
  have hindex : codes.idxOf? codes[i] = some i :=
    List.idxOf?_eq_some_iff.mpr ⟨hi, rfl, fun j hj heq =>
      Nat.ne_of_lt hj (List.Nodup.getElem_inj_iff nodup_codes |>.mp heq)⟩
  rw [ofToken, if_neg hword, hindex]

/-- A token is read as its byte, a letter in upper case. -/
theorem ofToken_of_token? (h : token? b = some token) :
    token ∈ wordBreak :: codes ∧ ofToken token = upperByte b := by
  unfold token? at h
  split_ifs at h with halpha hdigit hspace
  · refine ⟨List.mem_cons_of_mem _ (List.mem_of_getElem? h), ?_⟩
    rw [ofToken_of_codes h, if_pos (letterIndex_lt halpha), letterAt_letterIndex halpha]
  · have hlower : ¬ isLower b = true := fun hl => halpha (by rw [isAlpha, hl, Bool.true_or])
    refine ⟨List.mem_cons_of_mem _ (List.mem_of_getElem? h), ?_⟩
    -- the codes of the digits stand behind those of the letters
    rw [ofToken_of_codes h, if_neg (by omega), Nat.add_sub_cancel_left, Nat.toUInt8_eq,
      UInt8.ofNat_toNat, UInt8.add_comm, UInt8.sub_add_cancel, upperByte, if_neg hlower]
  · cases h
    subst hspace
    exact ⟨List.mem_cons_self, by decide⟩

theorem digitIndex_lt (h : isDigit b = true) : (b - 48).toNat < 10 := by
  rw [isDigit, Bool.and_eq_true, decide_eq_true_eq, decide_eq_true_eq, UInt8.le_iff_toNat_le,
    UInt8.le_iff_toNat_le] at h
  rw [UInt8.toNat_sub_of_le _ _ (UInt8.le_iff_toNat_le.mpr h.1)]
  exact Nat.sub_lt_left_of_lt_add h.1 (Nat.lt_succ_of_le h.2)

/-- What has a token. -/
theorem isSome_token? (b : UInt8) : (token? b).isSome = (isAlnum b || b == space) := by
  unfold token? isAlnum
  by_cases halpha : isAlpha b = true
  · have hi : letterIndex b < codes.length := Nat.lt_trans (letterIndex_lt halpha) (by decide)
    rw [if_pos halpha, List.getElem?_eq_getElem hi, halpha]
    rfl
  · rw [if_neg halpha, Bool.eq_false_iff.mpr halpha, Bool.false_or]
    by_cases hdigit : isDigit b = true
    · have hi : 26 + (b - 48).toNat < codes.length := Nat.add_lt_add_left (digitIndex_lt hdigit) 26
      rw [if_pos hdigit, List.getElem?_eq_getElem hi, hdigit]
      rfl
    · rw [if_neg hdigit, Bool.eq_false_iff.mpr hdigit, Bool.false_or]
      by_cases hspace : b = space <;> simp [hspace]

/-- **What the tokens keep**: letters, in upper case, digits and spaces. -/
theorem decode_encode (text : Bytes) : decode (encode text) =
    Bytes.upper (text.filter fun b => isAlnum b || b == space) := by
  have hplain : ∀ token ∈ text.filterMap token?, token ≠ [] ∧ ∀ b ∈ token, isBlank b = false := by
    intro token htoken
    obtain ⟨b, -, hb⟩ := List.mem_filterMap.mp htoken
    exact plain_of_mem token (ofToken_of_token? hb).1
  rw [encode, decode_intercalate hplain]
  clear hplain
  induction text with
  | nil => rfl
  | cons b text ih =>
    have hsome := isSome_token? b
    cases htoken : token? b with
    | none =>
      rw [htoken] at hsome
      rw [List.filterMap_cons_none htoken, List.filter_cons_of_neg (by simp [← hsome]), ih]
    | some token =>
      rw [htoken] at hsome
      rw [List.filterMap_cons_some htoken, List.filter_cons_of_pos (by simp [← hsome]), List.map_cons,
        (ofToken_of_token? htoken).2, ih]
      rfl

end Morse

/-! ## At work -/

/-- **What the codes of symbols keep**, whatever the other parameters, the encoded form reversed or
not: tokens keep letters, in upper case, digits and every space; groups of five keep letters, in upper
case, and every space. -/
theorem decode_encode_legible (spec : Spec) (text : Bytes) :
    { spec with codec := .morse }.decode ({ spec with codec := .morse }.encode text) =
      .ok (Bytes.upper (text.filter fun b => isAlnum b || b == space)) ∧
    { spec with codec := .baconian }.decode ({ spec with codec := .baconian }.encode text) =
      .ok (Bytes.upper (text.filter fun b => isAlpha b || b == space)) :=
  ⟨Spec.decode_encode_of_forward (congrArg Except.ok (Morse.decode_encode text)),
    Spec.decode_encode_of_forward (congrArg Except.ok (Bacon.decode_encode text))⟩

end Bytework.Cipher
