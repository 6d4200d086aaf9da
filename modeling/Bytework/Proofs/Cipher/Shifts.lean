import Bytework.Proofs.Cipher.Legible

/-!
# Shifts of letters

What the ciphers that move letters along the alphabet do to a text, whatever the shift or the key.

* `vigenereFrom_filter`: only letters use up the key; the place in the key is carried along the text.
* `vigenereFrom_of_same`, `vigenereFrom_complement`: keys of one letter, and keys of opposite shifts.
* `Checked`: the same ciphers with every sum and difference of bytes checked; **`Checked.caesar?_eq`**,
  **`Checked.vigenere?_eq`**: no check fails.
* **`shift_laws`**: how shifts compose and what a key does.
-/

namespace Bytework.Cipher

variable {b c k : UInt8} {i : Nat} {direction : Direction} {key : Bytes}

/-! ## Letters of a key -/

/-- The letter whose place is as far before the first letter as the given one's is behind it, going
round the alphabet. -/
def complementLetter (k : UInt8) : UInt8 := letterAt ((26 - letterIndex k) % 26)

theorem toNat_keyShift (hk : isAlpha k = true) : (keyShift k).toNat = letterIndex k := by
  rw [keyShift, UInt8.toNat_mod]
  exact Nat.mod_eq_of_lt (letterIndex_lt hk)

theorem keyShift_eq_of_upper (h : upperByte b = upperByte c) : keyShift b = keyShift c := by
  rw [keyShift, keyShift, h]

theorem toNat_keyShift_complement (k : UInt8) :
    (keyShift (complementLetter k)).toNat = (26 - letterIndex k) % 26 := by
  have hlt : (26 - letterIndex k) % 26 < 26 := Nat.mod_lt _ (by decide)
  rw [complementLetter, toNat_keyShift (isAlpha_letterAt hlt), letterIndex_letterAt hlt]

theorem rotate_congr {s t : UInt8} (hs : s.toNat ≤ 26) (ht : t.toNat ≤ 26)
    (hst : s.toNat % 26 = t.toNat % 26) (b : UInt8) : rotate s b = rotate t b := by
  have hmoves := rotate_rotate_eq (s := 0) (by decide) hs ht (by rwa [UInt8.toNat_zero, Nat.zero_add]) b
  rwa [rotate_zero] at hmoves

theorem rotate_complement (hk : isAlpha k = true) (b : UInt8) :
    rotate (directed .decode (keyShift k)) b =
      rotate (directed .encode (keyShift (complementLetter k))) b := by
  refine rotate_congr (toNat_directed_le _ _) (toNat_directed_le _ _) ?_ b
  show _ = (keyShift (complementLetter k)).toNat % 26
  rw [toNat_directed_decode, toNat_keyShift_complement k, toNat_keyShift hk]
  omega

/-! ## The key along a text -/

/-- A byte in the place of another: a letter of the same case for a letter, and the same byte for any
other. -/
structure InPlace (b c : UInt8) : Prop where
  lower : isLower c = isLower b
  upper : isUpper c = isUpper b
  other : isAlpha b = false → c = b

theorem inPlace_rotate {s : UInt8} (hs : s.toNat ≤ 26) (b : UInt8) : InPlace b (rotate s b) := by
  by_cases hl : isLower b = true
  · have hlower := isLower_rotate hl hs
    refine ⟨hlower.trans hl.symm, ?_, fun h => by rw [isAlpha, hl] at h; cases h⟩
    have hupper : ∀ {a : UInt8}, isLower a = true → isUpper a = false := fun ha =>
      Bool.eq_false_iff.mpr fun hu => not_isLower_of_isUpper hu ha
    rw [hupper hlower, hupper hl]
  · by_cases hu : isUpper b = true
    · have hupper := isUpper_rotate hu hs
      have hlower : isLower (rotate s b) = false :=
        Bool.eq_false_iff.mpr (not_isLower_of_isUpper hupper)
      refine ⟨hlower.trans (Bool.eq_false_iff.mpr hl).symm, hupper.trans hu.symm, fun h => ?_⟩
      rw [isAlpha, hu, Bool.or_true] at h
      cases h
    · rw [rotate_of_other hl hu]
      exact ⟨rfl, rfl, fun _ => rfl⟩

/-- Every letter is moved within its case, and all else stays in place. -/
theorem forall₂_vigenereFrom (direction : Direction) (key : Bytes) (i : Nat) (text : Bytes) :
    List.Forall₂ InPlace text (vigenereFrom direction key i text) := by
  induction text generalizing i with
  | nil => exact .nil
  | cons b text ih =>
    by_cases hb : isAlpha b = true
    · rw [vigenereFrom_cons_of_alpha hb]
      exact .cons (inPlace_rotate (toNat_directed_le _ _) b) (ih (i + 1))
    · rw [vigenereFrom_cons_of_not_alpha hb]
      exact .cons ⟨rfl, rfl, fun _ => rfl⟩ (ih i)

/-- **Only letters use up the key**: the letters of the result are the result on the letters. -/
theorem vigenereFrom_filter (direction : Direction) (key : Bytes) (i : Nat) (text : Bytes) :
    (vigenereFrom direction key i text).filter isAlpha =
      vigenereFrom direction key i (text.filter isAlpha) := by
  induction text generalizing i with
  | nil => rfl
  | cons b text ih =>
    by_cases hb : isAlpha b = true
    · have hmoved := (isAlpha_rotate (toNat_directed_le direction (key.getD (i % key.length) 65))
        (b := b)).trans hb
      rw [vigenereFrom_cons_of_alpha hb, List.filter_cons_of_pos hmoved, List.filter_cons_of_pos hb,
        vigenereFrom_cons_of_alpha hb, ih]
    · rw [vigenereFrom_cons_of_not_alpha hb, List.filter_cons_of_neg hb, List.filter_cons_of_neg hb,
        ih]

theorem getD_mem_key (hkey : key ≠ []) (i : Nat) : key.getD (i % key.length) 65 ∈ key := by
  have hlt : i % key.length < key.length := Nat.mod_lt _ (List.length_pos_iff.mpr hkey)
  rw [← List.getElem_eq_getD 65 (h := hlt)]
  exact List.getElem_mem hlt

/-- A key whose letters are all the same, in either case, moves every letter by the same amount. -/
theorem vigenereFrom_of_same (hkey : key ≠ []) (hsame : ∀ b ∈ key, upperByte b = upperByte k)
    (direction : Direction) (i : Nat) (text : Bytes) :
    vigenereFrom direction key i text = text.map (rotate (directed direction (keyShift k))) := by
  induction text generalizing i with
  | nil => rfl
  | cons b text ih =>
    rw [List.map_cons]
    by_cases hb : isAlpha b = true
    · rw [vigenereFrom_cons_of_alpha hb, keyShift_eq_of_upper (hsame _ (getD_mem_key hkey i)), ih]
    · rw [vigenereFrom_cons_of_not_alpha hb]
      rw [isAlpha, Bool.or_eq_true, not_or] at hb
      rw [rotate_of_other hb.1 hb.2, ih]

/-- The shift by the place of a letter, forwards or backwards. -/
def shiftBy (direction : Direction) (k : UInt8) : Int :=
  match direction with
  | .encode => letterIndex k
  | .decode => -letterIndex k

theorem map_rotate_directed (hk : isAlpha k = true) (direction : Direction) (text : Bytes) :
    text.map (rotate (directed direction (keyShift k))) = caesar (shiftBy direction k) text := by
  rw [caesar]
  refine List.map_congr_left fun b _ => ?_
  have hshift := toNat_shiftOf (shiftBy direction k)
  refine rotate_congr (toNat_directed_le _ _) (Nat.le_of_lt (toNat_shiftOf_lt _)) ?_ b
  cases direction with
  | encode =>
    show (keyShift k).toNat % 26 = _
    rw [toNat_keyShift hk]
    rw [shiftBy] at hshift ⊢
    omega
  | decode =>
    rw [toNat_directed_decode, toNat_keyShift hk]
    have hlt := letterIndex_lt hk
    rw [shiftBy] at hshift ⊢
    omega

/-- Deciphering by a key is enciphering by the key of complementary letters, from any place of it. -/
theorem vigenereFrom_complement (hkey : key ≠ []) (hletters : ∀ k ∈ key, isAlpha k = true)
    (i : Nat) (text : Bytes) :
    vigenereFrom .decode key i text = vigenereFrom .encode (key.map complementLetter) i text := by
  induction text generalizing i with
  | nil => rfl
  | cons b text ih =>
    by_cases hb : isAlpha b = true
    · have hlt : i % key.length < key.length := Nat.mod_lt _ (List.length_pos_iff.mpr hkey)
      have hget : (key.map complementLetter).getD (i % (key.map complementLetter).length) 65 =
          complementLetter (key.getD (i % key.length) 65) := by
        rw [List.length_map, ← List.getElem_eq_getD 65 (h := hlt),
          ← List.getElem_eq_getD 65 (h := by rwa [List.length_map]), List.getElem_map]
      rw [vigenereFrom_cons_of_alpha hb, vigenereFrom_cons_of_alpha hb, hget,
        rotate_complement (hletters _ (getD_mem_key hkey i)), ih]
    · rw [vigenereFrom_cons_of_not_alpha hb, vigenereFrom_cons_of_not_alpha hb, ih]

/-! ## Sums of bytes -/

namespace Checked

/-- A sum of bytes that is a byte. -/
def add? (a b : UInt8) : Option UInt8 := if a.toNat + b.toNat ≤ 255 then some (a + b) else none

/-- A difference of bytes that is not negative. -/
def sub? (a b : UInt8) : Option UInt8 := if b.toNat ≤ a.toNat then some (a - b) else none

/-- A letter of the alphabet that starts at `base`, moved along. -/
def move? (base shift b : UInt8) : Option UInt8 := do
  let place ← sub? b base
  let moved ← add? place shift
  add? base (moved % 26)

/-- `rotate`, unless a sum or a difference leaves the bytes. -/
def rotate? (shift b : UInt8) : Option UInt8 :=
  if isLower b then move? 97 shift b
  else if isUpper b then move? 65 shift b
  else some b

/-- `caesar`, unless a sum or a difference leaves the bytes. -/
def caesar? (shift : Int) (text : Bytes) : Option Bytes := text.mapM (rotate? (shiftOf shift))

/-- `directed`, unless the difference is negative. -/
def directed? (direction : Direction) (shift : UInt8) : Option UInt8 :=
  match direction with
  | .encode => some shift
  | .decode => sub? 26 shift

/-- `vigenereFrom`, unless a sum or a difference leaves the bytes. -/
def vigenereFrom? (direction : Direction) (key : Bytes) : Nat → Bytes → Option Bytes
  | _, [] => some []
  | i, b :: text =>
    if isAlpha b then do
      let shift ← directed? direction (keyShift (key.getD (i % key.length) 65))
      let c ← rotate? shift b
      let rest ← vigenereFrom? direction key (i + 1) text
      return c :: rest
    else do
      let rest ← vigenereFrom? direction key i text
      return b :: rest

/-- `vigenere`, unless a sum or a difference leaves the bytes. -/
def vigenere? (direction : Direction) (key text : Bytes) : Option Bytes :=
  if key.isEmpty then some text else vigenereFrom? direction key 0 text

variable {base shift : UInt8}

theorem move?_eq (hbase : base.toNat ≤ 97) (hb : base.toNat ≤ b.toNat ∧ b.toNat ≤ base.toNat + 25)
    (hshift : shift.toNat ≤ 26) : move? base shift b = some (base + (b - base + shift) % 26) := by
  have hplace : (b - base).toNat = b.toNat - base.toNat :=
    UInt8.toNat_sub_of_le b base (UInt8.le_iff_toNat_le.mpr hb.1)
  have hmoved : ((b - base + shift) % 26).toNat < 26 := by
    rw [UInt8.toNat_mod]
    exact Nat.mod_lt _ (by decide)
  rw [move?, sub?, if_pos hb.1, Option.bind_eq_bind, Option.bind_some, add?, if_pos (by omega),
    Option.bind_some, add?, if_pos (by omega)]

theorem rotate?_eq (hshift : shift.toNat ≤ 26) (b : UInt8) :
    rotate? shift b = some (rotate shift b) := by
  rw [rotate?, rotate]
  split
  · rename_i hl
    exact move?_eq (Nat.le_refl 97) (isLower_iff.mp hl) hshift
  · split
    · rename_i hu
      exact move?_eq (by decide) (isUpper_iff.mp hu) hshift
    · rfl

/-- **Moving every letter by the same amount** never leaves the bytes. -/
theorem caesar?_eq (shift : Int) (text : Bytes) : caesar? shift text = some (caesar shift text) := by
  rw [caesar?, caesar]
  induction text with
  | nil => rfl
  | cons b text ih =>
    rw [List.mapM_cons, rotate?_eq (Nat.le_of_lt (toNat_shiftOf_lt shift)), ih]
    rfl

theorem directed?_eq (direction : Direction) (k : UInt8) :
    directed? direction (keyShift k) = some (directed direction (keyShift k)) := by
  cases direction with
  | encode => rfl
  | decode => exact if_pos (Nat.le_of_lt (toNat_keyShift_lt k))

theorem vigenereFrom?_eq (direction : Direction) (key : Bytes) (i : Nat) (text : Bytes) :
    vigenereFrom? direction key i text = some (vigenereFrom direction key i text) := by
  induction text generalizing i with
  | nil => rfl
  | cons b text ih =>
    rw [vigenereFrom?, vigenereFrom]
    split
    · rw [directed?_eq, Option.bind_eq_bind, Option.bind_some,
        rotate?_eq (toNat_directed_le direction _), Option.bind_eq_bind, Option.bind_some, ih]
      rfl
    · rw [ih]
      rfl

/-- **Moving letters by a key** never leaves the bytes. -/
theorem vigenere?_eq (direction : Direction) (key text : Bytes) :
    vigenere? direction key text = some (vigenere direction key text) := by
  rw [vigenere?, vigenere]
  split
  · rfl
  · exact vigenereFrom?_eq direction key 0 text

end Checked

/-! ## The ciphers -/

/-- **How shifts compose and what a key does.** Shifts add up, up to multiples of 26. A key of letters
of either case moves letters within their case and leaves all else in place; the letters come out as if
they stood alone; a key of one letter, however often, is the shift by its place; deciphering is
enciphering by the complementary letters. No sum of bytes on the way exceeds 255, and no difference is
negative. -/
theorem shift_laws (text : Bytes) :
    (∀ a b c : Int, c % 26 = (a + b) % 26 → caesar b (caesar a text) = caesar c text) ∧
    (∀ key : Bytes, key ≠ [] → (∀ k ∈ key, isAlpha k = true) →
      (∀ direction, List.Forall₂ InPlace text (vigenere direction key text) ∧
        (vigenere direction key text).filter isAlpha =
          vigenere direction key (text.filter isAlpha) ∧
        ∀ k ∈ key, (∀ b ∈ key, upperByte b = upperByte k) →
          vigenere direction key text = caesar (shiftBy direction k) text) ∧
      vigenere .decode key text = vigenere .encode (key.map complementLetter) text) ∧
    (∀ shift, Checked.caesar? shift text = some (caesar shift text)) ∧
    ∀ direction key, Checked.vigenere? direction key text = some (vigenere direction key text) := by
  refine ⟨fun a b c h => caesar_caesar_eq h text, fun key hkey hletters => ?_,
    fun shift => Checked.caesar?_eq shift text,
    fun direction key => Checked.vigenere?_eq direction key text⟩
  have hfrom : ∀ {key : Bytes}, key ≠ [] → ∀ direction text,
      vigenere direction key text = vigenereFrom direction key 0 text := fun h _ _ =>
    if_neg (by simpa using h)
  refine ⟨fun direction => ⟨?_, ?_, fun k hk hsame => ?_⟩, ?_⟩
  · rw [hfrom hkey]
    exact forall₂_vigenereFrom direction key 0 text
  · rw [hfrom hkey, hfrom hkey]
    exact vigenereFrom_filter direction key 0 text
  · rw [hfrom hkey, vigenereFrom_of_same hkey hsame, map_rotate_directed (hletters k hk)]
  · rw [hfrom hkey, hfrom (by simpa using hkey)]
    exact vigenereFrom_complement hkey hletters 0 text

theorem shift_laws_limits :
    (-1 : Int) % 26 = (-2147483648 + 2147483647) % 26 ∧
      caesar 2147483647 (caesar (-2147483648) (ascii "Az, z")) = caesar (-1) (ascii "Az, z") ∧
      ascii "bB" ≠ [] ∧ (∀ k ∈ ascii "bB", isAlpha k = true) ∧ byte 'b' ∈ ascii "bB" ∧
      (∀ b ∈ ascii "bB", upperByte b = upperByte (byte 'b')) ∧
      vigenere .encode (ascii "bB") (ascii "Az, z") = caesar 1 (ascii "Az, z") ∧
      vigenere .decode (ascii "bB") (ascii "Az, z") =
        vigenere .encode (ascii "ZZ") (ascii "Az, z") := by
  have hsum : (-1 : Int) % 26 = (-2147483648 + 2147483647) % 26 := by decide
  have hne : ascii "bB" ≠ [] := by decide
  have hletters : ∀ k ∈ ascii "bB", isAlpha k = true := List.all_eq_true.mp (by decide)
  have hmem : byte 'b' ∈ ascii "bB" := by decide
  have hall : (ascii "bB").all fun b => upperByte b == upperByte (byte 'b') := by decide
  have hsame : ∀ b ∈ ascii "bB", upperByte b = upperByte (byte 'b') := fun b hb =>
    beq_iff_eq.mp (List.all_eq_true.mp hall b hb)
  obtain ⟨hcaesar, hvigenere, -⟩ := shift_laws (ascii "Az, z")
  obtain ⟨hkey, hcomplement⟩ := hvigenere (ascii "bB") hne hletters
  have hshift : shiftBy .encode (byte 'b') = 1 := by decide
  have hmap : (ascii "bB").map complementLetter = ascii "ZZ" := by decide
  have hone := (hkey .encode).2.2 _ hmem hsame
  rw [hshift] at hone
  rw [hmap] at hcomplement
  exact ⟨hsum, hcaesar _ _ _ hsum, hne, hletters, hmem, hsame, hone, hcomplement⟩

/-- Letters use up the key, spaces do not. -/
example : vigenere .encode (ascii "LEMON") (ascii "ATTACK AT DAWN") = ascii "LXFOPV EF RNHR" := by decide

end Bytework.Cipher
