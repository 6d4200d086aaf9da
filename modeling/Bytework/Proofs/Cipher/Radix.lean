import Bytework.Proofs.Bytes.Search
import Bytework.Proofs.Cipher.Spelled

/-!
# Positional encodings, read back

**`Radix.decode_encode`**, `Binary.decode_encode`, `Hex.decode_encode`: what each encoding writes is
read back.
-/

namespace Bytework.Cipher

/-- **What a padded encoding writes is read back**, whatever the width of the lines. -/
theorem Radix.decode_encode {R : Radix} (hR : R.Lawful) (width : Nat) (data : Bytes) :
    R.decode (R.encode width data) = .ok data := by
  obtain ⟨values, k, hpadded, hcarries, -⟩ := exists_padded hR data
  rw [decode, encode, valuesFrom_wrap, hpadded, valuesFrom_symbols hR hcarries.lt]
  exact hcarries.decodeValues_eq hR

/-! ## Binary digits -/

namespace Binary

/-- The digit of a bit. -/
def bitDigit (d : Bool) : UInt8 := if d then byte '1' else byte '0'

theorem bitDigit_eq (d : Bool) : bitDigit d = byte '0' ∨ bitDigit d = byte '1' := by
  cases d with
  | false => exact Or.inl rfl
  | true => exact Or.inr rfl

theorem mapM_digit? (bits : List Bool) : (bits.map bitDigit).mapM digit? = some bits := by
  have hdigit : ∀ d, digit? (bitDigit d) = some d := by decide
  induction bits with
  | nil => rfl
  | cons d bits ih => rw [List.map_cons, List.mapM_cons, hdigit, ih]; rfl

theorem flatten_digits (data : Bytes) :
    (data.map digits).flatten = (bitsOfBytes data).map bitDigit := by
  rw [bitsOfBytes, List.map_flatMap, List.flatMap_def]
  rfl

theorem digits_apart {separator : Bytes} (h₀ : byte '0' ∉ separator) (h₁ : byte '1' ∉ separator)
    (data : Bytes) : ∀ piece ∈ data.map digits, ∀ b ∈ separator, b ∉ piece := by
  intro piece hpiece b hb hmem
  obtain ⟨a, -, rfl⟩ := List.mem_map.mp hpiece
  obtain ⟨d, -, rfl⟩ := List.mem_map.mp hmem
  rcases bitDigit_eq d with hd | hd
  · exact h₀ (hd ▸ hb)
  · exact h₁ (hd ▸ hb)

/-- What is left without the separators is read as the bytes whose digits it is. -/
theorem decode_eq_ok {separator text data : Bytes}
    (h : Bytes.replaceAll text separator [] = (bitsOfBytes data).map bitDigit) :
    decode separator text = .ok data := by
  have hbytes := bytesOfBits_bitsOfBytes data (show [].length < 8 by decide)
  rw [List.append_nil] at hbytes
  rw [decode, h]
  show (if _ then _ else _) = _
  rw [if_neg, mapM_digit?]
  · exact congrArg Except.ok hbytes
  · rw [List.length_map, length_bitsOfBytes, Nat.mul_mod_left]
    exact fun h => h rfl

/-- **Binary digits are read back**, if the separator has none. -/
theorem decode_encode {separator : Bytes} (h₀ : byte '0' ∉ separator) (h₁ : byte '1' ∉ separator)
    (data : Bytes) : decode separator (encode separator data) = .ok data := by
  refine decode_eq_ok ?_
  rw [encode, Bytes.replaceAll_intercalate (digits_apart h₀ h₁ data), flatten_digits]

end Binary

/-! ## Hexadecimal digits -/

namespace Hex

theorem value?_digit : ∀ n < 16, value? (digit n) = some n := by decide

theorem pairs_encode (data : Bytes) : pairs (encode data) = .ok data := by
  induction data with
  | nil => rfl
  | cons b data ih =>
    have hlt := b.toNat_lt
    have hhigh := value?_digit (b.toNat / 16) (by omega)
    have hlow := value?_digit (b.toNat % 16) (by omega)
    have hb : (16 * (b.toNat / 16) + b.toNat % 16).toUInt8 = b := by
      rw [Nat.div_add_mod, Nat.toUInt8_eq, UInt8.ofNat_toNat]
    rw [encode] at ih ⊢
    rw [List.flatMap_cons, List.cons_append, List.cons_append, List.nil_append, pairs, hhigh, hlow,
      ih]
    exact congrArg (fun b => Except.ok (b :: data)) hb

theorem length_encode (data : Bytes) : (encode data).length = 2 * data.length := by
  induction data with
  | nil => rfl
  | cons b data ih =>
    rw [encode] at ih ⊢
    rw [List.flatMap_cons, List.length_append, ih]
    show 2 + 2 * data.length = 2 * (data.length + 1)
    omega

/-- **Hexadecimal digits are read back.** -/
theorem decode_encode (data : Bytes) : decode (encode data) = .ok data := by
  rw [decode, length_encode, Nat.mul_mod_right, if_neg (fun h => h rfl), pairs_encode]

end Hex

end Bytework.Cipher
