import Bytework.Proofs.Cipher.Radix
import Mathlib.Data.Set.List

/-!
# Binary digits between separators

Reading takes every separator out before it counts digits, so it does not see where they stand.

* `Binary.IsDigit`, `Binary.IsGroup`: a binary digit, and the eight digits of a byte.
* `Binary.decode_eq_ok_iff`: what is read has the digits that are left without the separators.
* **`Binary.decode_pieces`**: the texts that are read, and those among them that are written for what
  is read.
* `Binary.decode_misplaced`: a separator between the digits of one byte.
-/

namespace Bytework.Cipher.Binary

variable {separator text piece data : Bytes} {b : UInt8} {bits : List Bool}

/-- A binary digit. -/
def IsDigit (b : UInt8) : Prop := b = byte '0' ∨ b = byte '1'

/-- The eight binary digits of a byte. -/
def IsGroup (piece : Bytes) : Prop := piece.length = 8 ∧ ∀ b ∈ piece, IsDigit b

instance : DecidablePred IsDigit := fun _ => inferInstanceAs (Decidable (_ ∨ _))

instance : DecidablePred IsGroup := fun piece =>
  -- the bytes of the piece are looked at, not all bytes there are
  haveI : Decidable (∀ b ∈ piece, IsDigit b) := List.decidableBAll IsDigit piece
  inferInstanceAs (Decidable (_ ∧ _))

/-! ## Digits and bits -/

theorem digit?_eq_some_iff {d : Bool} : digit? b = some d ↔ b = bitDigit d := by
  constructor
  · intro h
    unfold digit? at h
    split_ifs at h with h0 h1
    · cases h
      exact h0
    · cases h
      exact h1
  · rintro rfl
    cases d <;> rfl

theorem mapM_digit?_eq_some_iff : text.mapM digit? = some bits ↔ text = bits.map bitDigit := by
  constructor
  · intro h
    induction text generalizing bits with
    | nil =>
      cases h
      rfl
    | cons b text ih =>
      rw [List.mapM_cons] at h
      obtain ⟨d, hd, h⟩ := Option.bind_eq_some_iff.mp h
      obtain ⟨rest, hrest, h⟩ := Option.bind_eq_some_iff.mp h
      cases h
      rw [List.map_cons, ← ih hrest, digit?_eq_some_iff.mp hd]
  · rintro rfl
    exact mapM_digit? bits

theorem isDigit_iff : IsDigit b ↔ b ∈ Set.range bitDigit := by
  constructor
  · rintro (rfl | rfl)
    · exact ⟨false, rfl⟩
    · exact ⟨true, rfl⟩
  · rintro ⟨d, rfl⟩
    exact bitDigit_eq d

theorem forall_isDigit_iff : (∀ b ∈ text, IsDigit b) ↔ ∃ bits, List.map bitDigit bits = text := by
  simp only [isDigit_iff]
  exact (Set.ext_iff.mp (Set.range_list_map bitDigit) text).symm

theorem isGroup_iff : IsGroup piece ↔ piece ∈ Set.range digits := by
  constructor
  · rintro ⟨hlength, hdigits⟩
    obtain ⟨bits, rfl⟩ := forall_isDigit_iff.mp hdigits
    rw [List.length_map] at hlength
    refine ⟨(ofBits bits).toUInt8, congrArg (List.map bitDigit) ?_⟩
    have hlt : ofBits bits < 2 ^ 8 := hlength ▸ ofBits_lt bits
    rw [Nat.toUInt8_eq, UInt8.toNat_ofNat_of_lt' hlt, ← hlength, bitsOf_ofBits]
  · rintro ⟨a, rfl⟩
    exact ⟨by rw [digits, List.length_map, length_bitsOf], forall_isDigit_iff.mpr ⟨_, rfl⟩⟩

theorem forall_isGroup_iff {pieces : List Bytes} :
    (∀ piece ∈ pieces, IsGroup piece) ↔ ∃ data : Bytes, data.map digits = pieces := by
  simp only [isGroup_iff]
  exact (Set.ext_iff.mp (Set.range_list_map digits) pieces).symm

/-! ## Reading -/

/-- What is read has the digits that are left without the separators. -/
theorem decode_eq_ok_iff :
    decode separator text = .ok data ↔
      (Bytes.pieces text separator).flatten = data.flatMap digits := by
  have hdigits : data.flatMap digits = (bitsOfBytes data).map bitDigit := by
    rw [List.flatMap_def, flatten_digits]
  rw [hdigits, ← Bytes.replaceAll_nil]
  refine ⟨fun h => ?_, decode_eq_ok⟩
  rw [decode] at h
  generalize Bytes.replaceAll text separator [] = left at h ⊢
  split at h
  · cases h
  · rename_i hlength
    split at h
    · rename_i bits hbits
      obtain rfl := mapM_digit?_eq_some_iff.mp hbits
      cases h
      rw [List.length_map, not_not] at hlength
      rw [bitsOfBytes_bytesOfBits hlength]
    · cases h

/-- What can be read: binary digits, as many as some bytes have, wherever the separators stand. -/
theorem exists_decode_iff :
    (∃ data, decode separator text = .ok data) ↔
      (∀ piece ∈ Bytes.pieces text separator, ∀ b ∈ piece, IsDigit b) ∧
        ((Bytes.pieces text separator).map List.length).sum % 8 = 0 := by
  simp only [decode_eq_ok_iff]
  rw [← List.length_flatten, ← List.forall_mem_flatten, forall_isDigit_iff]
  generalize (Bytes.pieces text separator).flatten = left
  constructor
  · rintro ⟨data, rfl⟩
    rw [List.flatMap_def, flatten_digits, List.length_map, length_bitsOfBytes]
    exact ⟨⟨_, rfl⟩, Nat.mul_mod_left _ _⟩
  · rintro ⟨⟨bits, rfl⟩, hlength⟩
    rw [List.length_map] at hlength
    refine ⟨bytesOfBits bits, ?_⟩
    rw [List.flatMap_def, flatten_digits, bitsOfBytes_bytesOfBits hlength]

/-- What is written in groups of digits. -/
theorem encode_eq_iff (hne : separator ≠ []) (h₀ : byte '0' ∉ separator)
    (h₁ : byte '1' ∉ separator) : encode separator data = text ↔
      text = [] ∧ data = [] ∨ Bytes.pieces text separator = data.map digits := by
  constructor
  · rintro rfl
    by_cases hdata : data = []
    · subst hdata
      exact .inl ⟨rfl, rfl⟩
    · refine .inr (Bytes.pieces_intercalate hne ?_ (digits_apart h₀ h₁ data))
      rwa [ne_eq, List.map_eq_nil_iff]
  · rintro (⟨rfl, rfl⟩ | hpieces)
    · rfl
    · rw [encode, ← hpieces, Bytes.intercalate_pieces hne]

/-- **What is read between separators.** A text can be read exactly if the pieces between the
separators are binary digits, as many together as some bytes have; what is read has these digits. The
text is also what is written for what is read exactly if it is empty or each of the pieces is eight
digits. -/
theorem decode_pieces (hne : separator ≠ []) (h₀ : byte '0' ∉ separator)
    (h₁ : byte '1' ∉ separator) (text : Bytes) :
    ((∃ data, decode separator text = .ok data) ↔
      (∀ piece ∈ Bytes.pieces text separator, ∀ b ∈ piece, IsDigit b) ∧
        ((Bytes.pieces text separator).map List.length).sum % 8 = 0) ∧
    (∀ data, decode separator text = .ok data →
      (Bytes.pieces text separator).flatten = data.flatMap digits) ∧
    ((∃ data, decode separator text = .ok data ∧ encode separator data = text) ↔
      text = [] ∨ ∀ piece ∈ Bytes.pieces text separator, IsGroup piece) := by
  refine ⟨exists_decode_iff, fun data => decode_eq_ok_iff.mp, ?_, ?_⟩
  · rintro ⟨data, -, hdata⟩
    refine ((encode_eq_iff hne h₀ h₁).mp hdata).imp And.left fun hpieces => ?_
    exact forall_isGroup_iff.mpr ⟨data, hpieces.symm⟩
  · intro htext
    obtain ⟨data, hdata⟩ : ∃ data, encode separator data = text := by
      obtain rfl | hgroups := htext
      · exact ⟨[], rfl⟩
      · obtain ⟨data, hpieces⟩ := forall_isGroup_iff.mp hgroups
        exact ⟨data, (encode_eq_iff hne h₀ h₁).mpr (.inr hpieces.symm)⟩
    exact ⟨data, hdata ▸ decode_encode h₀ h₁ data, hdata⟩

/-- A separator of two bytes that are the same. -/
theorem decode_pieces_doubled :
    ascii "||" ≠ [] ∧ byte '0' ∉ ascii "||" ∧ byte '1' ∉ ascii "||" ∧
      ∃ data, decode (ascii "||") (ascii "01001000||01101001") = .ok data ∧
        encode (ascii "||") data = ascii "01001000||01101001" := by
  have hne : ascii "||" ≠ [] := by decide
  have h₀ : byte '0' ∉ ascii "||" := by decide
  have h₁ : byte '1' ∉ ascii "||" := by decide
  exact ⟨hne, h₀, h₁, (decode_pieces hne h₀ h₁ _).2.2.mpr (.inr (by decide))⟩

/-- A separator between the digits of one byte is passed over, and is not written again. -/
theorem decode_misplaced :
    decode (ascii "|") (ascii "0100|1000") = .ok (ascii "H") ∧
      encode (ascii "|") (ascii "H") ≠ ascii "0100|1000" ∧
      ¬ (ascii "0100|1000" = [] ∨
        ∀ piece ∈ Bytes.pieces (ascii "0100|1000") (ascii "|"), IsGroup piece) := by
  exact ⟨decode_eq_ok_iff.mpr (by decide), by decide, by decide⟩

end Bytework.Cipher.Binary
