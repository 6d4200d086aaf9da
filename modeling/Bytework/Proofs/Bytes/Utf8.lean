import Bytework.Bytes.Basic

/-!
# The UTF-8 form of a text

An ASCII character is one byte, and no other character has an ASCII byte.

* `toNat_eq_of_mem_utf8`, `utf8_ascii`: the ASCII bytes of a character.
* `byte_notMem_ofChars`: a text without an ASCII character has no byte of it.
* `ofChars_eq_cons_iff`: a text that starts with an ASCII byte.
* `ofChars_append`, `length_ofChars_cons`: the bytes of a text, one part after the other.
-/

namespace Bytework.Bytes

/-- An ASCII byte in the UTF-8 form of a character is that character. -/
theorem toNat_eq_of_mem_utf8 {c : Char} {b : UInt8} (hb : b.toNat < 128)
    (h : b ∈ String.utf8EncodeChar c) : b.toNat = c.toNat := by
  have hc : c.toNat = c.val.toNat := rfl
  simp only [String.utf8EncodeChar] at h
  split at h
  · rw [List.mem_singleton] at h
    rw [h, UInt8.toNat_ofNat']
    omega
  · exfalso
    split at h
    · simp only [List.mem_cons, List.not_mem_nil, or_false] at h
      rcases h with rfl | rfl <;> rw [UInt8.toNat_ofNat'] at hb <;> omega
    · split at h
      · simp only [List.mem_cons, List.not_mem_nil, or_false] at h
        rcases h with rfl | rfl | rfl <;> rw [UInt8.toNat_ofNat'] at hb <;> omega
      · simp only [List.mem_cons, List.not_mem_nil, or_false] at h
        rcases h with rfl | rfl | rfl | rfl <;> rw [UInt8.toNat_ofNat'] at hb <;> omega

theorem utf8_ascii {c : Char} (hc : c.toNat < 128) : String.utf8EncodeChar c = [byte c] := by
  have hle : c.val.toNat ≤ 0x7f := Nat.le_of_lt_succ hc
  simp only [String.utf8EncodeChar, if_pos hle]
  rfl

theorem toNat_byte {c : Char} (hc : c.toNat < 128) : (byte c).toNat = c.toNat := by
  show (UInt8.ofNat c.toNat).toNat = c.toNat
  rw [UInt8.toNat_ofNat']
  omega

theorem utf8Size_ascii {c : Char} (hc : c.toNat < 128) : c.utf8Size = 1 := by
  rw [← String.length_utf8EncodeChar, utf8_ascii hc]
  rfl

theorem byte_notMem_ofChars {c : Char} (hc : c.toNat < 128) {s : List Char} (h : c ∉ s) :
    byte c ∉ ofChars s := by
  intro hmem
  obtain ⟨a, ha, hb⟩ := List.mem_flatMap.mp hmem
  have heq := toNat_eq_of_mem_utf8 (by rwa [toNat_byte hc]) hb
  rw [toNat_byte hc] at heq
  obtain rfl : c = a := Char.toNat_inj.mp heq
  exact h ha

theorem ofChars_append (s t : List Char) : ofChars (s ++ t) = ofChars s ++ ofChars t :=
  List.flatMap_append

theorem ofChars_cons (c : Char) (s : List Char) : ofChars (c :: s) = String.utf8EncodeChar c ++ ofChars s :=
  List.flatMap_cons

/-- **A text whose first byte is ASCII** starts with that character. -/
theorem ofChars_eq_cons_iff {b : UInt8} (hb : b.toNat < 128) {s : List Char} {bytes : Bytes} :
    ofChars s = b :: bytes ↔
      ∃ c t, s = c :: t ∧ c.toNat < 128 ∧ b = byte c ∧ bytes = ofChars t := by
  constructor
  · intro h
    cases s with
    | nil => cases h
    | cons c t =>
      rw [ofChars_cons] at h
      have hmem : b ∈ String.utf8EncodeChar c := by
        have hne : String.utf8EncodeChar c ≠ [] := List.length_pos_iff.mp (by
          rw [String.length_utf8EncodeChar]
          exact c.utf8Size_pos)
        obtain ⟨first, others, hfirst⟩ := List.exists_cons_of_ne_nil hne
        rw [hfirst] at h ⊢
        rw [(List.cons.inj h).1]
        exact List.mem_cons_self
      have hc : c.toNat < 128 := toNat_eq_of_mem_utf8 hb hmem ▸ hb
      rw [utf8_ascii hc] at h
      obtain ⟨rfl, rfl⟩ := List.cons.inj h
      exact ⟨c, t, rfl, hc, rfl, rfl⟩
  · rintro ⟨c, t, rfl, hc, rfl, rfl⟩
    rw [ofChars_cons, utf8_ascii hc]
    rfl

theorem length_ofChars_cons (c : Char) (s : List Char) :
    (ofChars (c :: s)).length = c.utf8Size + (ofChars s).length := by
  rw [ofChars_cons, List.length_append, String.length_utf8EncodeChar]

end Bytework.Bytes
