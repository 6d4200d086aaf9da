import Bytework.Cipher.Spec
import Bytework.Proofs.Bytes.Utf8
import Bytework.Proofs.Cipher.Bytewise
import Bytework.Proofs.Cipher.Radix
import Bytework.Proofs.Cipher.Rearrange

/-!
# Ciphers undone

Whatever the parameters that an id sets, what a lossless codec encodes is decoded to the same text.

* `Codec.lossless`: the codecs that lose nothing.
* `Spec.NoDigits`: a specification whose separator cannot be taken for data.
* **`noDigits_of_parse`**: every specification that an id writes is one.
* `Spec.decode_encode_of_forward`: what is read of the encoded form is read of its reversal;
  `Spec.decode_encode`: a specification at work.
* **`decode_encode_of_parse`**: an id at work.
-/

namespace Bytework.Cipher

/-- The codecs that lose nothing. -/
def Codec.lossless : List Codec :=
  [.caesar, .rot13, .atbash, .vigenere, .railFence, .base64, .base32, .binary, .hex, .xor, .shuffle]

/-! ## Separators -/

namespace Spec

/-- The separator has no binary digit. -/
def NoDigits (spec : Spec) : Prop := byte '0' ∉ spec.separator ∧ byte '1' ∉ spec.separator

theorem noDigits_of_readSeparator? {value : List Char} {separator : Bytes}
    (h : readSeparator? value = some separator) :
    byte '0' ∉ separator ∧ byte '1' ∉ separator := by
  unfold readSeparator? at h
  split at h
  · cases h
  · rename_i hany
    cases h
    refine ⟨Bytes.byte_notMem_ofChars (by decide) fun hmem => hany ?_,
      Bytes.byte_notMem_ofChars (by decide) fun hmem => hany ?_⟩
    · exact List.any_eq_true.mpr ⟨'0', hmem, rfl⟩
    · exact List.any_eq_true.mpr ⟨'1', hmem, rfl⟩

theorem NoDigits.of_map {α : Type} {spec spec' : Spec} {read : Option α} {f : α → Spec}
    (hs : spec.NoDigits) (h : read.map f = some spec')
    (hf : ∀ a, (f a).separator = spec.separator) : spec'.NoDigits := by
  obtain ⟨a, -, rfl⟩ := Option.map_eq_some_iff.mp h
  rwa [NoDigits, hf a]

/-- No parameter lets a binary digit into the separator. -/
theorem NoDigits.assign? {spec spec' : Spec} {name value : List Char} (hs : spec.NoDigits)
    (h : spec.assign? name value = some spec') : spec'.NoDigits := by
  unfold Spec.assign? at h
  simp only at h
  -- only the fourth parameter is the separator
  split_ifs at h
  · exact hs.of_map h fun _ => rfl
  · exact hs.of_map h fun _ => rfl
  · exact hs.of_map h fun _ => rfl
  · obtain ⟨separator, hseparator, rfl⟩ := Option.map_eq_some_iff.mp h
    exact noDigits_of_readSeparator? hseparator
  · exact hs.of_map h fun _ => rfl
  · exact hs.of_map h fun _ => rfl
  · exact hs.of_map h fun _ => rfl
  · exact hs.of_map h fun _ => rfl
  · obtain rfl := Option.some.inj h
    exact hs

theorem NoDigits.foldlM {spec spec' : Spec} {parameters : List (List Char × List Char)}
    (hs : spec.NoDigits)
    (h : parameters.foldlM (fun spec p => spec.assign p.1 p.2) spec = Except.ok spec') :
    spec'.NoDigits := by
  induction parameters generalizing spec with
  | nil =>
    obtain rfl := Except.ok.inj h
    exact hs
  | cons p parameters ih =>
    rw [List.foldlM_cons, assign] at h
    cases hp : spec.assign? p.1 p.2 with
    | none =>
      rw [hp] at h
      cases h
    | some next =>
      rw [hp] at h
      exact ih (hs.assign? hp) h

/-- **Every specification that an id writes** has a separator without binary digits. -/
theorem noDigits_of_parse {id : String} {spec : Spec} (h : parse id = .ok spec) :
    spec.NoDigits := by
  unfold parse ofChars at h
  split at h
  split at h
  · cases h
  · rename_i codec _
    have hnew : (new codec).NoDigits := ⟨List.not_mem_nil, List.not_mem_nil⟩
    exact hnew.foldlM h

/-! ## At work -/

theorem decodeForward_encodeForward {spec : Spec} (hs : spec.NoDigits)
    (hcodec : spec.codec ∈ Codec.lossless) (text : Bytes) :
    spec.decodeForward (spec.encodeForward text) = .ok text := by
  unfold decodeForward encodeForward
  cases hc : spec.codec with
  | caesar => exact congrArg Except.ok (caesar_caesar (by omega) text)
  | rot13 => exact congrArg Except.ok (caesar_caesar (by decide) text)
  | atbash => exact congrArg Except.ok (atbash_atbash text)
  | vigenere => exact congrArg Except.ok (vigenere_vigenere spec.key text)
  | railFence => exact congrArg Except.ok (railDecode_railEncode spec.rails text)
  | base64 =>
    have hlawful : spec.radix64.Lawful := by
      unfold radix64
      split
      · exact Radix.lawful_base64Url
      · exact Radix.lawful_base64
    exact Radix.decode_encode hlawful spec.wrap text
  | base32 => exact Radix.decode_encode Radix.lawful_base32 spec.wrap text
  | binary => exact Binary.decode_encode hs.1 hs.2 text
  | hex => exact Hex.decode_encode text
  | xor => exact congrArg Except.ok (mask_mask spec.key text)
  | shuffle => exact congrArg Except.ok (unshuffle_shuffle spec.seed text)
  | baconian | morse | leet =>
    rw [hc] at hcodec
    exact absurd hcodec (by decide)

/-- Reversing the encoded form is undone. -/
theorem decode_encode_of_forward {spec : Spec} {text out : Bytes}
    (h : spec.decodeForward (spec.encodeForward text) = .ok out) :
    spec.decode (spec.encode text) = .ok out := by
  unfold decode encode
  cases spec.reverse with
  | false => exact congrArg (Except.mapError _) h
  | true =>
    show Except.mapError _ (spec.decodeForward (spec.encodeForward text).reverse.reverse) = _
    rw [List.reverse_reverse, h]
    rfl

theorem decode_encode {spec : Spec} (hs : spec.NoDigits) (hcodec : spec.codec ∈ Codec.lossless)
    (text : Bytes) : spec.decode (spec.encode text) = .ok text :=
  decode_encode_of_forward (decodeForward_encodeForward hs hcodec text)

end Spec

/-- **What a lossless codec encodes is decoded to the same text**, whatever the parameters that the
id sets. -/
theorem decode_encode_of_parse {id : String} {spec : Spec} (h : Spec.parse id = .ok spec)
    (hcodec : spec.codec ∈ Codec.lossless) (text : Bytes) :
    ∃ out, encode text id = .ok out ∧ decode out id = .ok text := by
  refine ⟨spec.encode text, ?_, ?_⟩
  · rw [encode, h]
    rfl
  · rw [decode, h]
    exact Spec.decode_encode (Spec.noDigits_of_parse h) hcodec text

theorem decode_encode_reversed :
    Spec.parse "binary:sep=-,reverse" =
        .ok { Spec.new .binary with separator := [45], reverse := true } ∧
      ∃ out, encode [104, 105] "binary:sep=-,reverse" = .ok out ∧
        decode out "binary:sep=-,reverse" = .ok [104, 105] := by
  have h : Spec.parse "binary:sep=-,reverse" =
      .ok { Spec.new .binary with separator := [45], reverse := true } := rfl
  exact ⟨h, decode_encode_of_parse h (by decide) [104, 105]⟩

end Bytework.Cipher
