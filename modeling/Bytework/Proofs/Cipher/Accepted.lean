import Bytework.Cipher.Spec
import Bytework.Proofs.Cipher.Spelled

/-!
# Texts that are read as padded encodings

* `Padded`: the codecs with padding, and `Padded.ends`, how many symbols their last group can have.
* `Padded.Spells`: a text of symbols in a number that there can be.
* **`decode_padded`**: such a text is read, as the leading bits of its values; every other text is
  malformed.
-/

namespace Bytework.Cipher

/-! ## The codecs -/

/-- The codecs with padding. -/
inductive Padded
  | base64 (url : Bool)
  | base32
  deriving DecidableEq, Repr

namespace Padded

/-- The symbols of a codec. -/
def radix : Padded → Radix
  | .base64 url => if url then .base64Url else .base64
  | .base32 => .base32

/-- How many symbols the last group can have, none if it is full. -/
def ends : Padded → List Nat
  | .base64 _ => [0, 2, 3]
  | .base32 => [0, 2, 4, 5, 7]

/-- The specification of a codec with lines of the given width. -/
def spec (width : Nat) : Padded → Spec
  | .base64 url => { Spec.new .base64 with url := url, wrap := width }
  | .base32 => { Spec.new .base32 with wrap := width }

variable (p : Padded)

theorem lawful_radix : p.radix.Lawful := by
  cases p with
  | base64 url =>
    cases url with
    | false => exact Radix.lawful_base64
    | true => exact Radix.lawful_base64Url
  | base32 => exact Radix.lawful_base32

theorem spec_encode (width : Nat) (data : Bytes) :
    (p.spec width).encode data = p.radix.encode width data := by
  cases p <;> rfl

theorem spec_decode (width : Nat) (text : Bytes) : (p.spec width).decode text =
    (p.radix.decode text).mapError (.malformed (p.spec width).codec) := by
  cases p <;> rfl

/-- Less than a symbol is left over from the symbols that there can be. -/
theorem mod_mem_ends_iff (k : Nat) :
    k % p.radix.group ∈ p.ends ↔ p.radix.width * k % 8 < p.radix.width := by
  cases p with
  | base64 url =>
    have hgroup : (base64 url).radix.group = 4 := by cases url <;> rfl
    have hwidth : (base64 url).radix.width = 6 := by cases url <;> rfl
    rw [hgroup, hwidth]
    simp only [ends, List.mem_cons, List.not_mem_nil, or_false]
    omega
  | base32 =>
    show k % 8 ∈ _ ↔ 5 * k % 8 < 5
    simp only [ends, List.mem_cons, List.not_mem_nil, or_false]
    omega

/-- A text of symbols with these values that the codec can have written for some bytes, white space
and padding apart. -/
structure Spells (p : Padded) (text : Bytes) (values : List Nat) : Prop where
  spells : p.radix.Spells text values
  ends : values.length % p.radix.group ∈ p.ends

end Padded

/-- **Every text is read or malformed.** What is read is symbols in a number that there can be, with
white space anywhere and any padding behind them, and the bytes are the leading bits of their values,
as many as are full; what spells no such values is malformed. -/
theorem decode_padded (p : Padded) (width : Nat) (text : Bytes) :
    (∃ values out, p.Spells text values ∧ (p.spec width).decode text = .ok out ∧
      out.length = p.radix.width * values.length / 8 ∧
      bitsOfBytes out = (values.flatMap (bitsOf p.radix.width)).take (8 * out.length)) ∨
    (∀ values, ¬ p.Spells text values) ∧
      ∃ fault, (p.spec width).decode text = .error (.malformed (p.spec width).codec fault) := by
  have hR := p.lawful_radix
  rw [p.spec_decode]
  cases hvalues : p.radix.valuesFrom false text with
  | error fault =>
    refine .inr ⟨fun values h => ?_, fault, by rw [Radix.decode, hvalues]; rfl⟩
    cases hvalues.symm.trans ((Radix.valuesFrom_eq_ok_iff hR).mpr h.spells)
  | ok values =>
    have hspells := (Radix.valuesFrom_eq_ok_iff hR).mp hvalues
    have hdecode : p.radix.decode text = p.radix.decodeValues values := by
      rw [Radix.decode, hvalues]
      rfl
    rw [hdecode]
    obtain ⟨hlegal, out, hout, hbits⟩ | ⟨hillegal, herror⟩ :=
      Radix.decodeValues_cases hR hspells.lt
    · have hlength : out.length = p.radix.width * values.length / 8 := by
        have hcount := congrArg List.length hbits
        rw [length_bitsOfBytes, List.length_take, length_flatMap_bitsOf,
          Nat.mul_comm values.length] at hcount
        omega
      refine .inl ⟨values, out, ⟨hspells, (p.mod_mem_ends_iff _).mpr hlegal⟩, ?_, hlength, ?_⟩
      · rw [hout]
        rfl
      · rw [hlength, hbits]
    · refine .inr ⟨fun values' h => hillegal ?_, p.radix.truncated, by rw [herror]; rfl⟩
      have hsame : values' = values :=
        Except.ok.inj (((Radix.valuesFrom_eq_ok_iff hR).mpr h.spells).symm.trans hvalues)
      exact (p.mod_mem_ends_iff _).mp (hsame ▸ h.ends)

/-- Letters of either case, white space between them, and no padding. -/
example : (Padded.base32.spec 0).decode (ascii "mZxw 6yQ") = .ok (ascii "foob") := by cbv

end Bytework.Cipher
