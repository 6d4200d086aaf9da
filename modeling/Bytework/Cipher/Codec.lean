import Bytework.Bytes.Basic

/-!
# The registry of codecs

* `Codec`: the families.
* `Codec.registry`: their ids, in order; one family has two.
* `Codec.ofId?`, `Codec.id`: the look-up, which ignores ASCII case, and the first id of a family.
-/

namespace Bytework.Cipher

/-- The families of codecs. -/
inductive Codec
  | caesar
  | rot13
  | atbash
  | vigenere
  | railFence
  | baconian
  | morse
  | leet
  | base64
  | base32
  | binary
  | hex
  | xor
  | shuffle
  deriving DecidableEq, Repr

namespace Codec

/-- The ids in order. -/
def registry : List (String × Codec) :=
  [("caesar", .caesar), ("rot13", .rot13), ("atbash", .atbash), ("vigenere", .vigenere),
    ("railfence", .railFence), ("baconian", .baconian), ("morse", .morse), ("leet", .leet),
    ("base64", .base64), ("base32", .base32), ("binary", .binary), ("hex", .hex),
    ("haxor", .hex), ("xor", .xor), ("shuffle", .shuffle)]

/-- The codec with an id, in any ASCII case. -/
def ofId? (id : List Char) : Option Codec :=
  (registry.find? fun entry => entry.1.toList == id.map Char.toLower).map (·.2)

/-- The first id of a codec. -/
def id (codec : Codec) : String :=
  match registry.find? fun entry => entry.2 == codec with
  | some entry => entry.1
  | none => ""

/-- All ids, in order. -/
def ids : List String := registry.map (·.1)

end Codec

end Bytework.Cipher
