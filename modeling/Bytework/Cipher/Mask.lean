import Bytework.Bytes.Basic

/-!
# Masking

Every byte combined with a byte of a repeated key by exclusive or, which undoes itself.
-/

namespace Bytework.Cipher

/-- The exclusive or of a text and a repeated key; an empty key changes nothing. -/
def mask (key text : Bytes) : Bytes :=
  if key.isEmpty then text else text.mapIdx fun i b => b ^^^ key.getD (i % key.length) 0

end Bytework.Cipher
