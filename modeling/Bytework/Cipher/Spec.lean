import Bytework.Cipher.Codec
import Bytework.Cipher.Letters
import Bytework.Cipher.Mask
import Bytework.Cipher.Radix
import Bytework.Cipher.Rearrange
import Bytework.Cipher.Symbols
import Bytework.Text.Blank
import Bytework.Text.Integer
import Bytework.Text.Quoted

/-!
# Cipher specifications

A codec with its parameters, as written by an id such as `caesar:shift=5` or `base64:url,wrap=76`:
a codec id, and after a colon parameters between commas.

* `Spec`: the parameters; `Spec.new`: their defaults.
* `Spec.parse`: the reader of ids; `Spec.assign` sets one parameter.
* `Spec.encode`, `Spec.decode`: the codec at work; `encode`, `decode` take the id.
* `Error`: what can be refused.
-/

namespace Bytework.Cipher

/-- Why a cipher failed. -/
inductive Error
  /-- No codec has this id. -/
  | unknownCipher (id : List Char)
  /-- A parameter does not take this value. -/
  | invalidParameter (name value : List Char)
  /-- The text is no output of the codec. -/
  | malformed (codec : Codec) (fault : Fault)
  deriving DecidableEq, Repr

/-- What an error says. -/
def Error.message : Error → String
  | .unknownCipher id => "unknown cipher id: " ++ String.ofList (Text.quoted id)
  | .invalidParameter name value =>
    "invalid value " ++ String.ofList (Text.quoted value) ++ " for parameter " ++
      String.ofList (Text.quoted name)
  | .malformed codec fault => "malformed " ++ codec.id ++ " input: " ++ fault.reason

/-- A codec and its parameters, of which it uses some. -/
structure Spec where
  codec : Codec
  /-- How far letters are moved. -/
  shift : Int
  /-- The key of letters, or of bytes. -/
  key : Bytes
  /-- The number of rails. -/
  rails : Nat
  /-- What stands between binary groups. -/
  separator : Bytes
  /-- Whether the symbols need no escape in an address. -/
  url : Bool
  /-- The width of lines; zero for one line. -/
  wrap : Nat
  /-- Whether the encoded form is reversed. -/
  reverse : Bool
  /-- Where the generator starts. -/
  seed : Nat
  deriving DecidableEq, Repr

namespace Spec

/-- A codec with the defaults of all parameters. -/
def new (codec : Codec) : Spec :=
  ⟨codec, 3, ascii "KEY", 3, [], false, 0, false, 0⟩

/-! ## Parameters -/

/-- A flag, in any case and with white space around it. -/
def readFlag? (value : List Char) : Option Bool :=
  let word := (Text.trim value).map Char.toLower
  if ["1", "true", "yes", "on"].any fun w => w.toList == word then some true
  else if ["0", "false", "no", "off"].any fun w => w.toList == word then some false
  else none

/-- An ASCII letter. -/
def isLetter (c : Char) : Bool := c.isUpper || c.isLower

/-- The key that a value writes: any bytes for a mask, letters for all else. -/
def readKey? (codec : Codec) (value : List Char) : Option Bytes :=
  if value.isEmpty then none
  else if codec = .xor then some (Bytes.ofChars value)
  else if value.all isLetter then some (Bytes.ofChars (value.map Char.toUpper))
  else none

/-- A separator holds no binary digit, which could not be told from those of the data. -/
def readSeparator? (value : List Char) : Option Bytes :=
  if value.any fun c => c == '0' || c == '1' then none else some (Bytes.ofChars value)

/-- The specification with one parameter set; `none` if it does not take the value. A name that is
not known, in lower case, changes nothing. -/
def assign? (spec : Spec) (name value : List Char) : Option Spec :=
  let known (s : String) : Bool := name.map Char.toLower == s.toList
  if known "shift" then
    (Text.readSigned? 32 (Text.trim value)).map fun n => { spec with shift := n }
  else if known "key" then (readKey? spec.codec value).map fun k => { spec with key := k }
  else if known "rails" then
    ((Text.readUnsigned? 64 (Text.trim value)).filter (2 ≤ ·)).map fun n => { spec with rails := n }
  else if known "sep" then (readSeparator? value).map fun s => { spec with separator := s }
  else if known "url" then (readFlag? value).map fun b => { spec with url := b }
  else if known "wrap" then
    (Text.readUnsigned? 64 (Text.trim value)).map fun n => { spec with wrap := n }
  else if known "reverse" then (readFlag? value).map fun b => { spec with reverse := b }
  else if known "seed" then
    (Text.readUnsigned? 32 (Text.trim value)).map fun n => { spec with seed := n }
  else some spec

/-- The specification with one parameter set. -/
def assign (spec : Spec) (name value : List Char) : Except Error Spec :=
  match spec.assign? name value with
  | some spec => .ok spec
  | none => .error (.invalidParameter name value)

/-! ## Ids -/

/-- The parts of a text before and after the first `c`. -/
def cut? (c : Char) (s : List Char) : Option (List Char × List Char) :=
  match s.dropWhile (· != c) with
  | [] => none
  | _ :: rest => some (s.takeWhile (· != c), rest)

/-- The name and value of a parameter. A bare name is a flag that is on. -/
def nameValue (parameter : List Char) : List Char × List Char :=
  match cut? '=' parameter with
  | some (name, value) => (Text.trim name, value)
  | none => (parameter, ['1'])

/-- The parameters of a text, without the white space around them; empty ones are skipped. -/
def parameters (s : List Char) : List (List Char × List Char) :=
  (((s.splitOn ',').map Text.trim).filter (!·.isEmpty)).map nameValue

/-- The specification that an id given by its characters writes. -/
def ofChars (s : List Char) : Except Error Spec :=
  let (id, rest) := match cut? ':' s with
    | some (id, rest) => (id, parameters rest)
    | none => (s, [])
  match Codec.ofId? (Text.trim id) with
  | none => .error (.unknownCipher id)
  | some codec => rest.foldlM (fun spec p => spec.assign p.1 p.2) (new codec)

/-- The specification that an id writes. -/
def parse (id : String) : Except Error Spec := ofChars id.toList

/-! ## At work -/

/-- The symbols of six bits that a specification asks for. -/
def radix64 (spec : Spec) : Radix := if spec.url then .base64Url else .base64

/-- The encoded form before it is reversed. -/
def encodeForward (spec : Spec) (text : Bytes) : Bytes :=
  match spec.codec with
  | .caesar => Cipher.caesar spec.shift text
  | .rot13 => Cipher.caesar 13 text
  | .atbash => Cipher.atbash text
  | .vigenere => Cipher.vigenere .encode spec.key text
  | .railFence => railEncode spec.rails text
  | .baconian => Bacon.encode text
  | .morse => Morse.encode text
  | .leet => Leet.encode text
  | .base64 => spec.radix64.encode spec.wrap text
  | .base32 => Radix.base32.encode spec.wrap text
  | .binary => Binary.encode spec.separator text
  | .hex => Hex.encode text
  | .xor => mask spec.key text
  | .shuffle => Cipher.shuffle spec.seed text

/-- The encoded form of a text. -/
def encode (spec : Spec) (text : Bytes) : Bytes :=
  let out := spec.encodeForward text
  if spec.reverse then out.reverse else out

/-- The text of an encoded form that is not reversed. -/
def decodeForward (spec : Spec) (text : Bytes) : Except Fault Bytes :=
  match spec.codec with
  | .caesar => .ok (Cipher.caesar (26 - spec.shift % 26) text)
  | .rot13 => .ok (Cipher.caesar 13 text)
  | .atbash => .ok (Cipher.atbash text)
  | .vigenere => .ok (Cipher.vigenere .decode spec.key text)
  | .railFence => .ok (railDecode spec.rails text)
  | .baconian => .ok (Bacon.decode text)
  | .morse => .ok (Morse.decode text)
  | .leet => .ok (Leet.decode text)
  | .base64 => spec.radix64.decode text
  | .base32 => Radix.base32.decode text
  | .binary => Binary.decode spec.separator text
  | .hex => Hex.decode text
  | .xor => .ok (mask spec.key text)
  | .shuffle => .ok (Cipher.unshuffle spec.seed text)

/-- The text of an encoded form. -/
def decode (spec : Spec) (text : Bytes) : Except Error Bytes :=
  (spec.decodeForward (if spec.reverse then text.reverse else text)).mapError (.malformed spec.codec)

end Spec

/-- A text encoded by the codec that an id names. -/
def encode (text : Bytes) (id : String) : Except Error Bytes := do
  let spec ← Spec.parse id
  return spec.encode text

/-- A text decoded by the codec that an id names. -/
def decode (text : Bytes) (id : String) : Except Error Bytes := do
  let spec ← Spec.parse id
  spec.decode text

end Bytework.Cipher
