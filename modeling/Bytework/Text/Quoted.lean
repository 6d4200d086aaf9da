import Bytework.Text.Visible

/-!
# Quoted text

A text between double quotes in which every character shows: quote, backslash and four control
characters have short escapes, other characters without a visible form of their own are written by
their code point.
-/

namespace Bytework.Text

/-- A character as it stands between quotes. -/
def quotedChar (c : Char) : List Char :=
  if c = Char.ofNat 0 then ['\\', '0']
  else if c = '\t' then ['\\', 't']
  else if c = '\r' then ['\\', 'r']
  else if c = '\n' then ['\\', 'n']
  else if c.toNat = 34 ∨ c = '\\' then ['\\', c]
  else if isEscaped c then ['\\', 'u', Char.ofNat 0x7B] ++ Nat.toDigits 16 c.toNat ++ [Char.ofNat 0x7D]
  else [c]

/-- A text between double quotes. -/
def quoted (s : List Char) : List Char :=
  Char.ofNat 34 :: s.flatMap quotedChar ++ [Char.ofNat 34]

end Bytework.Text
