import Bytework.Bytes.Basic

/-!
# Bounded, terminated byte strings

Operations that agree with buffers closed by a zero byte: they look at no more than a given number
of bytes and stop at the first zero.

* `content`: the bytes before the terminator, within the bound; all else is built on it.
-/

namespace Bytework.Bytes.Bounded

/-- The first `limit` bytes of `s`, up to and without the first zero byte. -/
def content (s : Bytes) (limit : Nat) : Bytes := (s.take limit).takeWhile (· != 0)

/-- The number of bytes before the terminator. -/
def length (s : Bytes) (limit : Nat) : Nat := (content s limit).length

/-- The content of `a` followed by that of `b`, cut so that a terminator still fits in `limit`
bytes. -/
def concat (a b : Bytes) (limit : Nat) : Bytes :=
  (a.takeWhile (· != 0) ++ b.takeWhile (· != 0)).take (limit - 1)

/-- The order of the contents, byte by byte. -/
def compare (a b : Bytes) (limit : Nat) : Ordering :=
  Ord.compare (content a limit) (content b limit)

end Bytework.Bytes.Bounded
