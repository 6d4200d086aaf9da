import Bytework.Bytes.Search
import Bytework.Screen.Entropy
import Bytework.Screen.Phrases

/-!
# Accounts

Checks of what a user gives for an account. Texts are taken in their UTF-8 form.

* `isAlnumOnly`, `isEmail`, `isDisposableEmail`, `isBotSignature`: simple checks.
* `allSame`, `increasing`, `decreasing`, `alternating`, `longestRun`: patterns of bytes.
* `isWeakPassword`, `isSuspiciousUser`: what speaks against a password or a user name.
-/

namespace Bytework.Screen

/-! ## Tables -/

/-- The domains of accepted addresses. -/
def knownDomains : List Bytes :=
  ["gmail.com", "yahoo.com", "outlook.com", "hotmail.com", "icloud.com"].map ascii

/-- The domains of throwaway addresses. -/
def disposableDomains : List Bytes :=
  ["mailinator.com", "10minutemail.com", "guerrillamail.com", "tempmail.com", "temp-mail.org",
    "yopmail.com", "trashmail.com", "getnada.com", "dispostable.com", "sharklasers.com",
    "throwawaymail.com", "maildrop.cc", "fakeinbox.com"].map ascii

/-- Well-known passwords. -/
def commonPasswords : List Bytes :=
  ["password", "password1", "password123", "123456", "12345678", "123456789", "1234567890",
    "qwerty", "qwerty123", "qwertyuiop", "abc123", "111111", "letmein", "welcome", "welcome1",
    "iloveyou", "admin", "admin123", "monkey", "dragon", "football", "baseball", "sunshine",
    "princess", "trustno1", "passw0rd", "p@ssw0rd", "p@ssword1"].map ascii

/-- Words that mark a generated name. -/
def userKeywords : List Bytes :=
  ["bot", "crawler", "spider", "scraper", "spam", "fake", "test123", "admin123", "root123"].map ascii

/-- Neighbouring keys in a row. -/
def keyboardWalks : List Bytes :=
  ["qwerty", "asdf", "zxcv", "qazwsx", "1qaz", "poiuy", "lkjh", "mnbv", "12345", "09876"].map ascii

/-! ## Simple checks -/

/-- Whether every byte is an ASCII letter or digit. -/
def isAlnumOnly (s : Bytes) : Bool := s.all isAlnum

/-- Whether a text is a local part, an at sign, and a known domain. -/
def isEmail (s : Bytes) : Bool :=
  let name := s.takeWhile (· != byte '@')
  match s.dropWhile (· != byte '@') with
  | [] => false
  | _ :: domain => !name.isEmpty && knownDomains.contains domain

/-- Whether what follows the last at sign is a throwaway domain, with ASCII case ignored. -/
def isDisposableEmail (s : Bytes) : Bool :=
  let domain := (s.reverse.takeWhile (· != byte '@')).reverse
  disposableDomains.any (·.equalFolded domain)

/-- Whether the name of an automatic client occurs. -/
def isBotSignature (s : Bytes) : Bool := botPhrases.any s.lower.includes

/-! ## Patterns -/

/-- A byte that is no ASCII letter or digit. -/
def isSymbol (b : UInt8) : Bool := !isAlnum b

/-- Whether a relation holds between all neighbours. -/
def neighbours (r : UInt8 → UInt8 → Bool) (s : Bytes) : Bool := (s.zip s.tail).all fun p => r p.1 p.2

/-- Whether each byte equals the next one. -/
def allSame (s : Bytes) : Bool := neighbours (· == ·) s

/-- Whether each byte is less than the next one. -/
def increasing (s : Bytes) : Bool := neighbours (decide <| · < ·) s

/-- Whether each byte is greater than the next one. -/
def decreasing (s : Bytes) : Bool := neighbours (decide <| · > ·) s

/-- Whether two different bytes take turns, at least twice. -/
def alternating : Bytes → Bool
  | a :: b :: s =>
    decide (2 ≤ s.length) && a != b && (s.zipIdx.all fun p => p.1 == if p.2 % 2 = 0 then a else b)
  | _ => false

/-- The lengths of two runs of bytes: the longest one so far, and the current one. -/
structure RunCount where
  longest : Nat := 0
  current : Nat := 0

/-- One more byte goes on with the current run if it is in `p`, and otherwise ends it. -/
def RunCount.read (p : UInt8 → Bool) (count : RunCount) (b : UInt8) : RunCount :=
  let current := if p b then count.current + 1 else 0
  ⟨max count.longest current, current⟩

/-- The length of the longest run of bytes in `p`. -/
def longestRun (p : UInt8 → Bool) (s : Bytes) : Nat := (s.foldl (RunCount.read p) {}).longest

/-! ## Passwords -/

/-- How many of the four classes of bytes occur: lower case, upper case, digits and symbols. -/
def classCount (s : Bytes) : Nat :=
  ([isLower, isUpper, isDigit, isSymbol].filter fun p => s.any p).length

/-- Whether a text that is not empty equals the password, with ASCII case ignored. -/
def repeats (password s : Bytes) : Bool := !s.isEmpty && password.equalFolded s

/-- Whether a password is too short or too long, has too few classes of bytes, is well known, follows
a simple pattern, or repeats the user's name or address. -/
def isWeakPassword (password username email : Bytes) : Bool :=
  decide (password.length < 8) || decide (64 < password.length) ||
    decide (classCount password < 3) ||
    commonPasswords.any (·.equalFolded password) ||
    allSame password || increasing password || decreasing password ||
    repeats password username || repeats password email

/-! ## User names -/

/-- Whether a user name has an unusual length, long runs or a large share of digits or symbols,
words or patterns of generated names, or an unusual entropy. Shares are compared exactly. -/
def isSuspiciousUser (s : Bytes) : Bool :=
  let digits := s.countP isDigit
  let letters := s.countP isAlpha
  let symbols := s.length - digits - letters
  let lower := s.lower
  decide (s.length < 3) || decide (32 < s.length) ||
    decide (5 ≤ longestRun isDigit s) || decide (4 ≤ longestRun isSymbol s) || decide (8 ≤ digits) ||
    decide (45 * s.length < 100 * digits) || decide (10 * letters < 3 * s.length) ||
    decide (3 * s.length < 10 * symbols) ||
    userKeywords.any lower.includes || keyboardWalks.any lower.includes ||
    allSame s || alternating s ||
    decide ((4.2 : Float) < entropy s) ||
    lower.includes (ascii "@") || lower.includes (ascii "http") ||
    (decide (16 ≤ s.length) && s.all isHexDigit)

end Bytework.Screen
