import Bytework.Proofs.Bytes.Escape
import Mathlib.Data.List.Chain
import Mathlib.Data.List.Forall2

/-!
# Escaped units of 16 bits

Texts in which everything is written as a unit of four hexadecimal digits are read as UTF-16.

* `Utf16.ofChar`: the units of a character, one or a pair; `Utf16.Symbol`: a character, or a unit that is
  no part of one.
* `Utf16.Decodes`: the symbols of a list of units; `Utf16.decode`: the list of them;
  **`Utf16.decodes_iff`**: there is exactly one.
* `WritesUnit`: a backslash, a letter and four digits of either case; `unescape_single`,
  `unescape_pair`: what is read of one unit and of two.
* **`unescape_units`**: units are read as the UTF-8 of their symbols.
-/

namespace Bytework

namespace Utf16

variable {u v : UInt16} {list : List UInt16}

/-! ## Characters and units -/

/-- The first unit of a pair. -/
def IsHigh (u : UInt16) : Prop := 0xD800 ≤ u.toNat ∧ u.toNat ≤ 0xDBFF

/-- The second unit of a pair. -/
def IsLow (u : UInt16) : Prop := 0xDC00 ≤ u.toNat ∧ u.toNat ≤ 0xDFFF

instance : DecidablePred IsHigh := fun _ => inferInstanceAs (Decidable (_ ∧ _))

instance : DecidablePred IsLow := fun _ => inferInstanceAs (Decidable (_ ∧ _))

/-- The units of a character: one, or a pair for a code point of more than 16 bits. -/
def ofChar (c : Char) : List UInt16 :=
  if c.toNat < 0x10000 then [c.toNat.toUInt16]
  else
    [(0xD800 + (c.toNat - 0x10000) / 0x400).toUInt16,
      (0xDC00 + (c.toNat - 0x10000) % 0x400).toUInt16]

/-- The code point of a pair. -/
def pairPoint (u v : UInt16) : Nat := 0x10000 + (u.toNat - 0xD800) * 0x400 + (v.toNat - 0xDC00)

/-- The character of a pair. -/
def pairChar (u v : UInt16) : Char := Char.ofNat (pairPoint u v)

theorem toNat_ofNat {n : Nat} (h : n.isValidChar) : (Char.ofNat n).toNat = n := by
  rw [Char.ofNat, dif_pos h]
  rfl

theorem isValidChar_toNat (c : Char) : c.toNat.isValidChar := by
  have h := c.valid
  rw [UInt32.isValidChar] at h
  exact h

theorem isValidChar_pairPoint (hu : IsHigh u) (hv : IsLow v) : (pairPoint u v).isValidChar := by
  unfold IsHigh at hu
  unfold IsLow at hv
  unfold pairPoint Nat.isValidChar
  omega

theorem isValidChar_of_not (hu : ¬ IsHigh u) (hv : ¬ IsLow u) : u.toNat.isValidChar := by
  have hlt := u.toNat_lt
  unfold IsHigh at hu
  unfold IsLow at hv
  unfold Nat.isValidChar
  omega

theorem toNat_toUInt16 {n : Nat} (h : n < 0x10000) : n.toUInt16.toNat = n :=
  UInt16.toNat_ofNat_of_lt' h

theorem ofChar_ofNat (hu : ¬ IsHigh u) (hv : ¬ IsLow u) : ofChar (Char.ofNat u.toNat) = [u] := by
  have hlt := u.toNat_lt
  rw [ofChar, toNat_ofNat (isValidChar_of_not hu hv), if_pos hlt]
  exact congrArg (fun a => [a]) (UInt16.toNat_inj.mp (toNat_toUInt16 hlt))

theorem ofChar_pairChar (hu : IsHigh u) (hv : IsLow v) : ofChar (pairChar u v) = [u, v] := by
  have hpoint := toNat_ofNat (isValidChar_pairPoint hu hv)
  rw [ofChar, pairChar, hpoint, if_neg (by unfold pairPoint; omega)]
  unfold IsHigh at hu
  unfold IsLow at hv
  have hhigh : (0xD800 + (pairPoint u v - 0x10000) / 0x400).toUInt16 = u := by
    rw [← UInt16.toNat_inj, toNat_toUInt16] <;> unfold pairPoint <;> omega
  have hlow : (0xDC00 + (pairPoint u v - 0x10000) % 0x400).toUInt16 = v := by
    rw [← UInt16.toNat_inj, toNat_toUInt16] <;> unfold pairPoint <;> omega
  rw [hhigh, hlow]

/-- The units of a character are one that is no part of a pair, or a pair. -/
theorem ofChar_cases (c : Char) :
    (∃ u, ofChar c = [u] ∧ ¬ IsHigh u ∧ ¬ IsLow u ∧ Char.ofNat u.toNat = c) ∨
      ∃ u v, ofChar c = [u, v] ∧ IsHigh u ∧ IsLow v ∧ pairChar u v = c := by
  have hvalid := isValidChar_toNat c
  unfold Nat.isValidChar at hvalid
  rw [ofChar]
  split
  · rename_i hlt
    have hunit := toNat_toUInt16 hlt
    refine .inl ⟨_, rfl, ?_, ?_, by rw [hunit, Char.ofNat_toNat]⟩
    · unfold IsHigh
      omega
    · unfold IsLow
      omega
  · have hhigh : (0xD800 + (c.toNat - 0x10000) / 0x400).toUInt16.toNat =
        0xD800 + (c.toNat - 0x10000) / 0x400 := toNat_toUInt16 (by omega)
    have hlow : (0xDC00 + (c.toNat - 0x10000) % 0x400).toUInt16.toNat =
        0xDC00 + (c.toNat - 0x10000) % 0x400 := toNat_toUInt16 (by omega)
    refine .inr ⟨_, _, rfl, ?_, ?_, ?_⟩
    · unfold IsHigh
      omega
    · unfold IsLow
      omega
    · refine (congrArg Char.ofNat ?_).trans (Char.ofNat_toNat c)
      unfold pairPoint
      omega

/-! ## Symbols -/

/-- What units stand for: a character, or a unit that is no part of one. -/
inductive Symbol
  | char (c : Char)
  | lone (u : UInt16)
  deriving DecidableEq

/-- The units of a symbol. -/
def Symbol.units : Symbol → List UInt16
  | .char c => ofChar c
  | .lone u => [u]

/-- The UTF-8 form of a symbol, with a question mark for a unit that is no part of a character. -/
def Symbol.utf8 : Symbol → Bytes
  | .char c => String.utf8EncodeChar c
  | .lone _ => [byte '?']

/-- A first unit alone, and a second unit alone right behind it: the two would have been a pair. -/
def Missed (a b : Symbol) : Prop := ∃ u v, a = .lone u ∧ b = .lone v ∧ IsHigh u ∧ IsLow v

/-- The symbols of a list of units: they have these units, only halves of pairs stand alone, and no two
that stand alone would have been a pair. -/
structure Decodes (list : List UInt16) (symbols : List Symbol) : Prop where
  units : symbols.flatMap Symbol.units = list
  half : ∀ u, Symbol.lone u ∈ symbols → IsHigh u ∨ IsLow u
  alone : symbols.IsChain fun a b => ¬ Missed a b

/-- The symbol of a unit that is not in a pair. -/
def single (u : UInt16) : Symbol :=
  if IsHigh u ∨ IsLow u then .lone u else .char (Char.ofNat u.toNat)

/-- The symbols of a list of units, from the front. -/
def decode : List UInt16 → List Symbol
  | [] => []
  | [u] => [single u]
  | u :: v :: list =>
    if IsHigh u ∧ IsLow v then .char (pairChar u v) :: decode list else single u :: decode (v :: list)

theorem units_single (u : UInt16) : (single u).units = [u] := by
  rw [single]
  split
  · rfl
  · rename_i h
    rw [not_or] at h
    exact ofChar_ofNat h.1 h.2

theorem eq_of_single_eq_lone (h : single u = .lone v) : u = v ∧ (IsHigh v ∨ IsLow v) := by
  rw [single] at h
  split at h
  · rename_i hhalf
    cases h
    exact ⟨rfl, hhalf⟩
  · cases h

theorem decode_cons (h : ∀ v ∈ list.head?, ¬ (IsHigh u ∧ IsLow v)) :
    decode (u :: list) = single u :: decode list := by
  cases list with
  | nil => rfl
  | cons v list =>
    rw [decode, if_neg (h v rfl)]

theorem decode_pair (hu : IsHigh u) (hv : IsLow v) (list : List UInt16) :
    decode (u :: v :: list) = .char (pairChar u v) :: decode list := by
  rw [decode, if_pos ⟨hu, hv⟩]

theorem not_isLow_of_isHigh (hu : IsHigh u) : ¬ IsLow u := by
  unfold IsHigh at hu
  unfold IsLow
  omega

/-! ## The symbols of a list of units -/

theorem flatMap_decode (list : List UInt16) : (decode list).flatMap Symbol.units = list := by
  fun_induction decode list with
  | case1 => rfl
  | case2 u => exact (List.flatMap_singleton ..).trans (units_single u)
  | case3 u v list hpair ih =>
    rw [List.flatMap_cons, ih]
    exact congrArg (· ++ list) (ofChar_pairChar hpair.1 hpair.2)
  | case4 u v list hpair ih =>
    rw [List.flatMap_cons, ih, units_single]
    rfl

theorem head?_decode {w : UInt16} (h : (decode (u :: list)).head? = some (.lone w)) :
    u = w ∧ (IsHigh w ∨ IsLow w) := by
  cases list with
  | nil => exact eq_of_single_eq_lone (Option.some.inj h)
  | cons v list =>
    rw [decode] at h
    split at h
    · cases h
    · exact eq_of_single_eq_lone (Option.some.inj h)

theorem half_decode (list : List UInt16) (w : UInt16) (hw : Symbol.lone w ∈ decode list) :
    IsHigh w ∨ IsLow w := by
  fun_induction decode list with
  | case1 => cases hw
  | case2 u => exact (eq_of_single_eq_lone (List.mem_singleton.mp hw).symm).2
  | case3 u v list hpair ih =>
    obtain h | h := List.mem_cons.mp hw
    · cases h
    · exact ih h
  | case4 u v list hpair ih =>
    obtain h | h := List.mem_cons.mp hw
    · exact (eq_of_single_eq_lone h.symm).2
    · exact ih h

theorem isChain_decode (list : List UInt16) :
    (decode list).IsChain fun a b => ¬ Missed a b := by
  fun_induction decode list with
  | case1 => exact .nil
  | case2 u => exact .singleton _
  | case3 u v list hpair ih =>
    refine List.isChain_cons.mpr ⟨fun b _ => ?_, ih⟩
    rintro ⟨w, x, h, -⟩
    cases h
  | case4 u v list hpair ih =>
    refine List.isChain_cons.mpr ⟨fun b hb => ?_, ih⟩
    rintro ⟨w, x, hw, rfl, hhigh, hlow⟩
    obtain ⟨rfl, -⟩ := eq_of_single_eq_lone hw
    obtain ⟨rfl, -⟩ := head?_decode hb
    exact hpair ⟨hhigh, hlow⟩

theorem decodes_decode (list : List UInt16) : Decodes list (decode list) :=
  ⟨flatMap_decode list, half_decode list, isChain_decode list⟩

theorem decode_append_ofChar (c : Char) (list : List UInt16) :
    decode (ofChar c ++ list) = .char c :: decode list := by
  obtain ⟨u, hunits, hhigh, hlow, rfl⟩ | ⟨u, v, hunits, hhigh, hlow, rfl⟩ := ofChar_cases c
  · rw [hunits, List.singleton_append, decode_cons fun v _ h => hhigh h.1, single,
      if_neg (not_or.mpr ⟨hhigh, hlow⟩)]
  · rw [hunits]
    exact decode_pair hhigh hlow list

/-- The first unit of symbols, if it is a second half, is a symbol. -/
theorem head?_eq_lone {symbols : List Symbol} (hv : v ∈ (symbols.flatMap Symbol.units).head?)
    (hlow : IsLow v) : Symbol.lone v ∈ symbols.head? := by
  cases symbols with
  | nil => cases hv
  | cons a symbols =>
    rw [List.flatMap_cons] at hv
    cases a with
    | char c =>
      obtain ⟨u, hunits, -, hnot, -⟩ | ⟨u, w, hunits, hhigh, -⟩ := ofChar_cases c
      · rw [Symbol.units, hunits] at hv
        cases hv
        exact absurd hlow hnot
      · rw [Symbol.units, hunits] at hv
        cases hv
        exact absurd hlow (not_isLow_of_isHigh hhigh)
    | lone u =>
      cases hv
      rfl

/-- Symbols of units are the ones found from the front. -/
theorem decode_flatMap {symbols : List Symbol}
    (hhalf : ∀ u, Symbol.lone u ∈ symbols → IsHigh u ∨ IsLow u)
    (halone : symbols.IsChain fun a b => ¬ Missed a b) :
    decode (symbols.flatMap Symbol.units) = symbols := by
  induction symbols with
  | nil => rfl
  | cons a symbols ih =>
    obtain ⟨hnext, hrest⟩ := List.isChain_cons.mp halone
    have ih := ih (fun u hu => hhalf u (List.mem_cons_of_mem a hu)) hrest
    rw [List.flatMap_cons]
    cases a with
    | char c =>
      show decode (ofChar c ++ _) = _
      rw [decode_append_ofChar, ih]
    | lone u =>
      show decode (u :: symbols.flatMap Symbol.units) = _
      have hsingle : single u = .lone u := if_pos (hhalf u List.mem_cons_self)
      rw [decode_cons fun v hv hpair => ?_, hsingle, ih]
      exact hnext _ (head?_eq_lone hv hpair.2) ⟨u, v, rfl, rfl, hpair⟩

/-- **Every list of units has exactly one list of symbols.** -/
theorem decodes_iff {symbols : List Symbol} : Decodes list symbols ↔ symbols = decode list := by
  constructor
  · rintro ⟨rfl, hhalf, halone⟩
    exact (decode_flatMap hhalf halone).symm
  · rintro rfl
    exact decodes_decode list

theorem decode_ofChars (s : List Char) : decode (s.flatMap ofChar) = s.map .char := by
  induction s with
  | nil => rfl
  | cons c s ih => rw [List.flatMap_cons, decode_append_ofChar, ih, List.map_cons]

end Utf16

/-! ## Written units -/

namespace Bytes

open Utf16

variable {u v : UInt16} {b : UInt8} {n : Nat} {piece piece' rest : Bytes}

/-- A hexadecimal digit of either case. -/
def WritesDigit (n : Nat) (b : UInt8) : Prop :=
  (ascii "0123456789abcdef")[n]? = some b ∨ (ascii "0123456789ABCDEF")[n]? = some b

/-- A unit as a backslash, a letter and four digits. -/
inductive WritesUnit (u : UInt16) : Bytes → Prop
  | intro {h₁ h₂ h₃ h₄ : UInt8} (hh₁ : WritesDigit (u.toNat / 0x1000) h₁)
    (hh₂ : WritesDigit (u.toNat / 0x100 % 0x10) h₂) (hh₃ : WritesDigit (u.toNat / 0x10 % 0x10) h₃)
    (hh₄ : WritesDigit (u.toNat % 0x10) h₄) :
    WritesUnit u [backslash, byte 'u', h₁, h₂, h₃, h₄]

theorem hexValue?_of_writes (h : WritesDigit n b) : hexValue? b = some n := by
  have hread : ∀ {table : Bytes}, table.length = 16 →
      (∀ n < 16, (table[n]?).bind hexValue? = some n) → table[n]? = some b →
      hexValue? b = some n := by
    intro table hlength htable hget
    obtain ⟨hn, -⟩ := List.getElem?_eq_some_iff.mp hget
    have hvalue := htable n (hlength ▸ hn)
    rwa [hget, Option.bind_some] at hvalue
  obtain h | h := h
  · exact hread (by decide) (by decide) h
  · exact hread (by decide) (by decide) h

theorem hexUnit?_of_writes {h₁ h₂ h₃ h₄ : UInt8} (hh₁ : WritesDigit (u.toNat / 0x1000) h₁)
    (hh₂ : WritesDigit (u.toNat / 0x100 % 0x10) h₂) (hh₃ : WritesDigit (u.toNat / 0x10 % 0x10) h₃)
    (hh₄ : WritesDigit (u.toNat % 0x10) h₄) : hexUnit? h₁ h₂ h₃ h₄ = some u.toNat := by
  rw [hexUnit?, hexValue?_of_writes hh₁, hexValue?_of_writes hh₂, hexValue?_of_writes hh₃,
    hexValue?_of_writes hh₄]
  refine congrArg some ?_
  omega

theorem WritesUnit.reads (h : WritesUnit u piece) (rest : Bytes) :
    ∃ digits, piece ++ rest = backslash :: byte 'u' :: digits ∧
      unit? digits = some (u.toNat, rest) := by
  obtain @⟨h₁, h₂, h₃, h₄, hh₁, hh₂, hh₃, hh₄⟩ := h
  refine ⟨h₁ :: h₂ :: h₃ :: h₄ :: rest, rfl, ?_⟩
  rw [unit?, hexUnit?_of_writes hh₁ hh₂ hh₃ hh₄]
  rfl

theorem isHighSurrogate_iff : isHighSurrogate u.toNat = true ↔ IsHigh u := by
  rw [isHighSurrogate, Bool.and_eq_true, decide_eq_true_eq, decide_eq_true_eq, IsHigh]
  omega

theorem isLowSurrogate_iff : isLowSurrogate u.toNat = true ↔ IsLow u := by
  rw [isLowSurrogate, Bool.and_eq_true, decide_eq_true_eq, decide_eq_true_eq, IsLow]
  omega

theorem low?_of_writes (h : WritesUnit v piece) (rest : Bytes) :
    low? (piece ++ rest) = if IsLow v then some (v.toNat, rest) else none := by
  obtain ⟨digits, htext, hunit⟩ := h.reads rest
  rw [htext, low?, if_pos ⟨rfl, rfl⟩, hunit]
  by_cases hlow : IsLow v
  · rw [if_pos hlow, Option.filter_some, if_pos (isLowSurrogate_iff.mpr hlow)]
  · rw [if_neg hlow, Option.filter_some, if_neg (isLowSurrogate_iff.not.mpr hlow)]

theorem surrogatePair_toNat (u v : UInt16) : surrogatePair u.toNat v.toNat = pairPoint u v := rfl

theorem ofCodePoint_of_valid (h : n.isValidChar) :
    ofCodePoint n = String.utf8EncodeChar (Char.ofNat n) :=
  if_pos h

theorem ofCodePoint_unit (hu : ¬ IsHigh u) : ofCodePoint u.toNat = (single u).utf8 := by
  by_cases hlow : IsLow u
  · rw [single, if_pos (.inr hlow), ofCodePoint, if_neg]
    · rfl
    · unfold IsLow at hlow
      unfold Nat.isValidChar
      omega
  · rw [single, if_neg (not_or.mpr ⟨hu, hlow⟩), ofCodePoint_of_valid (isValidChar_of_not hu hlow)]
    rfl

/-- **A unit that makes no pair** with what is behind it is read as its symbol. -/
theorem unescape_single (h : WritesUnit u piece) (hrest : IsHigh u → low? rest = none) :
    unescape (piece ++ rest) = (single u).utf8 ++ unescape rest := by
  obtain ⟨digits, htext, hunit⟩ := h.reads rest
  rw [htext]
  by_cases hhigh : IsHigh u
  · rw [(Reads.unpaired hunit (isHighSurrogate_iff.mpr hhigh) (hrest hhigh)).unescape_eq, single,
      if_pos (.inl hhigh)]
    rfl
  · rw [(Reads.single hunit (Bool.eq_false_iff.mpr (isHighSurrogate_iff.not.mpr hhigh))).unescape_eq,
      ofCodePoint_unit hhigh]

/-- **Two units that make a pair** are read as its character. -/
theorem unescape_pair (hu : WritesUnit u piece) (hv : WritesUnit v piece') (hhigh : IsHigh u)
    (hlow : IsLow v) (rest : Bytes) : unescape (piece ++ (piece' ++ rest)) =
      (Symbol.char (pairChar u v)).utf8 ++ unescape rest := by
  obtain ⟨digits, htext, hunit⟩ := hu.reads (piece' ++ rest)
  have hpair : low? (piece' ++ rest) = some (v.toNat, rest) := by
    rw [low?_of_writes hv, if_pos hlow]
  rw [htext, (Reads.pair hunit (isHighSurrogate_iff.mpr hhigh) hpair).unescape_eq,
    surrogatePair_toNat, ofCodePoint_of_valid (isValidChar_pairPoint hhigh hlow)]
  rfl

/-- Written units are read as their symbols. -/
theorem unescape_flatten {list : List UInt16} {pieces : List Bytes}
    (h : List.Forall₂ WritesUnit list pieces) :
    unescape pieces.flatten = (decode list).flatMap Symbol.utf8 := by
  fun_induction decode list generalizing pieces with
  | case1 =>
    cases h
    rfl
  | case2 u =>
    cases h with
    | cons hu hnil =>
      cases hnil
      rw [List.flatten_cons, unescape_single hu fun _ => rfl]
      rfl
  | case3 u v list hpair ih =>
    obtain _ | ⟨hu, _ | ⟨hv, hlist⟩⟩ := h
    rw [List.flatten_cons, List.flatten_cons, unescape_pair hu hv hpair.1 hpair.2, ih hlist,
      List.flatMap_cons]
  | case4 u v list hpair ih =>
    obtain _ | @⟨_, piece, _, pieces, hu, hlist⟩ := h
    have hnone : IsHigh u → low? pieces.flatten = none := by
      intro hhigh
      obtain _ | ⟨hv, hlist⟩ := hlist
      rw [List.flatten_cons, low?_of_writes hv, if_neg fun hlow => hpair ⟨hhigh, hlow⟩]
    rw [List.flatten_cons, unescape_single hu hnone, ih hlist, List.flatMap_cons]

/-- **Units of 16 bits, each written by four digits of either case, are read as UTF-16**: as the UTF-8
of the only list of symbols that has these units, with one question mark for each unit that is no part
of a character. A text of which all units are written is read as its own UTF-8. -/
theorem unescape_units {list : List UInt16} {pieces : List Bytes}
    (h : List.Forall₂ WritesUnit list pieces) :
    (∃ symbols, (∀ other, Decodes list other ↔ other = symbols) ∧
      unescape pieces.flatten = symbols.flatMap Symbol.utf8) ∧
    ∀ s : String, s.toList.flatMap ofChar = list → unescape pieces.flatten = Bytes.ofText s := by
  refine ⟨⟨decode list, fun _ => decodes_iff, unescape_flatten h⟩, ?_⟩
  rintro s rfl
  rw [unescape_flatten h, decode_ofChars, List.flatMap_map]
  rfl

/-- A pair in mixed case, and a first half that no second one follows. -/
theorem unescape_units_mixed :
    List.Forall₂ WritesUnit [0xD83D, 0xDE00, 0xD800, 0x41]
        [ascii "\\ud83D", ascii "\\uDe00", ascii "\\uD800", ascii "\\u0041"] ∧
      unescape (ascii "\\ud83D\\uDe00\\uD800\\u0041") = Bytes.ofText "😀?A" := by
  have h : List.Forall₂ WritesUnit [0xD83D, 0xDE00, 0xD800, 0x41]
      [ascii "\\ud83D", ascii "\\uDe00", ascii "\\uD800", ascii "\\u0041"] := by
    refine .cons ?_ (.cons ?_ (.cons ?_ (.cons ?_ .nil)))
    · exact .intro (.inl rfl) (.inl rfl) (.inl rfl) (.inr rfl)
    · exact .intro (.inr rfl) (.inl rfl) (.inl rfl) (.inl rfl)
    · exact .intro (.inr rfl) (.inl rfl) (.inl rfl) (.inl rfl)
    · exact .intro (.inl rfl) (.inl rfl) (.inl rfl) (.inl rfl)
  obtain ⟨⟨symbols, hsymbols, hread⟩, -⟩ := unescape_units h
  have hdecode : Decodes [0xD83D, 0xDE00, 0xD800, 0x41] [.char '😀', .lone 0xD800, .char 'A'] :=
    decodes_iff.mpr (by decide)
  obtain rfl := (hsymbols _).mp hdecode
  exact ⟨h, hread⟩

end Bytes

end Bytework
