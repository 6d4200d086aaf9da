import Bytework.Bytes.Escape
import Mathlib.Tactic.SplitIfs

/-!
# Escaped strings, read piece by piece

What stands in front of an escaped string is read, and reading goes on behind it.

* `unit?`, `low?`: a unit in front of a text, and the second half of a pair; `unescape_unit`: reading
  behind the letter of a unit in their terms.
* `Reads`: what one round reads and writes; `exists_reads`: there is always one;
  `Reads.unescape_eq`: reading a text is one round and then the rest; `Reads.bounds`: no round writes
  more than it reads.
* `Cursor`: reading by position, where every position and every slice is checked;
  `Cursor.round?_of_reads`, `Cursor.rounds?_eq`: no check fails, and the reading ends.
* **`unescape_escape_bounded`**: what is escaped is read back, and whatever is read, the reading ends in
  bounds with no more than the text.
-/

namespace Bytework.Bytes

variable {s out rest : Bytes} {b c : UInt8}

/-! ## Units in front of a text -/

/-- The unit that the first four bytes of a text write, and what is behind them. -/
def unit? : Bytes → Option (Nat × Bytes)
  | h₁ :: h₂ :: h₃ :: h₄ :: rest => (hexUnit? h₁ h₂ h₃ h₄).map (·, rest)
  | _ => none

/-- The second half of a pair in front of a text, and what is behind it. -/
def low? : Bytes → Option (Nat × Bytes)
  | s :: u :: rest =>
    if s = backslash ∧ u = byte 'u' then (unit? rest).filter fun r => isLowSurrogate r.1 else none
  | _ => none

theorem unit?_eq_none_of_short
    (h : ∀ (h₁ h₂ h₃ h₄ : UInt8) (rest : Bytes), s = h₁ :: h₂ :: h₃ :: h₄ :: rest → False) :
    unit? s = none := by
  unfold unit?
  split
  · exact (h _ _ _ _ _ rfl).elim
  · rfl

theorem eq_cons_of_unit? {unit : Nat} (h : unit? s = some (unit, rest)) :
    ∃ h₁ h₂ h₃ h₄, s = h₁ :: h₂ :: h₃ :: h₄ :: rest ∧ hexUnit? h₁ h₂ h₃ h₄ = some unit := by
  unfold unit? at h
  split at h
  · obtain ⟨u, hu, heq⟩ := Option.map_eq_some_iff.mp h
    cases heq
    exact ⟨_, _, _, _, rfl, hu⟩
  · cases h

theorem eq_cons_of_low? {low : Nat} (h : low? s = some (low, rest)) :
    ∃ l₁ l₂ l₃ l₄, s = backslash :: byte 'u' :: l₁ :: l₂ :: l₃ :: l₄ :: rest ∧
      hexUnit? l₁ l₂ l₃ l₄ = some low ∧ isLowSurrogate low = true := by
  unfold low? at h
  split at h
  · split at h
    · rename_i hmark
      obtain ⟨rfl, rfl⟩ := hmark
      obtain ⟨hunit, hlow⟩ := Option.filter_eq_some_iff.mp h
      obtain ⟨l₁, l₂, l₃, l₄, rfl, hdigits⟩ := eq_cons_of_unit? hunit
      exact ⟨l₁, l₂, l₃, l₄, rfl, hdigits, hlow⟩
    · cases h
  · cases h

theorem low?_eq_none_of_short (h : ∀ (a u l₁ l₂ l₃ l₄ : UInt8) (rest : Bytes),
    s = a :: u :: l₁ :: l₂ :: l₃ :: l₄ :: rest → False) : low? s = none := by
  rw [Option.eq_none_iff_forall_ne_some]
  intro (low, rest) hlow
  obtain ⟨l₁, l₂, l₃, l₄, rfl, -⟩ := eq_cons_of_low? hlow
  exact h _ _ _ _ _ _ _ rfl

/-- **Reading a unit**, alone or as the first half of a pair. -/
theorem unescape_unit (s : Bytes) : unescape (backslash :: byte 'u' :: s) =
    match unit? s with
    | none => byte '?' :: unescape s
    | some (unit, rest) =>
      if isHighSurrogate unit then
        match low? rest with
        | some (low, rest') => ofCodePoint (surrogatePair unit low) ++ unescape rest'
        | none => byte '?' :: unescape rest
      else ofCodePoint unit ++ unescape rest := by
  rw [unescape.eq_def]
  simp only [ne_eq, not_true_eq_false, if_false]
  split
  · rename_i h₁ h₂ h₃ h₄ rest
    rw [unit?]
    cases hexUnit? h₁ h₂ h₃ h₄ with
    | none => rfl
    | some unit =>
      simp only [Option.map_some]
      split
      · split
        · rename_i a u l₁ l₂ l₃ l₄ rest'
          rw [low?, unit?]
          by_cases hmark : a = backslash ∧ u = byte 'u'
          · rw [if_pos hmark, if_pos hmark]
            cases hexUnit? l₁ l₂ l₃ l₄ with
            | none => rfl
            | some low => by_cases hlow : isLowSurrogate low = true <;> simp [hlow, Option.filter]
          · rw [if_neg hmark, if_neg hmark]
        · rename_i hshort
          rw [low?_eq_none_of_short hshort]
      · rfl
  · rename_i hshort
    rw [unit?_eq_none_of_short hshort]

/-! ## One round -/

/-- One round of reading: the text in front of it, what it writes, and the text behind it. -/
inductive Reads : Bytes → Bytes → Bytes → Prop
  /-- A byte that is no backslash is itself. -/
  | plain {b : UInt8} {rest : Bytes} (hb : b ≠ backslash) : Reads (b :: rest) [b] rest
  /-- A backslash at the end is itself. -/
  | last : Reads [backslash] [backslash] []
  /-- A letter behind a backslash is what it stands for. -/
  | letter {c : UInt8} {rest : Bytes} (hc : c ≠ byte 'u') :
    Reads (backslash :: c :: rest) [unescapeLetter c] rest
  /-- A unit without its digits is a question mark, and what is there is read again. -/
  | malformed {rest : Bytes} (h : unit? rest = none) :
    Reads (backslash :: byte 'u' :: rest) [byte '?'] rest
  /-- A unit that opens no pair is its code point. -/
  | single {s rest : Bytes} {unit : Nat} (h : unit? s = some (unit, rest))
    (hunit : isHighSurrogate unit = false) :
    Reads (backslash :: byte 'u' :: s) (ofCodePoint unit) rest
  /-- Two units are the code point of the pair. -/
  | pair {s rest rest' : Bytes} {high low : Nat} (h : unit? s = some (high, rest))
    (hhigh : isHighSurrogate high = true) (hlow : low? rest = some (low, rest')) :
    Reads (backslash :: byte 'u' :: s) (ofCodePoint (surrogatePair high low)) rest'
  /-- The first unit of a pair without a second is a question mark. -/
  | unpaired {s rest : Bytes} {high : Nat} (h : unit? s = some (high, rest))
    (hhigh : isHighSurrogate high = true) (hlow : low? rest = none) :
    Reads (backslash :: byte 'u' :: s) [byte '?'] rest

/-- There is always a round to read. -/
theorem exists_reads (hs : s ≠ []) : ∃ out rest, Reads s out rest := by
  obtain ⟨b, s, rfl⟩ := List.exists_cons_of_ne_nil hs
  by_cases hb : b = backslash
  · subst hb
    cases s with
    | nil => exact ⟨_, _, .last⟩
    | cons c s =>
      by_cases hc : c = byte 'u'
      · subst hc
        cases hunit : unit? s with
        | none => exact ⟨_, _, .malformed hunit⟩
        | some r =>
          by_cases hhigh : isHighSurrogate r.1 = true
          · cases hlow : low? r.2 with
            | none => exact ⟨_, _, .unpaired hunit hhigh hlow⟩
            | some r' => exact ⟨_, _, .pair hunit hhigh hlow⟩
          · exact ⟨_, _, .single hunit (Bool.eq_false_iff.mpr hhigh)⟩
      · exact ⟨_, _, .letter hc⟩
  · exact ⟨_, _, .plain hb⟩

theorem unescape_plain (hb : b ≠ backslash) (rest : Bytes) :
    unescape (b :: rest) = b :: unescape rest := by
  cases rest with
  | nil => rfl
  | cons c rest =>
    rw [unescape.eq_def]
    exact if_pos hb

theorem unescape_letter (hc : c ≠ byte 'u') (rest : Bytes) :
    unescape (backslash :: c :: rest) = unescapeLetter c :: unescape rest := by
  rw [unescape.eq_def]
  simp only [ne_eq, not_true_eq_false, if_false]
  exact if_pos hc

/-- **Reading a text** is one round and then the rest. -/
theorem Reads.unescape_eq (h : Reads s out rest) : unescape s = out ++ unescape rest := by
  cases h with
  | plain hb => exact unescape_plain hb rest
  | last => rfl
  | letter hc => exact unescape_letter hc rest
  | malformed h =>
    rw [unescape_unit, h]
    rfl
  | single h hunit =>
    rw [unescape_unit, h]
    simp only [hunit, Bool.false_eq_true, if_false]
  | pair h hhigh hlow =>
    rw [unescape_unit, h]
    simp only [hhigh, if_true, hlow]
  | unpaired h hhigh hlow =>
    rw [unescape_unit, h]
    simp only [hhigh, if_true, hlow]
    rfl

theorem length_ofCodePoint_le (n : Nat) : (ofCodePoint n).length ≤ 4 := by
  rw [ofCodePoint]
  split
  · rw [String.length_utf8EncodeChar]
    exact Char.utf8Size_le_four _
  · decide

/-- A round takes bytes from the front, and writes no more than it takes. -/
theorem Reads.bounds (h : Reads s out rest) :
    ∃ taken, s = taken ++ rest ∧ out.length ≤ taken.length ∧ taken ≠ [] := by
  cases h with
  | plain => exact ⟨[_], rfl, Nat.le_refl _, List.cons_ne_nil _ _⟩
  | last => exact ⟨[_], rfl, Nat.le_refl _, List.cons_ne_nil _ _⟩
  | letter => exact ⟨[_, _], rfl, by simp, List.cons_ne_nil _ _⟩
  | malformed => exact ⟨[_, _], rfl, by simp, List.cons_ne_nil _ _⟩
  | @single _ _ unit h =>
    obtain ⟨h₁, h₂, h₃, h₄, rfl, -⟩ := eq_cons_of_unit? h
    have hlength := length_ofCodePoint_le unit
    exact ⟨[_, _, _, _, _, _], rfl, by simp; omega, List.cons_ne_nil _ _⟩
  | @pair _ _ _ high low h _ hlow =>
    obtain ⟨h₁, h₂, h₃, h₄, rfl, -⟩ := eq_cons_of_unit? h
    obtain ⟨l₁, l₂, l₃, l₄, rfl, -⟩ := eq_cons_of_low? hlow
    have hlength := length_ofCodePoint_le (surrogatePair high low)
    exact ⟨[_, _, _, _, _, _, _, _, _, _, _, _], rfl, by simp; omega, List.cons_ne_nil _ _⟩
  | unpaired h =>
    obtain ⟨h₁, h₂, h₃, h₄, rfl, -⟩ := eq_cons_of_unit? h
    exact ⟨[_, _, _, _, _, _], rfl, by simp, List.cons_ne_nil _ _⟩

/-- What is read is no longer than the text. -/
theorem length_unescape_le (t : Bytes) : (unescape t).length ≤ t.length := by
  induction hn : t.length using Nat.strongRecOn generalizing t with
  | ind n ih =>
    subst hn
    by_cases ht : t = []
    · subst ht
      exact Nat.le_refl 0
    · obtain ⟨out, rest, h⟩ := exists_reads ht
      obtain ⟨taken, rfl, hout, hne⟩ := h.bounds
      have hpos := List.length_pos_iff.mpr hne
      have hrest := ih rest.length (by rw [List.length_append]; omega) rest rfl
      rw [h.unescape_eq, List.length_append, List.length_append]
      omega

/-! ## What is escaped -/

theorem unescapeLetter_of_escapeLetter? {letter : UInt8} (h : escapeLetter? b = some letter) :
    letter ≠ byte 'u' ∧ unescapeLetter letter = b := by
  unfold escapeLetter? at h
  split_ifs at h with h₁ h₂ h₃ h₄ h₅ h₆ h₇ <;> cases h <;> subst b <;> decide

theorem ne_backslash_of_escapeLetter? (h : escapeLetter? b = none) : b ≠ backslash := by
  rintro rfl
  cases h

theorem escape_cons (b : UInt8) (s : Bytes) : escape (b :: s) =
    (match escapeLetter? b with
    | some letter => [backslash, letter]
    | none => [b]) ++ escape s :=
  List.flatMap_cons

/-- **What is escaped is read back.** -/
theorem unescape_escape (s : Bytes) : unescape (escape s) = s := by
  induction s with
  | nil => rfl
  | cons b s ih =>
    rw [escape_cons]
    cases hletter : escapeLetter? b with
    | none =>
      show unescape (b :: escape s) = b :: s
      rw [unescape_plain (ne_backslash_of_escapeLetter? hletter), ih]
    | some letter =>
      obtain ⟨hne, hback⟩ := unescapeLetter_of_escapeLetter? hletter
      show unescape (backslash :: letter :: escape s) = b :: s
      rw [unescape_letter hne, hback, ih]

/-! ## Reading by position -/

namespace Cursor

/-- Where reading by position is: at a position, or done, with what is written so far. -/
inductive State
  | reading (i : Nat) (out : Bytes)
  | finished (out : Bytes)
  deriving DecidableEq, Repr

/-- The text from a position on, which must not lie behind its end. -/
def from? (s : Bytes) (i : Nat) : Option Bytes := if i ≤ s.length then some (s.drop i) else none

/-- The first bytes of a text, which must have so many. -/
def upTo? (s : Bytes) (n : Nat) : Option Bytes := if n ≤ s.length then some (s.take n) else none

/-- The number that hexadecimal digits write. -/
def hexNumber? (digits : Bytes) : Option Nat :=
  digits.foldlM (fun n b => (hexValue? b).map fun d => n * 16 + d) 0

/-- The unit that the first four bytes of a text write, if they do. -/
def hex? (s : Bytes) : Option (Option Nat) :=
  if s.length < 4 then some none else (upTo? s 4).map hexNumber?

/-- The second half of a pair in front of a text, if there is one. -/
def half? (s : Bytes) : Option (Option Nat) :=
  match s with
  | a :: u :: rest =>
    if a = backslash ∧ u = byte 'u' then (hex? rest).map (·.filter isLowSurrogate) else some none
  | _ => some none

/-- A round behind the letter of a unit. -/
def unitAt? (s : Bytes) (i : Nat) (out : Bytes) : Option State := do
  let tail ← from? s i
  match ← hex? tail with
  | none => some (.reading i (out ++ [byte '?']))
  | some unit =>
    if isHighSurrogate unit then do
      let tail ← from? s (i + 4)
      match ← half? tail with
      | some low => some (.reading (i + 10) (out ++ ofCodePoint (surrogatePair unit low)))
      | none => some (.reading (i + 4) (out ++ [byte '?']))
    else some (.reading (i + 4) (out ++ ofCodePoint unit))

/-- One round of reading by position; `none` if it reads a position or cuts a slice out of range. -/
def round? (s : Bytes) : State → Option State
  | .finished out => some (.finished out)
  | .reading i out =>
    if s.length ≤ i then some (.finished out)
    else do
      let b ← s[i]?
      if b ≠ backslash then some (.reading (i + 1) (out ++ [b]))
      else
        match s[i + 1]? with
        | none => some (.finished (out ++ [backslash]))
        | some c =>
          if c ≠ byte 'u' then some (.reading (i + 2) (out ++ [unescapeLetter c]))
          else unitAt? s (i + 2) out

/-- So many rounds of reading by position. -/
def rounds? (s : Bytes) : Nat → State → Option State
  | 0, state => some state
  | n + 1, state => (round? s state).bind (rounds? s n)

theorem hexNumber?_eq (h₁ h₂ h₃ h₄ : UInt8) : hexNumber? [h₁, h₂, h₃, h₄] = hexUnit? h₁ h₂ h₃ h₄ := by
  simp only [hexNumber?, hexUnit?, List.foldlM_cons, List.foldlM_nil, Option.bind_eq_bind]
  cases hexValue? h₁ <;> cases hexValue? h₂ <;> cases hexValue? h₃ <;> cases hexValue? h₄ <;>
    simp

theorem hex?_eq (s : Bytes) : hex? s = some ((unit? s).map (·.1)) := by
  match s with
  | h₁ :: h₂ :: h₃ :: h₄ :: rest =>
    have hlength : ¬ (h₁ :: h₂ :: h₃ :: h₄ :: rest).length < 4 := by simp
    have htake : (h₁ :: h₂ :: h₃ :: h₄ :: rest).take 4 = [h₁, h₂, h₃, h₄] := rfl
    rw [hex?, if_neg hlength, upTo?, if_pos (Nat.le_of_not_lt hlength), Option.map_some, htake,
      hexNumber?_eq, unit?, Option.map_map]
    cases hexUnit? h₁ h₂ h₃ h₄ <;> rfl
  | [] | [_] | [_, _] | [_, _, _] => rfl

/-- No slice in front of a second half is out of range. -/
theorem half?_eq (s : Bytes) : half? s = some ((low? s).map (·.1)) := by
  match s with
  | a :: u :: rest =>
    rw [half?, low?]
    split
    · rw [hex?_eq]
      cases unit? rest with
      | none => rfl
      | some r => by_cases hlow : isLowSurrogate r.1 = true <;> simp [hlow, Option.filter]
    · rfl
  | [] | [_] => rfl

section Rounds

variable {t tail chunk : Bytes} {i : Nat}

theorem from?_add (taken : Bytes) (hi : i ≤ t.length) (h : t.drop i = taken ++ tail) :
    i + taken.length ≤ t.length ∧ t.drop (i + taken.length) = tail ∧
      from? t (i + taken.length) = some tail := by
  have hlength := congrArg List.length h
  rw [List.length_drop, List.length_append] at hlength
  have hle : i + taken.length ≤ t.length := by omega
  have hdrop : t.drop (i + taken.length) = tail := by
    rw [← List.drop_drop, h, List.drop_left]
  exact ⟨hle, hdrop, by rw [from?, if_pos hle, hdrop]⟩

/-- A round behind the letter of a unit, told by the text that is there. -/
theorem unitAt?_eq (hi : i ≤ t.length) (h : t.drop i = tail) (out : Bytes) :
    unitAt? t i out = some (match unit? tail with
      | none => .reading i (out ++ [byte '?'])
      | some (unit, rest) =>
        if isHighSurrogate unit then
          match low? rest with
          | some (low, _) => .reading (i + 10) (out ++ ofCodePoint (surrogatePair unit low))
          | none => .reading (i + 4) (out ++ [byte '?'])
        else .reading (i + 4) (out ++ ofCodePoint unit)) := by
  have htail : from? t i = some tail := by rw [from?, if_pos hi, h]
  rw [unitAt?, htail, Option.bind_eq_bind, Option.bind_some, hex?_eq, Option.bind_eq_bind,
    Option.bind_some]
  cases hunit : unit? tail with
  | none => rfl
  | some r =>
    obtain ⟨unit, rest⟩ := r
    obtain ⟨h₁, h₂, h₃, h₄, rfl, -⟩ := eq_cons_of_unit? hunit
    obtain ⟨-, -, hrest⟩ := from?_add [h₁, h₂, h₃, h₄] hi h
    by_cases hhigh : isHighSurrogate unit = true
    · simp only [Option.map_some, if_pos hhigh]
      rw [show from? t (i + 4) = some rest from hrest, Option.bind_some, half?_eq, Option.bind_some]
      cases low? rest <;> rfl
    · simp only [Option.map_some, if_neg hhigh]

/-- A round at a byte, told by the text that is there. -/
theorem round?_eq (h : t.drop i = b :: tail) (out : Bytes) :
    round? t (.reading i out) =
      if b ≠ backslash then some (.reading (i + 1) (out ++ [b]))
      else
        match tail.head? with
        | none => some (.finished (out ++ [backslash]))
        | some c =>
          if c ≠ byte 'u' then some (.reading (i + 2) (out ++ [unescapeLetter c]))
          else unitAt? t (i + 2) out := by
  have hlt : ¬ t.length ≤ i := by
    rw [← List.drop_eq_nil_iff, h]
    exact List.cons_ne_nil b tail
  have hget : t[i]? = some b := by rw [← List.head?_drop, h, List.head?_cons]
  have hnext : t[i + 1]? = tail.head? := by
    rw [← List.head?_drop, ← List.drop_drop, h, List.drop_one, List.tail_cons]
  rw [round?, if_neg hlt, hget, Option.bind_eq_bind, Option.bind_some, hnext]

theorem round?_unit (hi : i ≤ t.length) (h : t.drop i = backslash :: byte 'u' :: tail) (out : Bytes) :
    i + 2 ≤ t.length ∧ t.drop (i + 2) = tail ∧
      round? t (.reading i out) = unitAt? t (i + 2) out := by
  obtain ⟨hle, hdrop, -⟩ := from?_add [backslash, byte 'u'] hi h
  refine ⟨hle, hdrop, ?_⟩
  rw [round?_eq h, if_neg (not_not_intro rfl)]
  exact if_neg (not_not_intro rfl)

/-- **A round by position** is a round of reading, and moves on unless the text has ended. -/
theorem round?_of_reads (hi : i ≤ t.length) (h : Reads (t.drop i) chunk rest) (out : Bytes) :
    rest = [] ∧ round? t (.reading i out) = some (.finished (out ++ chunk)) ∨
      ∃ j, i < j ∧ j ≤ t.length ∧ t.drop j = rest ∧
        round? t (.reading i out) = some (.reading j (out ++ chunk)) := by
  -- behind the bytes that a round takes
  have hmove : ∀ taken : Bytes, taken ≠ [] → t.drop i = taken ++ rest →
      round? t (.reading i out) = some (.reading (i + taken.length) (out ++ chunk)) →
      ∃ j, i < j ∧ j ≤ t.length ∧ t.drop j = rest ∧
        round? t (.reading i out) = some (.reading j (out ++ chunk)) := by
    intro taken hne htaken hround
    obtain ⟨hle, hdrop, -⟩ := from?_add taken hi htaken
    have hpos := List.length_pos_iff.mpr hne
    exact ⟨_, by omega, hle, hdrop, hround⟩
  generalize hs : t.drop i = s at h hmove
  cases h with
  | @plain b _ hb =>
    refine .inr (hmove [b] (List.cons_ne_nil _ _) rfl ?_)
    rw [round?_eq hs, if_pos hb]
    rfl
  | last =>
    refine .inl ⟨rfl, ?_⟩
    rw [round?_eq hs, if_neg (not_not_intro rfl)]
    rfl
  | @letter c _ hc =>
    refine .inr (hmove [backslash, c] (List.cons_ne_nil _ _) rfl ?_)
    rw [round?_eq hs, if_neg (not_not_intro rfl)]
    exact if_pos hc
  | malformed h =>
    obtain ⟨hle, hdrop, hround⟩ := round?_unit hi hs out
    refine .inr (hmove [backslash, byte 'u'] (List.cons_ne_nil _ _) rfl ?_)
    rw [hround, unitAt?_eq hle hdrop, h]
    rfl
  | single h hunit =>
    obtain ⟨hle, hdrop, hround⟩ := round?_unit hi hs out
    obtain ⟨h₁, h₂, h₃, h₄, rfl, -⟩ := eq_cons_of_unit? h
    refine .inr (hmove [backslash, byte 'u', h₁, h₂, h₃, h₄] (List.cons_ne_nil _ _) rfl ?_)
    rw [hround, unitAt?_eq hle hdrop, h]
    simp only [hunit, Bool.false_eq_true, if_false]
    rfl
  | pair h hhigh hlow =>
    obtain ⟨hle, hdrop, hround⟩ := round?_unit hi hs out
    obtain ⟨h₁, h₂, h₃, h₄, rfl, -⟩ := eq_cons_of_unit? h
    obtain ⟨l₁, l₂, l₃, l₄, rfl, -⟩ := eq_cons_of_low? hlow
    refine .inr (hmove
      [backslash, byte 'u', h₁, h₂, h₃, h₄, backslash, byte 'u', l₁, l₂, l₃, l₄]
      (List.cons_ne_nil _ _) rfl ?_)
    rw [hround, unitAt?_eq hle hdrop, h]
    simp only [hhigh, if_true, hlow]
    rfl
  | unpaired h hhigh hlow =>
    obtain ⟨hle, hdrop, hround⟩ := round?_unit hi hs out
    obtain ⟨h₁, h₂, h₃, h₄, rfl, -⟩ := eq_cons_of_unit? h
    refine .inr (hmove [backslash, byte 'u', h₁, h₂, h₃, h₄] (List.cons_ne_nil _ _) rfl ?_)
    rw [hround, unitAt?_eq hle hdrop, h]
    simp only [hhigh, if_true, hlow]
    rfl

end Rounds

theorem rounds?_finished (t : Bytes) (n : Nat) (out : Bytes) :
    rounds? t n (.finished out) = some (.finished out) := by
  induction n with
  | zero => rfl
  | succ n ih => exact ih

/-- **Reading by position ends** within as many rounds as there are bytes and one, reads no position
and cuts no slice out of range, and is reading. -/
theorem rounds?_reading {t : Bytes} {i n : Nat} (hi : i ≤ t.length) (hn : t.length - i < n)
    (out : Bytes) :
    rounds? t n (.reading i out) = some (.finished (out ++ unescape (t.drop i))) := by
  induction n generalizing i out with
  | zero => cases hn
  | succ n ih =>
    by_cases hend : t.length ≤ i
    · have hround : round? t (.reading i out) = some (.finished out) := if_pos hend
      rw [rounds?, hround, Option.bind_some, rounds?_finished, List.drop_eq_nil_iff.mpr hend]
      exact congrArg (some ∘ State.finished) (List.append_nil out).symm
    · have hne : t.drop i ≠ [] := by rwa [ne_eq, List.drop_eq_nil_iff]
      obtain ⟨chunk, rest, hreads⟩ := exists_reads hne
      rw [hreads.unescape_eq, rounds?]
      obtain ⟨rfl, hround⟩ | ⟨j, hij, hj, rfl, hround⟩ := round?_of_reads hi hreads out
      · rw [hround, Option.bind_some, rounds?_finished, unescape, List.append_nil]
      · rw [hround, Option.bind_some, ih hj (by omega), List.append_assoc]

theorem rounds?_eq (t : Bytes) :
    rounds? t (t.length + 1) (.reading 0 []) = some (.finished (unescape t)) :=
  rounds?_reading (Nat.zero_le _) (by omega) []

end Cursor

/-- **What is escaped is read back**, whatever the bytes; and whatever text is read, well-formed or
not, reading by position ends within as many rounds as it has bytes and one, never reads or slices out
of range, and gives no more bytes than there are. -/
theorem unescape_escape_bounded :
    (∀ s : Bytes, unescape (escape s) = s) ∧
      ∀ t : Bytes,
        Cursor.rounds? t (t.length + 1) (.reading 0 []) = some (.finished (unescape t)) ∧
          (unescape t).length ≤ t.length :=
  ⟨unescape_escape, fun t => ⟨Cursor.rounds?_eq t, length_unescape_le t⟩⟩

end Bytework.Bytes
