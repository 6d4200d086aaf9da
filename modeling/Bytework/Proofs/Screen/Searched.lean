import Bytework.Proofs.Screen.Scanned

/-!
# The search for an event handler

The search goes from one `on` to the next, and passes over each that starts no handler.

* `HandlerAt`, `handlerAt_iff`: an event handler told by the bytes around a position, and the test of
  a position.
* `Search`: a search that ends after some turns; `exists_search`: every search does.
* **`scan_finds_handler`**: what a scan finds of event handlers, and how soon its search ends.
-/

namespace Bytework.Screen

variable {s : Bytes} {i : Nat}

/-! ## A position -/

/-- An event handler that starts at a position. -/
structure HandlerAt (s : Bytes) (i : Nat) : Prop where
  on : s[i]? = some (byte 'o') ∧ s[i + 1]? = some (byte 'n')
  /-- The word does not go on from what is in front of it. -/
  apart : i = 0 ∨ ∃ b, s[i - 1]? = some b ∧ isAlnum b = false
  /-- Behind `on` the longest run of lower-case letters is long enough to be the name of an event, and
  some spaces and an equals sign come next. -/
  names : ∃ name behind rest spaces, s.drop (i + 2) = name ++ behind ∧ 3 ≤ name.length ∧
    (∀ b ∈ name, isLower b = true) ∧ (∀ b ∈ behind.head?, isLower b = false) ∧
    behind = List.replicate spaces space ++ byte '=' :: rest

theorem prefix_drop_iff : ascii "on" <+: s.drop i ↔
    s[i]? = some (byte 'o') ∧ s[i + 1]? = some (byte 'n') := by
  have hon : ascii "on" = [byte 'o', byte 'n'] := rfl
  rw [← List.head?_drop, ← List.head?_drop, ← List.drop_drop, hon]
  match s.drop i with
  | [] => simp
  | [b] => simp [List.prefix_cons_iff]
  | b :: c :: rest => simp [List.cons_prefix_cons, eq_comm]

theorem startsHandler_iff (hi : i ≤ s.length) : startsHandler s i = true ↔
    (i = 0 ∨ ∃ b, s[i - 1]? = some b ∧ isAlnum b = false) ∧ namesEvent (s.drop (i + 2)) = true := by
  rw [startsHandler, Bool.and_eq_true]
  refine and_congr_left fun _ => ?_
  cases i with
  | zero => simp
  | succ i =>
    rw [Nat.add_sub_cancel, List.getElem?_eq_getElem hi]
    simp

/-- **A position is tested for an event handler.** -/
theorem handlerAt_iff : HandlerAt s i ↔ ascii "on" <+: s.drop i ∧ startsHandler s i = true := by
  constructor
  · rintro ⟨hon, hapart, name, _, rest, spaces, hdrop, hlength, hlower, -, rfl⟩
    have hi : i ≤ s.length := Nat.le_of_lt (List.getElem?_eq_some_iff.mp hon.1).1
    refine ⟨prefix_drop_iff.mpr hon, (startsHandler_iff hi).mpr ⟨hapart, namesEvent_iff.mpr ?_⟩⟩
    exact ⟨name, rest, spaces, by rw [handlerHead_append, hdrop], hlength, hlower⟩
  · rintro ⟨hoccurs, hstarts⟩
    have hon := prefix_drop_iff.mp hoccurs
    have hi : i ≤ s.length := Nat.le_of_lt (List.getElem?_eq_some_iff.mp hon.1).1
    obtain ⟨hapart, hnames⟩ := (startsHandler_iff hi).mp hstarts
    obtain ⟨name, rest, spaces, heq, hlength, hlower⟩ := namesEvent_iff.mp hnames
    rw [handlerHead_append] at heq
    exact ⟨hon, hapart, name, _, rest, spaces, List.append_cancel_left heq, hlength, hlower,
      not_isLower_behind_name spaces rest, rfl⟩

/-! ## The turns of a search -/

/-- A search that starts at a position, looks at some `on` one after the other, and ends with an
answer. It never leaves the text. -/
inductive Search (s : Bytes) : Nat → Nat → Bool → Prop
  | exhausted {start : Nat} (h : Bytes.indexOf? (ascii "on") (s.drop start) = none) :
      Search s start 0 false
  | found {start k : Nat} (h : Bytes.indexOf? (ascii "on") (s.drop start) = some k)
      (hstarts : startsHandler s (start + k) = true) : Search s start 1 true
  | rejected {start k turns : Nat} {answer : Bool}
      (h : Bytes.indexOf? (ascii "on") (s.drop start) = some k)
      (hstarts : startsHandler s (start + k) = false) (hin : start + k + 2 ≤ s.length)
      (hrest : Search s (start + k + 2) turns answer) : Search s start (turns + 1) answer

/-- **Every search ends**, since each turn takes it two bytes further or more. -/
theorem exists_search (s : Bytes) (start : Nat) :
    ∃ turns, 2 * turns ≤ s.length - start ∧ Search s start turns (hasHandlerFrom s start) := by
  fun_induction hasHandlerFrom s start with
  | case1 start hnone => exact ⟨0, Nat.zero_le _, .exhausted hnone⟩
  | case2 start k hsome ih =>
    have hin : start + k + 2 ≤ s.length := by
      have hlength := (Bytes.prefix_of_indexOf? hsome).length_le
      have hon : (ascii "on").length = 2 := rfl
      rw [List.length_drop, List.length_drop] at hlength
      omega
    cases hstarts : startsHandler s (start + k) with
    | true => exact ⟨1, by omega, .found hsome hstarts⟩
    | false =>
      obtain ⟨turns, hturns, hrest⟩ := ih
      exact ⟨turns + 1, by omega, .rejected hsome hstarts hin hrest⟩

/-- **A scan finds the event handlers of an input.** It reports markup if there is a phrase of markup or
the search finds a handler, with the letters in lower case; the search finds one if there is one at
some position, however many `on` it passes over before that; and it ends after a turn for every two
bytes at most. -/
theorem scan_finds_handler (s : Bytes) :
    ((scan s).has .script = true ↔
      hasPhrase scriptPhrases s.lower = true ∨ hasHandler s.lower = true) ∧
    (hasHandler s.lower = true ↔ ∃ i, HandlerAt s.lower i) ∧
    ∃ turns, 2 * turns ≤ s.length ∧ Search s.lower 0 turns (hasHandler s.lower) := by
  refine ⟨has_script_iff, ?_, ?_⟩
  · simp only [hasHandler, hasHandlerFrom_iff, handlerAt_iff, Nat.zero_le, true_and]
  · obtain ⟨turns, hturns, hsearch⟩ := exists_search s.lower 0
    rw [Bytes.length_lower] at hturns
    exact ⟨turns, hturns, hsearch⟩

end Bytework.Screen
