import Bytework.Proofs.Bytes.Occurrences
import Bytework.Screen.Scan

/-!
# What a scan finds

The tests of a scan in terms of the pieces of an input.

* `hasPhrase_iff`: a phrase of a table is a piece of the input.
* `Handler`, `namesEvent_iff`: the head of an event handler, with what stands after it.
* `hasHandlerFrom_iff`: a search that starts again behind each `on` misses none; `hasHandler_iff`: an
  event handler, with what stands before it.
* `any_splitOnP_iff`, `hasEncodedRun_iff`: a long run of encoded bytes is a piece of the input.
-/

namespace Bytework.Screen

variable {s : Bytes}

theorem hasPhrase_iff {phrases : List Bytes} :
    hasPhrase phrases s = true ↔ ∃ phrase ∈ phrases, phrase <:+: s := by
  simp only [hasPhrase, List.any_eq_true, Bytes.includes_iff]

/-! ## Event handlers -/

/-- The head of an event handler: the word `on`, the name of the event, spaces and an equals sign. -/
def handlerHead (name : Bytes) (spaces : Nat) : Bytes :=
  ascii "on" ++ (name ++ (List.replicate spaces space ++ [byte '=']))

theorem handlerHead_append (name rest : Bytes) (spaces : Nat) : handlerHead name spaces ++ rest =
    ascii "on" ++ (name ++ (List.replicate spaces space ++ byte '=' :: rest)) := by
  simp [handlerHead]

/-- A text that starts with the head of an event handler. -/
structure Handler (s name rest : Bytes) (spaces : Nat) : Prop where
  eq_append : s = handlerHead name spaces ++ rest
  minEventName_le : minEventName ≤ name.length
  isLower : ∀ b ∈ name, isLower b = true

theorem takeWhile_eq_replicate (a : UInt8) (s : Bytes) :
    s.takeWhile (· == a) = List.replicate (s.takeWhile (· == a)).length a :=
  List.eq_replicate_of_mem fun b hb => by
    have hall := List.all_takeWhile (p := (· == a)) (l := s)
    exact beq_iff_eq.mp (List.all_eq_true.mp hall b hb)

theorem not_isLower_behind_name (spaces : Nat) (rest : Bytes) :
    ∀ b ∈ (List.replicate spaces space ++ byte '=' :: rest).head?, isLower b = false := by
  cases spaces <;> rintro b ⟨⟩ <;> decide

theorem namesEvent_iff : namesEvent s = true ↔
    ∃ name rest spaces, Handler (ascii "on" ++ s) name rest spaces := by
  constructor
  · intro h
    simp only [namesEvent, Bool.and_eq_true, decide_eq_true_eq, beq_iff_eq] at h
    obtain ⟨hname, hequals⟩ := h
    obtain ⟨rest, hrest⟩ := List.head?_eq_some_iff.mp hequals
    refine ⟨s.takeWhile isLower, rest, ((s.dropWhile isLower).takeWhile (· == space)).length,
      ?_, hname, fun b hb => List.all_eq_true.mp List.all_takeWhile b hb⟩
    rw [handlerHead_append, ← hrest, ← takeWhile_eq_replicate, List.takeWhile_append_dropWhile,
      List.takeWhile_append_dropWhile]
  · rintro ⟨name, rest, spaces, heq, hlength, hlower⟩
    rw [handlerHead_append] at heq
    obtain rfl := List.append_cancel_left heq
    have hspaces : ∀ b ∈ List.replicate spaces space, (b == space) = true := fun b hb =>
      beq_iff_eq.mpr (List.eq_of_mem_replicate hb)
    have hequals : ∀ b ∈ (byte '=' :: rest).head?, (b == space) = false := by
      rintro b ⟨⟩
      decide
    have hname := not_isLower_behind_name spaces rest
    simp only [namesEvent, Bytes.takeWhile_append_stop hlower hname,
      Bytes.dropWhile_append_stop hlower hname, Bytes.dropWhile_append_stop hspaces hequals,
      decide_eq_true hlength]
    simp

theorem startsHandler_append (front text : Bytes) : startsHandler (front ++ text) front.length =
    (!front.getLast?.any isAlnum && namesEvent (text.drop 2)) := by
  have hlast : (decide (0 < front.length) && (front ++ text)[front.length - 1]?.any isAlnum) =
      front.getLast?.any isAlnum := by
    cases front with
    | nil => rfl
    | cons b front =>
      rw [List.getElem?_append_left (by simp), List.getLast?_eq_getElem?]
      simp
  rw [startsHandler, hlast, List.drop_length_add_append]

theorem not_on_succ {i : Nat} (h : ascii "on" <+: s.drop i) : ¬ ascii "on" <+: s.drop (i + 1) := by
  obtain ⟨rest, hrest⟩ := h
  rw [← List.drop_drop, ← hrest]
  rintro ⟨rest', hrest'⟩
  exact absurd (List.cons.inj hrest').1 (by decide)

theorem exists_append_of_on {i : Nat} (h : ascii "on" <+: s.drop i) :
    ∃ front behind, front.length = i ∧ s = front ++ (ascii "on" ++ behind) := by
  have hlength := h.length_le
  obtain ⟨behind, hbehind⟩ := h
  refine ⟨s.take i, behind, ?_, by rw [hbehind, List.take_append_drop]⟩
  have hon : (ascii "on").length = 2 := rfl
  rw [List.length_drop] at hlength
  rw [List.length_take]
  omega

/-- **No handler is missed**, however many an `on` is rejected before it. -/
theorem hasHandlerFrom_iff {start : Nat} : hasHandlerFrom s start = true ↔
    ∃ i, start ≤ i ∧ ascii "on" <+: s.drop i ∧ startsHandler s i = true := by
  fun_induction hasHandlerFrom s start with
  | case1 start hnone =>
    refine ⟨fun h => absurd h Bool.false_ne_true, ?_⟩
    rintro ⟨i, hi, hon, -⟩
    obtain ⟨j, rfl⟩ := Nat.exists_eq_add_of_le hi
    rw [← List.drop_drop] at hon
    obtain ⟨k, -, hsome⟩ := Bytes.exists_indexOf?_le hon
    rw [hnone] at hsome
    cases hsome
  | case2 start k hsome ih =>
    have hfirst := Bytes.indexOf?_eq_some_iff.mp hsome
    have hon : ascii "on" <+: s.drop (start + k) := by
      rw [← List.drop_drop]
      exact hfirst.occurs
    rw [Bool.or_eq_true, ih]
    constructor
    · rintro (hstarts | ⟨i, hi, hon', hstarts⟩)
      · exact ⟨start + k, Nat.le_add_right _ _, hon, hstarts⟩
      · exact ⟨i, by omega, hon', hstarts⟩
    · rintro ⟨i, hi, hon', hstarts⟩
      obtain ⟨j, rfl⟩ := Nat.exists_eq_add_of_le hi
      have hkj : k ≤ j := Nat.not_lt.mp fun hlt => hfirst.first j hlt (by rwa [List.drop_drop])
      -- the search passes over one more position, where no `on` can start
      rcases Nat.lt_or_ge j (k + 2) with hlt | hge
      · obtain rfl | rfl : j = k ∨ j = k + 1 := by omega
        · exact .inl hstarts
        · exact absurd hon' (not_on_succ hon)
      · exact .inr ⟨start + j, by omega, hon', hstarts⟩

/-- An input has an event handler if the text of one starts somewhere, and not within a word. -/
theorem hasHandler_iff : hasHandler s = true ↔
    ∃ front text, s = front ++ text ∧ (∀ b ∈ front.getLast?, isAlnum b = false) ∧
      ∃ name rest spaces, Handler text name rest spaces := by
  have happend : ∀ front behind : Bytes,
      startsHandler (front ++ (ascii "on" ++ behind)) front.length = true ↔
        (∀ b ∈ front.getLast?, isAlnum b = false) ∧
          ∃ name rest spaces, Handler (ascii "on" ++ behind) name rest spaces := by
    intro front behind
    have hbehind : (ascii "on" ++ behind).drop 2 = behind := rfl
    rw [startsHandler_append, hbehind, Bool.and_eq_true, namesEvent_iff]
    cases front.getLast? <;> simp
  rw [hasHandler, hasHandlerFrom_iff]
  constructor
  · rintro ⟨i, -, hon, hstarts⟩
    obtain ⟨front, behind, rfl, rfl⟩ := exists_append_of_on hon
    exact ⟨front, _, rfl, (happend front behind).mp hstarts⟩
  · rintro ⟨front, text, rfl, hapart, name, rest, spaces, hhandler⟩
    obtain ⟨behind, rfl⟩ : ascii "on" <+: text := by
      rw [hhandler.eq_append, handlerHead_append]
      exact List.prefix_append _ _
    have hstarts := (happend front behind).mpr ⟨hapart, name, rest, spaces, hhandler⟩
    refine ⟨front.length, Nat.zero_le _, ?_, hstarts⟩
    rw [List.drop_left]
    exact List.prefix_append _ _

theorem has_script_iff : (scan s).has .script = true ↔
    hasPhrase scriptPhrases s.lower = true ∨ hasHandler s.lower = true := Bool.or_eq_true_iff

/-! ## Encoded runs -/

/-- The pieces of a string cut at the bytes in `p` start with the run before the first such byte. -/
theorem splitOnP_eq_cons (p : UInt8 → Bool) (s : Bytes) :
    ∃ pieces, s.splitOnP p = s.takeWhile (!p ·) :: pieces := by
  induction s with
  | nil => exact ⟨[], List.splitOnP_nil⟩
  | cons b s ih =>
    obtain ⟨pieces, hpieces⟩ := ih
    rw [List.splitOnP_cons_eq_if_modifyHead, List.takeWhile_cons]
    cases p b with
    | true => exact ⟨_, rfl⟩
    | false => exact ⟨pieces, by rw [hpieces]; rfl⟩

theorem le_length_takeWhile_iff {p : UInt8 → Bool} {k : Nat} :
    k ≤ (s.takeWhile p).length ↔ ∃ run, run <+: s ∧ k ≤ run.length ∧ ∀ b ∈ run, p b = true := by
  constructor
  · intro h
    exact ⟨s.takeWhile p, List.takeWhile_prefix p, h, List.all_eq_true.mp List.all_takeWhile⟩
  · rintro ⟨run, ⟨rest, rfl⟩, hlength, hrun⟩
    rw [List.takeWhile_append_of_pos hrun, List.length_append]
    omega

/-- A piece between the bytes in `p` is long if a long piece of the string has none of them. -/
theorem any_splitOnP_iff {p : UInt8 → Bool} {k : Nat} :
    (s.splitOnP p).any (decide <| k ≤ ·.length) = true ↔
      ∃ run, run <:+: s ∧ k ≤ run.length ∧ ∀ b ∈ run, p b = false := by
  induction s with
  | nil => simp
  | cons b s ih =>
    have hsplit : (∃ run, run <:+: b :: s ∧ k ≤ run.length ∧ ∀ c ∈ run, p c = false) ↔
        k ≤ ((b :: s).takeWhile (!p ·)).length ∨ (s.splitOnP p).any (decide <| k ≤ ·.length) = true := by
      rw [ih, le_length_takeWhile_iff, ← exists_or]
      refine exists_congr fun run => ?_
      simp only [List.infix_cons_iff, Bool.not_eq_true', or_and_right]
    obtain ⟨pieces, hpieces⟩ := splitOnP_eq_cons p s
    rw [hsplit, List.splitOnP_cons_eq_if_modifyHead, hpieces]
    cases hb : p b with
    | true => simp [hb]
    | false =>
      -- the run from the start of `b :: s` is longer than the one from the start of `s`
      have hlonger : k ≤ (s.takeWhile (!p ·)).length → k ≤ (s.takeWhile (!p ·)).length + 1 :=
        fun h => Nat.le_succ_of_le h
      simp only [Bool.false_eq_true, if_false, List.modifyHead_cons, List.takeWhile_cons, hb,
        Bool.not_false, if_true, List.any_cons, List.length_cons, Bool.or_eq_true, decide_eq_true_eq]
      rw [← or_assoc, or_iff_left_of_imp hlonger]

theorem hasEncodedRun_iff : hasEncodedRun s = true ↔
    ∃ run, run <:+: s ∧ minEncodedRun ≤ run.length ∧ ∀ b ∈ run, isEncodedByte b = true := by
  rw [hasEncodedRun, any_splitOnP_iff]
  simp only [Bool.not_eq_false']

end Bytework.Screen
