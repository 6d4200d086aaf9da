import Bytework.Proofs.Bytes.Search
import Bytework.Proofs.Pattern.Parsed
import Bytework.Proofs.Pattern.Written
import Mathlib.Data.List.Basic

/-!
# Quantifiers in a pattern

The texts that are quantifiers, and what the reader of quantifiers makes of any text.

* `IsNumber`, `valueOf`: decimal digits and the number that they write.
* `IsBound`: the text of bounds behind an opening brace; `TooLarge`: its start up to a count that is
  larger than any.
* **`bounds_eq_some_iff`**, **`bounds_eq_none_iff`**: where bounds are read and where nothing is;
  `bounds_tooLarge` and `bounds_of_isBound` say what is an error.
* `IsQuantifier`, `Unopened`: a quantifier without its lazy mark, and a text that starts with none;
  **`quantify_iff`**: an atom is read with exactly such a quantifier, or by itself.
-/

namespace Bytework.Pattern

/-! ## Numbers -/

/-- The number that decimal digits write. -/
def valueOf (ds : Bytes) : Nat := ds.foldl (fun n d => 10 * n + (d.toNat - 48)) 0

/-- Decimal digits, at least one. -/
structure IsNumber (ds : Bytes) : Prop where
  ne_nil : ds ≠ []
  isDigit : ∀ d ∈ ds, isDigit d = true

variable {rest after ds es text : Bytes}

/-- More digits write no smaller number. -/
theorem valueOf_le_append (ds es : Bytes) : valueOf ds ≤ valueOf (ds ++ es) := by
  have hfold : ∀ n, n ≤ es.foldl (fun n d => 10 * n + (d.toNat - 48)) n := by
    induction es with
    | nil => exact fun n => Nat.le_refl n
    | cons e es ih =>
      intro n
      have := ih (10 * n + (e.toNat - 48))
      rw [List.foldl_cons]
      omega
  rw [valueOf, valueOf, List.foldl_append]
  exact hfold _

theorem IsNumber.append (hds : IsNumber ds) (hes : ∀ e ∈ es, Bytework.isDigit e = true) :
    IsNumber (ds ++ es) :=
  ⟨List.append_ne_nil_of_left_ne_nil hds.ne_nil es, List.forall_mem_append.mpr ⟨hds.isDigit, hes⟩⟩

/-- No more digits come first. -/
def DigitsEnd (rest : Bytes) : Prop := ∀ b ∈ rest.head?, isDigit b = false

theorem digitsEnd_nil : DigitsEnd [] := fun b hb => by cases hb

theorem digitsEnd_cons {b : UInt8} : DigitsEnd (b :: rest) ↔ isDigit b = false := by
  simp [DigitsEnd]

theorem exists_digits (rest : Bytes) :
    ∃ ds after, rest = ds ++ after ∧ (∀ d ∈ ds, isDigit d = true) ∧ DigitsEnd after := by
  refine ⟨rest.takeWhile isDigit, rest.dropWhile isDigit, List.takeWhile_append_dropWhile.symm,
    fun d hd => List.all_eq_true.mp List.all_takeWhile d hd, fun b hb => ?_⟩
  have hhead := List.head?_dropWhile_not isDigit rest
  rw [Option.mem_def] at hb
  rwa [hb] at hhead

theorem count_digitsEnd (h : DigitsEnd rest) : count rest = .ok (none, rest) := by
  cases rest with
  | nil => rfl
  | cons b rest => simp [count, digitsEnd_cons.mp h]

theorem count_number (hds : IsNumber ds) (hafter : DigitsEnd after) : count (ds ++ after) =
    if maxRepeat < valueOf ds then failAt .countTooLarge after else .ok (some (valueOf ds), after) := by
  have hwritten := Bytes.takeWhile_append_stop hds.isDigit hafter
  have hleft := Bytes.dropWhile_append_stop hds.isDigit hafter
  have hsome : ds.isEmpty = false := List.isEmpty_eq_false_iff.mpr hds.ne_nil
  simp only [count, hwritten, hleft, hsome, Bool.false_eq_true, if_false]
  rfl

/-! ## Bounds -/

/-- The bounds that a repetition may have. -/
structure InBounds (least : Nat) (most : Option Nat) : Prop where
  least_le : least ≤ maxRepeat
  most_le : ∀ m ∈ most, least ≤ m ∧ m ≤ maxRepeat

/-- The text of bounds, behind the opening brace and with the closing one. -/
inductive IsBound : Bytes → Nat → Option Nat → Prop
  | exactly {ds : Bytes} (hds : IsNumber ds) :
      IsBound (ds ++ [byte '\x7d']) (valueOf ds) (some (valueOf ds))
  | atLeast {ds : Bytes} (hds : IsNumber ds) :
      IsBound (ds ++ [byte ',', byte '\x7d']) (valueOf ds) none
  | between {ds es : Bytes} (hds : IsNumber ds) (hes : IsNumber es) :
      IsBound (ds ++ byte ',' :: (es ++ [byte '\x7d'])) (valueOf ds) (some (valueOf es))

/-- A text that starts as bounds do, up to a count that is larger than any. -/
inductive TooLarge : Bytes → Prop
  | least {ds : Bytes} (hds : IsNumber ds) (hlarge : maxRepeat < valueOf ds) : TooLarge ds
  | most {ds es : Bytes} (hds : IsNumber ds) (hle : valueOf ds ≤ maxRepeat) (hes : IsNumber es)
      (hlarge : maxRepeat < valueOf es) : TooLarge (ds ++ byte ',' :: es)

theorem TooLarge.append (h : TooLarge text) (hes : ∀ e ∈ es, isDigit e = true) :
    TooLarge (text ++ es) := by
  cases h with
  | least hds hlarge => exact .least (hds.append hes) (Nat.lt_of_lt_of_le hlarge (valueOf_le_append _ _))
  | most hds hle hnumber hlarge =>
    rw [List.append_assoc, List.cons_append]
    exact .most hds hle (hnumber.append hes) (Nat.lt_of_lt_of_le hlarge (valueOf_le_append _ _))

section Bounds

variable {least : Nat} {most : Option Nat}

theorem bounds_digitsEnd (h : DigitsEnd rest) : bounds rest = .ok none := by
  rw [bounds, count_digitsEnd h]

/-- Bounds that start with a number. -/
theorem bounds_number (hds : IsNumber ds) (hle : valueOf ds ≤ maxRepeat) (hafter : DigitsEnd after) :
    bounds (ds ++ after) = (mostCount (valueOf ds) after).bind fun r =>
      closeBounds (valueOf ds) r.1 r.2 := by
  rw [bounds, count_number hds hafter, if_neg (Nat.not_lt.mpr hle)]
  simp only
  split
  · rename_i herror
    rw [herror]
    rfl
  · rename_i hok
    rw [hok]
    rfl

theorem mostCount_comma (rest : Bytes) : mostCount least (byte ',' :: rest) = count rest := by
  rw [mostCount, if_pos rfl]

theorem closeBounds_brace (rest : Bytes) : closeBounds least most (byte '\x7d' :: rest) =
    if most.any (· < least) then failAt .boundsOutOfOrder rest
    else .ok (some (least, most, rest)) := by
  rw [closeBounds, if_pos rfl]

theorem digitsEnd_comma : DigitsEnd (byte ',' :: rest) := digitsEnd_cons.mpr (by decide)

theorem digitsEnd_brace : DigitsEnd (byte '\x7d' :: rest) := digitsEnd_cons.mpr (by decide)

/-- A count that is too large is an error, whether or not bounds come of it. -/
theorem bounds_tooLarge (h : TooLarge text) (hafter : DigitsEnd after) :
    bounds (text ++ after) = failAt .countTooLarge after := by
  cases h with
  | least hds hlarge =>
    rw [bounds, count_number hds hafter, if_pos hlarge]
    rfl
  | most hds hle hes hlarge =>
    rw [List.append_assoc, List.cons_append, bounds_number hds hle digitsEnd_comma, mostCount_comma,
      count_number hes hafter, if_pos hlarge]
    rfl

/-- Bounds up to the largest count are read to their closing brace. -/
theorem bounds_isBound (h : IsBound text least most) (hleast : least ≤ maxRepeat)
    (hmost : ∀ m ∈ most, m ≤ maxRepeat) (after : Bytes) : bounds (text ++ after) =
      if most.any (· < least) then failAt .boundsOutOfOrder after
      else .ok (some (least, most, after)) := by
  cases h with
  | exactly hds =>
    rw [List.append_assoc, List.singleton_append, bounds_number hds hleast digitsEnd_brace,
      mostCount, if_neg (by decide)]
    exact closeBounds_brace after
  | atLeast hds =>
    rw [List.append_assoc, List.cons_append, bounds_number hds hleast digitsEnd_comma,
      mostCount_comma, List.singleton_append, count_digitsEnd digitsEnd_brace, Except.bind]
    exact closeBounds_brace after
  | between hds hes =>
    rw [List.append_assoc, List.cons_append, bounds_number hds hleast digitsEnd_comma,
      mostCount_comma, List.append_assoc, List.singleton_append, count_number hes digitsEnd_brace,
      if_neg (Nat.not_lt.mpr (hmost _ rfl))]
    exact closeBounds_brace after

/-- Bounds beyond the largest count start with a count that is too large. -/
theorem IsBound.tooLarge (h : IsBound text least most)
    (hlarge : maxRepeat < least ∨ ∃ m ∈ most, maxRepeat < m) :
    ∃ big more, text = big ++ more ∧ TooLarge big ∧ ∀ after, DigitsEnd (more ++ after) := by
  cases h with
  | @exactly ds hds =>
    have hlarge : maxRepeat < valueOf ds := by simpa using hlarge
    exact ⟨ds, _, rfl, .least hds hlarge, fun after => digitsEnd_brace⟩
  | @atLeast ds hds =>
    have hlarge : maxRepeat < valueOf ds := by simpa using hlarge
    exact ⟨ds, _, rfl, .least hds hlarge, fun after => digitsEnd_comma⟩
  | @between ds es hds hes =>
    by_cases hle : valueOf ds ≤ maxRepeat
    · have hlarge : maxRepeat < valueOf es := by simpa [Nat.not_lt.mpr hle] using hlarge
      refine ⟨ds ++ byte ',' :: es, [byte '\x7d'], by simp, .most hds hle hes hlarge, fun after => ?_⟩
      exact digitsEnd_brace
    · exact ⟨ds, _, rfl, .least hds (Nat.not_le.mp hle), fun after => digitsEnd_comma⟩

/-- **Where bounds start**, they are read if they are as they may be, and else there is an error. -/
theorem bounds_of_isBound (h : IsBound text least most) (after : Bytes) :
    (InBounds least most ∧ bounds (text ++ after) = .ok (some (least, most, after))) ∨
      ¬ InBounds least most ∧ ∃ error left, bounds (text ++ after) = .error ⟨error, left⟩ ∧
        (error = .countTooLarge ∨ error = .boundsOutOfOrder) := by
  by_cases hlarge : maxRepeat < least ∨ ∃ m ∈ most, maxRepeat < m
  · obtain ⟨big, more, rfl, hbig, hmore⟩ := h.tooLarge hlarge
    rw [List.append_assoc, bounds_tooLarge hbig (hmore after)]
    refine .inr ⟨fun hin => ?_, _, _, rfl, .inl rfl⟩
    rcases hlarge with hlarge | ⟨m, hm, hlarge⟩
    · exact absurd hin.least_le (Nat.not_le.mpr hlarge)
    · exact absurd (hin.most_le m hm).2 (Nat.not_le.mpr hlarge)
  · simp only [not_or, Nat.not_lt, not_exists, not_and] at hlarge
    obtain ⟨hleast, hmost⟩ := hlarge
    rw [bounds_isBound h hleast hmost]
    by_cases hdisordered : most.any (· < least) = true
    · rw [if_pos hdisordered]
      refine .inr ⟨fun hin => ?_, _, _, rfl, .inr rfl⟩
      cases most with
      | none => cases hdisordered
      | some m =>
        have hlt : m < least := by simpa using hdisordered
        exact absurd (hin.most_le m rfl).1 (Nat.not_le.mpr hlt)
    · rw [if_neg hdisordered]
      refine .inl ⟨⟨hleast, fun m hm => ⟨?_, hmost m hm⟩⟩, rfl⟩
      subst hm
      simpa using hdisordered

theorem bounds_of_prefix_tooLarge (h : TooLarge text) (after : Bytes) :
    ∃ after', bounds (text ++ after) = failAt .countTooLarge after' := by
  obtain ⟨es, after', rfl, hes, hend⟩ := exists_digits after
  refine ⟨after', ?_⟩
  rw [← List.append_assoc]
  exact bounds_tooLarge (h.append hes) hend

theorem closeBounds_eq_none (h : ¬ [byte '\x7d'] <+: rest) :
    closeBounds least most rest = .ok none := by
  cases rest with
  | nil => rfl
  | cons b rest =>
    refine if_neg fun hb => h ?_
    rw [hb]
    exact List.prefix_append [byte '\x7d'] rest

/-- A text that starts neither as bounds nor with a count that is too large. -/
def Unbounded (rest : Bytes) : Prop :=
  ∀ text, text <+: rest → (∀ least most, ¬ IsBound text least most) ∧ ¬ TooLarge text

theorem Unbounded.bounds_eq_none (h : Unbounded rest) : bounds rest = .ok none := by
  obtain ⟨ds, after, rfl, hds, hend⟩ := exists_digits rest
  by_cases hne : ds = []
  · rw [hne, List.nil_append]
    exact bounds_digitsEnd hend
  have hds : IsNumber ds := ⟨hne, hds⟩
  have hle : valueOf ds ≤ maxRepeat :=
    Nat.le_of_not_lt fun hlarge => (h ds (List.prefix_append ds after)).2 (.least hds hlarge)
  have hbehind : ∀ {taken least most}, IsBound (ds ++ taken) least most → ¬ taken <+: after :=
    fun hbound htaken => (h _ ((List.prefix_append_right_inj ds).mpr htaken)).1 _ _ hbound
  rw [bounds_number hds hle hend]
  -- nothing may close the bounds behind the number, nor behind a comma and perhaps another number
  cases after with
  | nil => rfl
  | cons b after =>
    by_cases hcomma : b = byte ','
    · subst hcomma
      rw [mostCount_comma]
      obtain ⟨es, after, rfl, hes, hend'⟩ := exists_digits after
      by_cases hne : es = []
      · subst hne
        rw [List.nil_append, count_digitsEnd hend', Except.bind]
        refine closeBounds_eq_none fun hclose => hbehind (.atLeast hds) ?_
        exact (List.prefix_append_right_inj [byte ',']).mpr hclose
      · have hes : IsNumber es := ⟨hne, hes⟩
        have hlarge : ¬ maxRepeat < valueOf es := fun hlarge =>
          (h _ ⟨after, by simp⟩).2 (.most hds hle hes hlarge)
        rw [count_number hes hend', if_neg hlarge, Except.bind]
        refine closeBounds_eq_none fun hclose => hbehind (.between hds hes) ?_
        exact (List.prefix_append_right_inj (byte ',' :: es)).mpr hclose
    · rw [mostCount, if_neg hcomma, Except.bind]
      exact closeBounds_eq_none (hbehind (.exactly hds))

/-- **Nothing is read as bounds** exactly where neither bounds start nor a count is too large. -/
theorem bounds_eq_none_iff : bounds rest = .ok none ↔ Unbounded rest := by
  refine ⟨?_, Unbounded.bounds_eq_none⟩
  rintro h text ⟨after, rfl⟩
  refine ⟨fun least most hbound => ?_, fun hlarge => ?_⟩
  · obtain ⟨-, hread⟩ | ⟨-, error, left, hread, -⟩ := bounds_of_isBound hbound after <;>
      cases h.symm.trans hread
  · obtain ⟨after', hread⟩ := bounds_of_prefix_tooLarge hlarge after
    cases h.symm.trans hread

/-- **What is read as bounds** are the texts of bounds in order, with counts that are not too large. -/
theorem bounds_eq_some_iff : bounds rest = .ok (some (least, most, after)) ↔
    ∃ text, IsBound text least most ∧ InBounds least most ∧ rest = text ++ after := by
  constructor
  · intro h
    have hsome : ¬ Unbounded rest := fun hnone => by cases h.symm.trans hnone.bounds_eq_none
    simp only [Unbounded, not_forall, not_and_or, not_not] at hsome
    obtain ⟨text, ⟨after', rfl⟩, ⟨least', most', hbound⟩ | hlarge⟩ := hsome
    · obtain ⟨hin, hread⟩ | ⟨-, error, left, hread, -⟩ := bounds_of_isBound hbound after'
      · cases h.symm.trans hread
        exact ⟨text, hbound, hin, rfl⟩
      · cases h.symm.trans hread
    · obtain ⟨after'', hread⟩ := bounds_of_prefix_tooLarge hlarge after'
      cases h.symm.trans hread
  · rintro ⟨text, hbound, hin, rfl⟩
    obtain ⟨-, hread⟩ | ⟨hout, -⟩ := bounds_of_isBound hbound after
    · exact hread
    · exact absurd hin hout

/-- A byte of which bounds are made. -/
def isBoundByte (b : UInt8) : Bool := isDigit b || b == byte ',' || b == byte '\x7d'

theorem IsNumber.all_isBoundByte (hds : IsNumber ds) : ds.all isBoundByte = true :=
  List.all_eq_true.mpr fun d hd => by simp [isBoundByte, hds.isDigit d hd]

theorem IsBound.all_isBoundByte (h : IsBound text least most) : text.all isBoundByte = true := by
  have hcomma : isBoundByte (byte ',') = true := by decide
  have hbrace : isBoundByte (byte '\x7d') = true := by decide
  cases h with
  | exactly hds | atLeast hds => simp only [List.all_append, hds.all_isBoundByte, List.all_cons,
      List.all_nil, hcomma, hbrace, Bool.and_self]
  | between hds hes => simp only [List.all_append, hds.all_isBoundByte, hes.all_isBoundByte,
      List.all_cons, List.all_nil, hcomma, hbrace, Bool.and_self]

theorem TooLarge.all_isBoundByte (h : TooLarge text) : text.all isBoundByte = true := by
  have hcomma : isBoundByte (byte ',') = true := by decide
  cases h with
  | least hds _ => exact hds.all_isBoundByte
  | most hds _ hes _ => simp only [List.all_append, hds.all_isBoundByte, hes.all_isBoundByte,
      List.all_cons, hcomma, Bool.and_self]

/-- Whether bounds start depends only on the bytes of which they are made. -/
theorem Unbounded.congr {rest' : Bytes} (h : Unbounded rest)
    (hsame : rest.takeWhile isBoundByte = rest'.takeWhile isBoundByte) : Unbounded rest' := by
  have hstarts : ∀ text, text.all isBoundByte = true → text <+: rest' → text <+: rest := by
    rintro text htext ⟨after, rfl⟩
    rw [List.takeWhile_append_of_pos (List.all_eq_true.mp htext)] at hsame
    have hfront : text <+: rest.takeWhile isBoundByte := by
      rw [hsame]
      exact List.prefix_append _ _
    exact hfront.trans (List.takeWhile_prefix _)
  intro text htext
  refine ⟨fun least most hbound => ?_, fun hlarge => ?_⟩
  · exact (h text (hstarts text hbound.all_isBoundByte htext)).1 least most hbound
  · exact (h text (hstarts text hlarge.all_isBoundByte htext)).2 hlarge

end Bounds

/-! ## Quantifiers -/

/-- A quantifier without its lazy mark: a mark, or bounds between braces. -/
inductive IsQuantifier : Bytes → Nat → Option Nat → Prop
  | mark {b : UInt8} {least : Nat} {most : Option Nat} (h : mark? b = some (least, most)) :
      IsQuantifier [b] least most
  | braced {text : Bytes} {least : Nat} {most : Option Nat} (h : IsBound text least most)
      (hin : InBounds least most) : IsQuantifier (byte '\x7b' :: text) least most

theorem inBounds_of_mark? {b : UInt8} {least : Nat} {most : Option Nat}
    (h : mark? b = some (least, most)) : InBounds least most := by
  obtain ⟨-, rfl, rfl⟩ | ⟨-, rfl, rfl⟩ | ⟨-, rfl, rfl⟩ := mark?_cases h
  · exact ⟨by decide, fun m hm => absurd hm (Option.not_mem_none m)⟩
  · exact ⟨by decide, fun m hm => absurd hm (Option.not_mem_none m)⟩
  · exact ⟨by decide, fun m hm => Option.mem_some_iff.mp hm ▸ by decide⟩

theorem IsQuantifier.inBounds {least : Nat} {most : Option Nat} (h : IsQuantifier text least most) :
    InBounds least most := by
  cases h with
  | mark h => exact inBounds_of_mark? h
  | braced _ hin => exact hin

/-- A text that starts with no mark. -/
def Unmarked (rest : Bytes) : Prop := ∀ b ∈ rest.head?, mark? b = none

theorem unmarked_nil : Unmarked [] := fun b hb => by cases hb

theorem unmarked_cons {b : UInt8} : Unmarked (b :: rest) ↔ mark? b = none := by simp [Unmarked]

/-- A text that starts with no quantifier, nor with a brace and a count behind it that is too large. -/
structure Unopened (rest : Bytes) : Prop where
  unmarked : Unmarked rest
  unbounded : ∀ after, rest = byte '\x7b' :: after → Unbounded after

section Quantifiers

variable {t u : Tree} {least : Nat} {most : Option Nat}

theorem Unmarked.head?_ne (h : Unmarked rest) : rest.head? ≠ some (byte '?') := fun hhead => by
  cases h _ hhead

theorem finishQuantifier_unmarked (greedy : Bool) (h : Unmarked after) :
    finishQuantifier t least most (writeGreedy greedy ++ after) =
      .ok (.rep t least most greedy, after) := by
  rcases after with _ | ⟨b, after⟩
  · cases greedy <;> rfl
  · have hmark : mark? b = none := unmarked_cons.mp h
    have hb : b ≠ byte '?' := by simpa using h.head?_ne
    cases greedy <;> simp [finishQuantifier, writeGreedy, hmark, hb]

/-- **Behind a quantifier** a question mark makes it lazy; after that, another mark is an error. -/
theorem finishQuantifier_cases (t : Tree) (least : Nat) (most : Option Nat) (rest : Bytes) :
    ∃ greedy after, rest = writeGreedy greedy ++ after ∧
      ((Unmarked after ∧ finishQuantifier t least most rest = .ok (.rep t least most greedy, after)) ∨
        ¬ Unmarked after ∧ finishQuantifier t least most rest = failAt .nestedQuantifier after) := by
  obtain ⟨greedy, after, rfl, hlazy⟩ : ∃ greedy after, rest = writeGreedy greedy ++ after ∧
      (greedy = true → after.head? ≠ some (byte '?')) := by
    rcases rest with _ | ⟨b, rest⟩
    · exact ⟨true, [], rfl, by simp⟩
    · by_cases hb : b = byte '?'
      · exact ⟨false, rest, by simp [writeGreedy, hb], by simp⟩
      · exact ⟨true, b :: rest, by simp [writeGreedy], by simp [hb]⟩
  refine ⟨greedy, after, rfl, ?_⟩
  by_cases hmark : Unmarked after
  · exact .inl ⟨hmark, finishQuantifier_unmarked greedy hmark⟩
  · refine .inr ⟨hmark, ?_⟩
    rcases after with _ | ⟨b, after⟩
    · exact absurd unmarked_nil hmark
    · have hsome : (mark? b).isSome = true := by
        rwa [unmarked_cons, ← ne_eq, Option.ne_none_iff_isSome] at hmark
      cases greedy with
      | true =>
        have hb : b ≠ byte '?' := by simpa using hlazy rfl
        simp [finishQuantifier, writeGreedy, hb, hsome]
      | false => simp [finishQuantifier, writeGreedy, hsome]

/-- **What a quantifier ends with**: a question mark if it is lazy, and no other mark. -/
theorem finishQuantifier_iff : finishQuantifier t least most rest = .ok (u, after) ↔
    ∃ greedy, u = .rep t least most greedy ∧ rest = writeGreedy greedy ++ after ∧ Unmarked after := by
  constructor
  · intro h
    obtain ⟨greedy, after', rfl, ⟨hmark, hread⟩ | ⟨-, hread⟩⟩ := finishQuantifier_cases t least most rest
    · cases h.symm.trans hread
      exact ⟨greedy, rfl, rfl, hmark⟩
    · cases h.symm.trans hread
  · rintro ⟨greedy, rfl, rfl, hmark⟩
    exact finishQuantifier_unmarked greedy hmark
theorem IsQuantifier.quantify_eq (h : IsQuantifier text least most) (rest : Bytes) :
    quantify t (text ++ rest) = finishQuantifier t least most rest := by
  cases h with
  | mark h => simp only [List.singleton_append, quantify, h]
  | braced h hin =>
    have hbounds : bounds (_ ++ rest) = .ok (some (least, most, rest)) :=
      bounds_eq_some_iff.mpr ⟨_, h, hin, rfl⟩
    have hmark : mark? (byte '\x7b') = none := by decide
    simp only [List.cons_append, quantify, hmark, if_true, hbounds]

theorem Unopened.quantify_eq (h : Unopened rest) : quantify t rest = .ok (t, rest) := by
  cases rest with
  | nil => rfl
  | cons b rest =>
    have hmark : mark? b = none := h.unmarked b rfl
    rw [quantify, hmark]
    by_cases hb : b = byte '\x7b'
    · subst hb
      simp only [if_true, (h.unbounded rest rfl).bounds_eq_none]
    · exact if_neg hb

/-- **An atom is read with the quantifier behind it**, if there is one; a question mark behind that
makes it lazy, and no other mark may follow. -/
theorem quantify_iff : quantify t rest = .ok (u, after) ↔
    (u = t ∧ rest = after ∧ Unopened rest) ∨
      ∃ text least most greedy, IsQuantifier text least most ∧ u = .rep t least most greedy ∧
        rest = text ++ (writeGreedy greedy ++ after) ∧ Unmarked after := by
  constructor
  · intro h
    cases rest with
    | nil =>
      cases h
      exact .inl ⟨rfl, rfl, ⟨unmarked_nil, fun after hafter => by cases hafter⟩⟩
    | cons b rest =>
      cases hmark : mark? b with
      | some found =>
        rw [quantify, hmark] at h
        obtain ⟨greedy, rfl, rfl, hend⟩ := finishQuantifier_iff.mp h
        exact .inr ⟨[b], _, _, greedy, .mark hmark, rfl, rfl, hend⟩
      | none =>
        have hhead : Unmarked (b :: rest) := unmarked_cons.mpr hmark
        by_cases hb : b = byte '\x7b'
        · subst hb
          simp only [quantify, hmark, if_true] at h
          split at h
          · cases h
          · rename_i hbounds
            cases h
            refine .inl ⟨rfl, rfl, ⟨hhead, fun after hafter => ?_⟩⟩
            cases hafter
            exact bounds_eq_none_iff.mp hbounds
          · rename_i hbounds
            obtain ⟨text, hbound, hin, rfl⟩ := bounds_eq_some_iff.mp hbounds
            obtain ⟨greedy, rfl, rfl, hend⟩ := finishQuantifier_iff.mp h
            exact .inr ⟨_, _, _, greedy, .braced hbound hin, rfl, rfl, hend⟩
        · simp only [quantify, hmark, if_neg hb] at h
          cases h
          exact .inl ⟨rfl, rfl, ⟨hhead, fun after hafter => absurd (List.cons.inj hafter).1 hb⟩⟩
  · rintro (⟨rfl, rfl, h⟩ | ⟨text, least, most, greedy, h, rfl, rfl, hend⟩)
    · exact h.quantify_eq
    · rw [h.quantify_eq]
      exact finishQuantifier_iff.mpr ⟨greedy, rfl, rfl, hend⟩

end Quantifiers

end Bytework.Pattern
