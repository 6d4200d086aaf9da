import Bytework.Bytes.Search
import Mathlib.Data.List.Forall2
import Mathlib.Tactic.SplitIfs

/-!
# Strings with case ignored

Comparing, equating and searching with case ignored is comparing, equating and searching the strings in
lower case.

* `Cases`: one letter in its two cases; `lowerByte_eq_iff_cases`: nothing else is folded together.
* `isAlnum_lowerByte`: folding keeps letters and digits apart from other bytes.
* `getElem?_of_lower_eq`: what is read at one place of two strings that differ at most in case.
* `equalFolded_iff`, `compareFolded_eq`, `includesFolded_eq`: each question is one about the strings in
  lower case.
* `Orders`: an order of strings up to a test of equality.
* **`folded_first`**: the questions agree with one another, and no byte but a letter is folded.
-/

namespace Bytework

/-! ## Bytes -/

/-- One letter in its two cases, the upper case first. -/
def Cases (b c : UInt8) : Prop := isUpper b = true ∧ c = b + 32

section Bytes

variable {b c : UInt8}

/-- **Only the two cases of a letter are folded together.** -/
theorem lowerByte_eq_iff_cases : lowerByte b = lowerByte c ↔ b = c ∨ Cases b c ∨ Cases c b := by
  have hb := b.toNat_lt
  have hc := c.toNat_lt
  simp only [Cases, isUpper_iff, ← UInt8.toNat_inj, toNat_lowerByte, UInt8.toNat_add,
    UInt8.reduceToNat]
  split_ifs <;> omega

theorem lowerByte_eq_iff (b c : UInt8) :
    lowerByte b = lowerByte c ↔ c = b ∨ c = lowerByte b ∨ c = upperByte b := by
  simp only [← UInt8.toNat_inj, toNat_lowerByte, toNat_upperByte]
  split_ifs <;> omega

theorem upperByte_lowerByte (b : UInt8) : upperByte (lowerByte b) = upperByte b := by
  simp only [← UInt8.toNat_inj, toNat_lowerByte, toNat_upperByte]
  split_ifs <;> omega

theorem lowerByte_upperByte (b : UInt8) : lowerByte (upperByte b) = lowerByte b := by
  simp only [← UInt8.toNat_inj, toNat_lowerByte, toNat_upperByte]
  split_ifs <;> omega

theorem sameFolded_iff : sameFolded b c = true ↔ lowerByte b = lowerByte c := beq_iff_eq

theorem lowerByte_of_other (h : isAlpha b = false) : lowerByte b = b :=
  if_neg fun hu => Bool.false_ne_true (h.symm.trans (Bool.or_eq_true_iff.mpr (.inr hu)))

theorem upperByte_of_other (h : isAlpha b = false) : upperByte b = b :=
  if_neg fun hl => Bool.false_ne_true (h.symm.trans (Bool.or_eq_true_iff.mpr (.inl hl)))

theorem Cases.isLower (h : Cases b c) : isLower c = true := by
  obtain ⟨hu, rfl⟩ := h
  rw [isUpper_iff] at hu
  simp only [isLower_iff, UInt8.toNat_add, UInt8.reduceToNat]
  omega

theorem eq_of_lowerByte_eq (h : isAlpha b = false) (hbc : lowerByte b = lowerByte c) : c = b := by
  obtain ⟨hl, hu⟩ := Bool.or_eq_false_iff.mp h
  rcases lowerByte_eq_iff_cases.mp hbc with heq | hcases | hcases
  · exact heq.symm
  · exact absurd (hu.symm.trans hcases.1) Bool.false_ne_true
  · exact absurd (hl.symm.trans hcases.isLower) Bool.false_ne_true

theorem isAlnum_lowerByte (b : UInt8) : isAlnum (lowerByte b) = isAlnum b := by
  cases hu : isUpper b with
  | false => simp [lowerByte, hu]
  | true =>
    have hl : isLower (b + 32) = true := Cases.isLower ⟨hu, rfl⟩
    simp [lowerByte, isAlnum, isAlpha, hu, hl]

end Bytes

namespace Bytes

variable {a b a' b' s t sub : Bytes}

/-! ## Folding first -/

theorem lower_cons (b : UInt8) (s : Bytes) : lower (b :: s) = lowerByte b :: s.lower := rfl

theorem length_eq_of_lower_eq (h : a.lower = b.lower) : a.length = b.length := by
  rw [← length_lower a, h, length_lower]

/-- What is read at one place of two strings that differ at most in case. -/
theorem getElem?_of_lower_eq (h : a.lower = b.lower) (i : Nat) :
    (a[i]? = none ∧ b[i]? = none) ∨
      ∃ x y, a[i]? = some x ∧ b[i]? = some y ∧ lowerByte x = lowerByte y := by
  have hi : a[i]?.map lowerByte = b[i]?.map lowerByte := by
    rw [← List.getElem?_map, ← List.getElem?_map]
    exact congrArg (·[i]?) h
  cases hx : a[i]? with
  | none =>
    rw [hx, Option.map_none, eq_comm, Option.map_eq_none_iff] at hi
    exact Or.inl ⟨rfl, hi⟩
  | some x =>
    rw [hx, Option.map_some, eq_comm, Option.map_eq_some_iff] at hi
    obtain ⟨y, hy, hxy⟩ := hi
    exact Or.inr ⟨x, y, rfl, hy, hxy.symm⟩

theorem upper_lower (s : Bytes) : s.lower.upper = s.upper := by
  rw [lower, upper, List.map_map]
  exact List.map_congr_left fun b _ => upperByte_lowerByte b

theorem lower_upper (s : Bytes) : s.upper.lower = s.lower := by
  rw [upper, lower, List.map_map]
  exact List.map_congr_left fun b _ => lowerByte_upperByte b

theorem lower_eq_iff_upper_eq : a.lower = b.lower ↔ a.upper = b.upper :=
  ⟨fun h => by rw [← upper_lower, h, upper_lower], fun h => by rw [← lower_upper, h, lower_upper]⟩

/-- **Strings differ at most in case** if they are the same in lower case. -/
theorem equalFolded_iff : equalFolded a b = true ↔ a.lower = b.lower := by
  rw [equalFolded]
  induction a generalizing b with
  | nil => cases b <;> simp [lower]
  | cons x a ih =>
    cases b with
    | nil => simp [lower]
    | cons y b =>
      rw [List.isEqv_cons_cons, Bool.and_eq_true, sameFolded_iff, ih, lower_cons, lower_cons,
        List.cons.injEq]

theorem equalFolded_iff_forall₂ :
    equalFolded a b = true ↔ List.Forall₂ (fun x y => x = y ∨ Cases x y ∨ Cases y x) a b := by
  have hforall : List.Forall₂ (· = ·) a.lower b.lower ↔ a.lower = b.lower := by
    rw [List.forall₂_eq_eq_eq]
  rw [equalFolded_iff, ← hforall, lower, lower, List.forall₂_map_left_iff, List.forall₂_map_right_iff]
  simp only [lowerByte_eq_iff_cases]

/-- **The order with case ignored** is that of the strings in lower case. -/
theorem compareFolded_eq (a b : Bytes) : compareFolded a b = compare a.lower b.lower := by
  fun_induction compareFolded a b with
  | case1 => rfl
  | case2 => rfl
  | case3 => rfl
  | case4 x a y b ih => rw [ih, lower_cons, lower_cons, List.compare_cons_cons]

theorem compare_eq_lt_iff : compare s t = .lt ↔ s < t := by
  induction s generalizing t with
  | nil => cases t <;> simp
  | cons x s ih =>
    cases t with
    | nil => simp
    | cons y t =>
      rw [List.compare_cons_cons, Ordering.then_eq_lt, List.cons_lt_cons_iff, ih,
        Std.compare_eq_lt, Std.LawfulEqOrd.compare_eq_iff_eq]

theorem includes_cons (b : UInt8) (s sub : Bytes) :
    includes (b :: s) sub = (sub.isPrefixOf (b :: s) || includes s sub) := by
  rw [includes, indexOf?, includes]
  split <;> simp [*]

/-- **Searching with case ignored** is searching the strings in lower case. -/
theorem includesFolded_eq (s sub : Bytes) : includesFolded sub s = s.lower.includes sub.lower := by
  induction s with
  | nil => cases sub <;> rfl
  | cons b s ih =>
    rw [includesFolded, ih, lower_cons, includes_cons, ← lower_cons]
    congr 1
    rw [Bool.eq_iff_iff, equalFolded_iff, List.isPrefixOf_iff_prefix, List.prefix_iff_eq_take, eq_comm,
      length_lower, lower, lower, List.map_take]
    rfl

/-! ## The order -/

/-- An order of strings that is total and transitive, and takes strings for equal as a test does. -/
structure Orders (order : Bytes → Bytes → Ordering) (equal : Bytes → Bytes → Bool) : Prop where
  eq_iff : ∀ a b, order a b = .eq ↔ equal a b = true
  swap : ∀ a b, order b a = (order a b).swap
  total : ∀ a b, (order a b).isLE ∨ (order b a).isLE
  antisymm : ∀ a b, (order a b).isLE → (order b a).isLE → equal a b = true
  trans : ∀ a b c, (order a b).isLE → (order b c).isLE → (order a c).isLE

theorem orders_folded : Orders compareFolded equalFolded where
  eq_iff a b := by
    rw [compareFolded_eq, equalFolded_iff, Std.LawfulEqOrd.compare_eq_iff_eq]
  swap a b := by
    rw [compareFolded_eq, compareFolded_eq]
    exact Std.OrientedOrd.eq_swap
  total a b := by
    rw [compareFolded_eq, compareFolded_eq, Std.OrientedOrd.eq_swap]
    cases compare b.lower a.lower <;> decide
  antisymm a b hab hba := by
    rw [compareFolded_eq] at hab hba
    rw [equalFolded_iff]
    exact Std.LawfulEqOrd.compare_eq_iff_eq.mp (Std.OrientedCmp.isLE_antisymm hab hba)
  trans a b c hab hbc := by
    rw [compareFolded_eq] at hab hbc ⊢
    exact Std.TransOrd.isLE_trans hab hbc

/-- A byte that is no letter is kept by folding, and stands in all strings that are equal with case
ignored. -/
theorem getElem?_of_other {i : Nat} {x : UInt8} (hx : a[i]? = some x) (hother : isAlpha x = false) :
    a.lower[i]? = some x ∧ a.upper[i]? = some x ∧ (equalFolded a b = true → b[i]? = some x) := by
  refine ⟨?_, ?_, fun h => ?_⟩
  · rw [lower, List.getElem?_map, hx, Option.map_some, lowerByte_of_other hother]
  · rw [upper, List.getElem?_map, hx, Option.map_some, upperByte_of_other hother]
  · obtain ⟨hnone, -⟩ | ⟨y, z, hy, hz, hfold⟩ := getElem?_of_lower_eq (equalFolded_iff.mp h) i
    · rw [hx] at hnone
      cases hnone
    · obtain rfl : x = y := Option.some.inj (hx.symm.trans hy)
      rw [hz, eq_of_lowerByte_eq hother hfold]

/-- **With case ignored, strings are folded first.** Two strings have the same place in the order if
they are equal with case ignored, and so if they are the same in lower case, or in upper case, or byte by
byte up to the two cases of a letter. The order is a total preorder, that of the strings in lower case;
what occurs is what occurs in lower case; and strings that are equal with case ignored stand for each
other. No byte but a letter is folded. -/
theorem folded_first :
    Orders compareFolded equalFolded ∧
    ∀ a b : Bytes,
      (equalFolded a b = true ↔ a.lower = b.lower) ∧ (a.lower = b.lower ↔ a.upper = b.upper) ∧
      (equalFolded a b = true ↔ List.Forall₂ (fun x y => x = y ∨ Cases x y ∨ Cases y x) a b) ∧
      compareFolded a b = compare a.lower b.lower ∧ (compareFolded a b = .lt ↔ a.lower < b.lower) ∧
      includesFolded b a = a.lower.includes b.lower ∧
      (∀ a' b', equalFolded a a' = true → equalFolded b b' = true →
        compareFolded a b = compareFolded a' b' ∧ includesFolded b a = includesFolded b' a') ∧
      ∀ (i : Nat) (x : UInt8), a[i]? = some x → isAlpha x = false →
        a.lower[i]? = some x ∧ a.upper[i]? = some x ∧ (equalFolded a b = true → b[i]? = some x) := by
  refine ⟨orders_folded, fun a b => ⟨equalFolded_iff, lower_eq_iff_upper_eq, equalFolded_iff_forall₂,
    compareFolded_eq a b, ?_, includesFolded_eq a b, fun a' b' ha hb => ?_,
    fun i x => getElem?_of_other⟩⟩
  · rw [compareFolded_eq, compare_eq_lt_iff]
  · rw [compareFolded_eq, compareFolded_eq, includesFolded_eq, includesFolded_eq,
      equalFolded_iff.mp ha, equalFolded_iff.mp hb]
    exact ⟨rfl, rfl⟩

/-- A bracket between the letter ranges stays as it is, and the brackets 32 places apart are not taken
for each other. -/
theorem folded_first_brackets :
    equalFolded (ascii "[aB]x") (ascii "[Ab]X") = true ∧ equalFolded (ascii "b]") (ascii "B]") = true ∧
    (ascii "[aB]x")[0]? = some (byte '[') ∧ isAlpha (byte '[') = false ∧
    compareFolded (ascii "[aB]x") (ascii "b]") = compareFolded (ascii "[Ab]X") (ascii "B]") ∧
    includesFolded (ascii "b]") (ascii "[aB]x") = includesFolded (ascii "B]") (ascii "[Ab]X") ∧
    (ascii "[Ab]X")[0]? = some (byte '[') ∧ equalFolded (ascii "[") (ascii "\x7b") = false := by
  have ha : equalFolded (ascii "[aB]x") (ascii "[Ab]X") = true := by decide
  have hb : equalFolded (ascii "b]") (ascii "B]") = true := by decide
  have hget : (ascii "[aB]x")[0]? = some (byte '[') := by decide
  have hother : isAlpha (byte '[') = false := by decide
  obtain ⟨-, -, -, -, -, -, hexchange, -⟩ := folded_first.2 (ascii "[aB]x") (ascii "b]")
  obtain ⟨hcompare, hincludes⟩ := hexchange _ _ ha hb
  obtain ⟨-, -, -, -, -, -, -, hbytes⟩ := folded_first.2 (ascii "[aB]x") (ascii "[Ab]X")
  obtain ⟨-, -, hplace⟩ := hbytes 0 _ hget hother
  exact ⟨ha, hb, hget, hother, hcompare, hincludes, hplace ha, by decide⟩

end Bytes

end Bytework
