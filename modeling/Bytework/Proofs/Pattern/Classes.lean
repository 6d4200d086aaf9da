import Bytework.Proofs.Pattern.Parsed
import Bytework.Proofs.Pattern.Written
import Mathlib.Data.Bool.AllAny
import Mathlib.Data.List.Basic
import Mathlib.Tactic.Tauto

/-!
# Bracket classes

The items of a bracket class, the bytes each of them stands for, and how a class that lists them is
read.

* `InRanges`: a byte lies in one of some ranges; `inRanges_complement_iff` for the bytes between them.
* `NamedSet`, `ClassItem`: what a class may list, with `ClassItem.write`, `ClassItem.ranges` and
  `ClassItem.Has`, the bytes it stands for; **`inRanges_ranges_iff`** says that these are in its ranges.
* `classItem_write`, `rangeFrom_single`, `rangeFrom_range`: reading one item.
* **`classTree_items`**: a class is read as the ranges of its items.
* **`classItems_taken`**: a class ends at the same place whatever stands behind it.
-/

namespace Bytework.Pattern

/-! ## Ranges -/

/-- A byte lies in one of some ranges. -/
def InRanges (ranges : List ByteRange) (b : UInt8) : Prop := ∃ r ∈ ranges, r.lo ≤ b ∧ b ≤ r.hi

section Ranges

variable {ranges : List ByteRange} {b : UInt8} {next : Nat}

@[simp] theorem inRanges_nil : ¬ InRanges [] b := by simp [InRanges]

@[simp] theorem inRanges_cons {r : ByteRange} :
    InRanges (r :: ranges) b ↔ r.lo ≤ b ∧ b ≤ r.hi ∨ InRanges ranges b := by
  simp [InRanges]

theorem inRanges_flatMap {α : Type} {items : List α} {f : α → List ByteRange} :
    InRanges (items.flatMap f) b ↔ ∃ item ∈ items, InRanges (f item) b := by
  induction items with
  | nil => simp
  | cons item items ih =>
    rw [List.flatMap_cons, List.exists_mem_cons_iff, ← ih]
    simp only [InRanges, List.mem_append, or_and_right, exists_or]

/-- The ranges are sorted and disjoint, and start from `next` on. -/
def SortedFrom : Nat → List ByteRange → Prop
  | _, [] => True
  | next, r :: ranges => next ≤ r.lo.toNat ∧ r.lo ≤ r.hi ∧ SortedFrom (r.hi.toNat + 1) ranges

theorem SortedFrom.le (h : SortedFrom next ranges) (hb : InRanges ranges b) : next ≤ b.toNat := by
  induction ranges generalizing next with
  | nil => exact absurd hb inRanges_nil
  | cons r ranges ih =>
    obtain ⟨hnext, hle, hrest⟩ := h
    rw [UInt8.le_iff_toNat_le] at hle
    rcases inRanges_cons.mp hb with ⟨hlo, -⟩ | hb
    · exact Nat.le_trans hnext (UInt8.le_iff_toNat_le.mp hlo)
    · have := ih hrest hb
      omega

/-- **The bytes between sorted ranges** are those in none of them. -/
theorem inRanges_complementFrom_iff (h : SortedFrom next ranges) :
    InRanges (complementFrom next ranges) b ↔ next ≤ b.toNat ∧ ¬ InRanges ranges b := by
  have hb := b.toNat_lt
  have hmax : b ≤ 255 := UInt8.le_iff_toNat_le.mpr (Nat.le_of_lt_succ hb)
  have hlow : ∀ {n : Nat}, n ≤ 255 → (n.toUInt8 ≤ b ↔ n ≤ b.toNat) := by
    intro n hn
    rw [UInt8.le_iff_toNat_le, show n.toUInt8.toNat = n % 256 from rfl, Nat.mod_eq_of_lt (by omega)]
  induction ranges generalizing next with
  | nil =>
    rw [complementFrom]
    split
    · rename_i hle
      simp [hlow hle, hmax]
    · simp only [inRanges_nil, not_false_eq_true, and_true, false_iff]
      omega
  | cons r ranges ih =>
    obtain ⟨hnext, hle, hrest⟩ := h
    have hbehind : InRanges ranges b → r.hi.toNat + 1 ≤ b.toNat := hrest.le
    have hlo := r.lo.toNat_lt
    have htail : InRanges (complementFrom (r.hi.toNat + 1) ranges) b ↔
        r.hi.toNat + 1 ≤ b.toNat ∧ ¬ InRanges ranges b := ih hrest
    rw [complementFrom]
    split
    · rename_i hlt
      have hgap : b ≤ r.lo - 1 ↔ b.toNat < r.lo.toNat := by
        have hone : (1 : UInt8) ≤ r.lo := UInt8.le_iff_toNat_le.mpr (Nat.succ_le_of_lt (by omega))
        rw [UInt8.le_iff_toNat_le, UInt8.toNat_sub_of_le _ _ hone, show (1 : UInt8).toNat = 1 from rfl]
        omega
      rw [inRanges_cons, inRanges_cons, htail, hlow (by omega), hgap]
      simp only [UInt8.le_iff_toNat_le] at hle ⊢
      by_cases hin : InRanges ranges b
      · have := hbehind hin
        simp only [hin, not_true_eq_false, and_false, or_false, or_true, iff_false]
        omega
      · simp only [hin, not_false_eq_true, and_true, or_false]
        omega
    · rw [inRanges_cons, htail]
      simp only [UInt8.le_iff_toNat_le] at hle ⊢
      by_cases hin : InRanges ranges b
      · simp [hin]
      · simp only [hin, not_false_eq_true, and_true, or_false]
        omega

theorem inRanges_complement_iff (h : SortedFrom 0 ranges) :
    InRanges (complement ranges) b ↔ ¬ InRanges ranges b := by
  rw [complement, inRanges_complementFrom_iff h]
  exact and_iff_right (Nat.zero_le _)

end Ranges

/-! ## Items -/

/-- A set of bytes that a letter names after a backslash. -/
inductive NamedSet
  | digit
  | word
  | space
  deriving DecidableEq, Repr

namespace NamedSet

/-- The letter. -/
def letter : NamedSet → UInt8
  | .digit => byte 'd'
  | .word => byte 'w'
  | .space => byte 's'

/-- The bytes of the set. -/
def Has : NamedSet → UInt8 → Prop
  | .digit, b => isDigit b = true
  | .word, b => isAlnum b = true ∨ b = byte '_'
  | .space, b => byte '\t' ≤ b ∧ b ≤ byte '\r' ∨ b = byte ' '

/-- The ranges of the set. -/
def ranges : NamedSet → List ByteRange
  | .digit => digits
  | .word => wordBytes
  | .space => spaces

theorem inRanges_iff (set : NamedSet) (b : UInt8) : InRanges set.ranges b ↔ set.Has b := by
  have hsame : ∀ c : UInt8, c ≤ b ∧ b ≤ c ↔ b = c := fun c =>
    ⟨fun h => UInt8.le_antisymm h.2 h.1, fun h => h ▸ ⟨UInt8.le_refl b, UInt8.le_refl b⟩⟩
  cases set with
  | digit => simp [ranges, digits, Has, isDigit]
  | word =>
    simp only [ranges, wordBytes, inRanges_cons, inRanges_nil, or_false, hsame, Has, isAlnum, isAlpha,
      isLower, isUpper, isDigit, Bool.or_eq_true, Bool.and_eq_true, decide_eq_true_eq]
    rw [show byte '_' = 95 from rfl]
    tauto
  | space =>
    simp only [ranges, spaces, inRanges_cons, inRanges_nil, or_false, hsame, Has]
    rfl

theorem sortedFrom (set : NamedSet) : SortedFrom 0 set.ranges := by
  cases set <;> simp only [ranges, digits, wordBytes, spaces, SortedFrom] <;> decide

end NamedSet

/-- What a class may list. -/
inductive ClassItem
  /-- One byte. -/
  | single (b : UInt8)
  /-- The bytes of a range. -/
  | range (r : ByteRange)
  /-- The bytes in, or if complemented outside, a set that a letter names. -/
  | named (set : NamedSet) (complemented : Bool)
  deriving DecidableEq, Repr

namespace ClassItem

/-- An item as it stands in a class; an upper-case letter names the complement. -/
def write : ClassItem → Bytes
  | .single b => writeMember b
  | .range r => writeMember r.lo ++ byte '-' :: writeMember r.hi
  | .named set complemented =>
    [backslash, if complemented then upperByte set.letter else set.letter]

/-- The bytes for which an item stands. -/
def Has : ClassItem → UInt8 → Prop
  | .single c, b => b = c
  | .range r, b => r.lo ≤ b ∧ b ≤ r.hi
  | .named set complemented, b => set.Has b ↔ complemented = false

/-- The ranges as which an item is read. -/
def ranges : ClassItem → List ByteRange
  | .single b => [.single b]
  | .range r => [r]
  | .named set complemented => if complemented then complement set.ranges else set.ranges

/-- The ends of a range are in order. -/
def Ordered : ClassItem → Prop
  | .range r => r.lo ≤ r.hi
  | _ => True

/-- **The ranges of an item** hold the bytes for which it stands. -/
theorem inRanges_ranges_iff (item : ClassItem) (b : UInt8) : InRanges item.ranges b ↔ item.Has b := by
  cases item with
  | single c =>
    simp only [ranges, inRanges_cons, inRanges_nil, or_false, ByteRange.single, Has]
    exact ⟨fun h => UInt8.le_antisymm h.2 h.1, fun h => h ▸ ⟨UInt8.le_refl b, UInt8.le_refl b⟩⟩
  | range r => simp only [ranges, inRanges_cons, inRanges_nil, or_false, Has]
  | named set complemented =>
    cases complemented with
    | false => simp [ranges, Has, set.inRanges_iff]
    | true => simp [ranges, Has, inRanges_complement_iff set.sortedFrom, set.inRanges_iff]

end ClassItem

/-! ## Reading an item -/

variable {b : UInt8} {rest : Bytes}

/-- A byte that starts an item of a class as it is written: it neither closes the class, nor negates
it, nor makes a range of the byte before. -/
def Starts (b : UInt8) : Prop := b ≠ byte ']' ∧ b ≠ byte '^' ∧ b ≠ byte '-'

/-- A written byte is read as the start of an item. -/
theorem classItem_write (lo : UInt8) (rest : Bytes) :
    ∃ b after, writeMember lo ++ rest = b :: after ∧ Starts b ∧
      classItem b after = rangeFrom lo rest := by
  have hescaped : ∀ m ∈ memberMetabytes, escapeRanges? m = none ∧ literalEscape m = m :=
    List.all_iff_forall_prop.mp (by decide)
  unfold writeMember
  split
  · rename_i hmem
    obtain ⟨hranges, hliteral⟩ := hescaped lo hmem
    refine ⟨backslash, lo :: rest, rfl, ⟨by decide, by decide, by decide⟩, ?_⟩
    simp only [classItem, if_true, hranges, hliteral]
  · rename_i hmem
    simp only [memberMetabytes, List.mem_cons, List.not_mem_nil, or_false, not_or] at hmem
    obtain ⟨hbackslash, hclose, hcaret, hhyphen⟩ := hmem
    exact ⟨lo, rest, rfl, ⟨hclose, hcaret, hhyphen⟩, if_neg hbackslash⟩

theorem rangeFrom_single {lo : UInt8} (h : b ≠ byte '-') :
    rangeFrom lo (b :: rest) = .ok ([.single lo], b :: rest) := by
  cases rest with
  | nil => rfl
  | cons c rest => simp [rangeFrom, h]

/-- A byte with a hyphen and a written byte behind it starts a range. -/
theorem rangeFrom_range {lo hi : UInt8} (hle : lo ≤ hi) :
    rangeFrom lo (byte '-' :: (writeMember hi ++ rest)) = .ok ([⟨lo, hi⟩], rest) := by
  have hescaped : ∀ m ∈ memberMetabytes, literalEscape m = m := List.all_iff_forall_prop.mp (by decide)
  have hclose : closeRange lo hi rest = .ok ([⟨lo, hi⟩], rest) := if_neg (UInt8.not_lt.mpr hle)
  have hbracket : backslash ≠ byte ']' := by decide
  unfold writeMember
  split
  · rename_i hmem
    simp only [List.cons_append, List.nil_append, rangeFrom, true_and, hbracket, ne_eq,
      not_false_eq_true, if_true, hescaped hi hmem]
    exact hclose
  · rename_i hmem
    simp only [memberMetabytes, List.mem_cons, List.not_mem_nil, or_false, not_or] at hmem
    obtain ⟨hbackslash, hclosing, -⟩ := hmem
    simp only [List.cons_append, List.nil_append, rangeFrom, true_and, ne_eq, hclosing,
      not_false_eq_true, if_true]
    exact (if_neg hbackslash).trans hclose

theorem escapeRanges?_letter (set : NamedSet) (complemented : Bool) :
    escapeRanges? (if complemented then upperByte set.letter else set.letter) =
      some (ClassItem.named set complemented).ranges := by
  cases set <;> cases complemented <;> decide

/-- A written item is read as its ranges. -/
theorem ClassItem.reads (rest : Bytes) {item : ClassItem} (hitem : item.Ordered) (h : b ≠ byte '-') :
    ∃ c after, item.write ++ b :: rest = c :: after ∧ Starts c ∧
      classItem c after = .ok (item.ranges, b :: rest) := by
  cases item with
  | single lo =>
    obtain ⟨c, after, hwrite, hstarts, hread⟩ := classItem_write lo (b :: rest)
    exact ⟨c, after, hwrite, hstarts, hread.trans (rangeFrom_single h)⟩
  | range r =>
    obtain ⟨c, after, hwrite, hstarts, hread⟩ :=
      classItem_write r.lo (byte '-' :: (writeMember r.hi ++ b :: rest))
    refine ⟨c, after, ?_, hstarts, hread.trans (rangeFrom_range hitem)⟩
    rw [← hwrite, write, List.append_assoc]
    rfl
  | named set complemented =>
    refine ⟨backslash, (if complemented then upperByte set.letter else set.letter) :: b :: rest, rfl,
      ⟨by decide, by decide, by decide⟩, ?_⟩
    simp only [classItem, if_true, escapeRanges?_letter]

/-! ## Reading a class -/

/-- The items of a class after its first byte. -/
theorem classItems_cons (first : Bool) (b : UInt8) (rest : Bytes) :
    classItems first (b :: rest) =
      if b = byte ']' ∧ first = false then .ok ([], rest)
      else (classItem b rest).bind fun item =>
        (classItems false item.2).map fun more => (item.1 ++ more.1, more.2) := by
  rw [classItems]
  refine if_congr Iff.rfl rfl ?_
  split
  · rename_i herror
    rw [herror]
    rfl
  · rename_i hitem
    rw [hitem]
    rfl

/-- The written items of a class are read one after the other. -/
theorem classItems_flatMap (rest : Bytes) {items : List ClassItem} (hitems : ∀ item ∈ items, item.Ordered) :
    ∃ b after, items.flatMap ClassItem.write ++ byte ']' :: rest = b :: after ∧
      b ≠ byte '^' ∧ b ≠ byte '-' ∧
      ∀ first, (first = true → items ≠ []) →
        classItems first (b :: after) = .ok (items.flatMap ClassItem.ranges, rest) := by
  induction items with
  | nil =>
    refine ⟨byte ']', rest, rfl, by decide, by decide, fun first hfirst => ?_⟩
    have hfalse : first = false := Bool.eq_false_iff.mpr fun htrue => hfirst htrue rfl
    rw [classItems_cons, if_pos ⟨rfl, hfalse⟩]
    rfl
  | cons item items ih =>
    obtain ⟨hitem, hrest⟩ := List.forall_mem_cons.mp hitems
    obtain ⟨b, after, hcons, -, hhyphen, hread⟩ := ih hrest
    obtain ⟨c, after', hwrite, hstarts, hfound⟩ := ClassItem.reads after hitem hhyphen
    refine ⟨c, after', ?_, hstarts.2.1, hstarts.2.2, fun first _ => ?_⟩
    · rw [List.flatMap_cons, List.append_assoc, hcons, hwrite]
    · rw [classItems_cons, if_neg fun hclose => hstarts.1 hclose.1, hfound, Except.bind,
        hread false fun h => absurd h Bool.false_ne_true]
      rfl

/-- **A written class is read as the ranges of its items.** -/
theorem classTree_items (rest : Bytes) {items : List ClassItem} (negated : Bool) (hne : items ≠ [])
    (hitems : ∀ item ∈ items, item.Ordered) :
    classTree (writeNegated negated ++ (items.flatMap ClassItem.write ++ byte ']' :: rest)) =
      .ok (.set (items.flatMap ClassItem.ranges) negated, rest) := by
  obtain ⟨b, after, hcons, hcaret, -, hread⟩ := classItems_flatMap rest hitems
  rw [hcons]
  cases negated with
  | false =>
    simp only [writeNegated, Bool.false_eq_true, if_false, List.nil_append, classTree, hcaret,
      hread true fun _ => hne]
    rfl
  | true =>
    simp only [writeNegated, if_true, List.cons_append, List.nil_append, classTree,
      hread true fun _ => hne]
    rfl

/-! ## What a class takes -/

/-- Nothing but a closing bracket ends a class. -/
theorem eq_bracket_of_classItems {more : List ByteRange × Bytes}
    (h : classItems false [b] = .ok more) : b = byte ']' := by
  by_contra hb
  rw [classItems_cons, if_neg fun hclose => hb hclose.1] at h
  cases hitem : classItem b [] with
  | error e =>
    rw [hitem] at h
    cases h
  | ok item =>
    have hrest : item.2 = [] := List.length_eq_zero_iff.mp (Nat.le_zero.mp (length_of_classItem hitem))
    rw [hitem, Except.bind, hrest, classItems] at h
    cases h

section Taken

variable {ranges : List ByteRange} {after : Bytes} {lo : UInt8}

/-- A text that makes no range of the byte before it. -/
def NoRange (rest : Bytes) : Prop := ∀ hi more, rest = byte '-' :: hi :: more → hi = byte ']'

theorem rangeFrom_noRange (h : NoRange rest) : rangeFrom lo rest = .ok ([.single lo], rest) := by
  rcases rest with _ | ⟨c, _ | ⟨hi, rest⟩⟩
  · rfl
  · rfl
  · refine if_neg fun hrange => hrange.2 ?_
    exact h hi rest (by rw [hrange.1])

theorem closeRange_taken {hi : UInt8} (h : closeRange lo hi rest = .ok (ranges, after)) :
    rest = after ∧ ∀ tail, closeRange lo hi tail = .ok (ranges, tail) := by
  unfold closeRange at h ⊢
  split at h
  · cases h
  · rename_i hle
    cases h
    exact ⟨rfl, fun tail => if_neg hle⟩

/-- What the start of a range takes: nothing, or all of the range. -/
theorem rangeFrom_taken (h : rangeFrom lo rest = .ok (ranges, after)) :
    (after = rest ∧ NoRange rest) ∨
      ∃ taken, rest = taken ++ after ∧ ∀ tail, rangeFrom lo (taken ++ tail) = .ok (ranges, tail) := by
  rcases rest with _ | ⟨c, _ | ⟨hi, rest⟩⟩
  · cases h
    exact .inl ⟨rfl, fun hi more hrest => by cases hrest⟩
  · cases h
    exact .inl ⟨rfl, fun hi more hrest => by cases hrest⟩
  · unfold rangeFrom at h
    simp only at h
    split at h
    · rename_i hrange
      split at h
      · rename_i hescape
        cases rest with
        | nil => cases h
        | cons e rest =>
          obtain ⟨rfl, hclose⟩ := closeRange_taken h
          refine .inr ⟨[c, hi, e], rfl, fun tail => ?_⟩
          simp only [rangeFrom, List.cons_append, List.nil_append, if_pos hrange, if_pos hescape]
          exact hclose tail
      · rename_i hescape
        obtain ⟨rfl, hclose⟩ := closeRange_taken h
        refine .inr ⟨[c, hi], rfl, fun tail => ?_⟩
        simp only [rangeFrom, List.cons_append, List.nil_append, if_pos hrange, if_neg hescape]
        exact hclose tail
    · rename_i hrange
      cases h
      refine .inl ⟨rfl, fun hi' more hrest => ?_⟩
      cases hrest
      by_contra hbracket
      exact hrange ⟨rfl, hbracket⟩

/-- What an item takes: its byte alone, behind which the text makes no range, or all of it. -/
theorem classItem_taken (h : classItem b rest = .ok (ranges, after)) :
    ∃ taken, rest = taken ++ after ∧
      ∀ tail, (NoRange after → NoRange tail) → classItem b (taken ++ tail) = .ok (ranges, tail) := by
  have hrangeFrom : ∀ {lo rest}, rangeFrom lo rest = .ok (ranges, after) →
      ∃ taken, rest = taken ++ after ∧
        ∀ tail, (NoRange after → NoRange tail) → rangeFrom lo (taken ++ tail) = .ok (ranges, tail) := by
    intro lo rest hread
    rcases rangeFrom_taken hread with ⟨rfl, hno⟩ | ⟨taken, hrest, htaken⟩
    · refine ⟨[], rfl, fun tail htail => ?_⟩
      rw [rangeFrom_noRange hno] at hread
      cases hread
      exact rangeFrom_noRange (htail hno)
    · exact ⟨taken, hrest, fun tail _ => htaken tail⟩
  unfold classItem at h ⊢
  split at h
  · rename_i hescape
    simp only [if_pos hescape]
    cases rest with
    | nil => cases h
    | cons e rest =>
      simp only at h
      split at h
      · rename_i hranges
        cases h
        exact ⟨[e], rfl, fun tail _ => by simp only [List.cons_append, List.nil_append, hranges]⟩
      · rename_i hranges
        obtain ⟨taken, rfl, htaken⟩ := hrangeFrom h
        refine ⟨e :: taken, rfl, fun tail htail => ?_⟩
        simp only [List.cons_append, hranges]
        exact htaken tail htail
  · rename_i hescape
    simp only [if_neg hescape]
    exact hrangeFrom h

/-- **A class ends where it ends**, whatever stands behind its closing bracket. -/
theorem classItems_taken {first : Bool} (h : classItems first rest = .ok (ranges, after)) :
    ∃ taken, rest = taken ++ after ∧
      ∀ tail, classItems first (taken ++ tail) = .ok (ranges, tail) := by
  fun_induction classItems first rest generalizing ranges with
  | case1 => cases h
  | case2 first b rest hclose =>
    cases h
    refine ⟨[b], rfl, fun tail => ?_⟩
    rw [List.singleton_append, classItems_cons, if_pos hclose]
  | case3 => cases h
  | case4 first b rest hclose found after' hitem ih =>
    cases hmore : classItems false after' with
    | error e =>
      rw [hmore] at h
      cases h
    | ok more =>
      rw [hmore] at h
      cases h
      obtain ⟨written, rfl, hwritten⟩ := ih hmore
      obtain ⟨taken, rfl, htaken⟩ := classItem_taken hitem
      refine ⟨b :: (taken ++ written), by simp, fun tail => ?_⟩
      -- the closing bracket is among the bytes at which an item looks
      have hno : NoRange (written ++ more.2) → NoRange (written ++ tail) := by
        rintro hno hi more hrest
        rcases written with _ | ⟨c, _ | ⟨hi', written⟩⟩
        · have hend := hwritten []
          rw [List.nil_append, classItems] at hend
          cases hend
        · obtain rfl := eq_bracket_of_classItems (hwritten [])
          cases hrest
        · cases hrest
          exact hno _ _ rfl
      rw [List.cons_append, List.append_assoc, classItems_cons, if_neg hclose, htaken _ hno,
        Except.bind, hwritten tail]
      rfl

theorem classTree_taken {t : Tree} (h : classTree rest = .ok (t, after)) :
    ∃ taken, rest = taken ++ after ∧ ∀ tail, classTree (taken ++ tail) = .ok (t, tail) := by
  cases rest with
  | nil =>
    unfold classTree at h
    simp only at h
    rw [classItems] at h
    cases h
  | cons b rest =>
    by_cases hb : b = byte '^'
    · simp only [classTree, if_pos hb] at h
      obtain ⟨found, hfound, hfinish⟩ := map_eq_ok h
      cases hfinish
      obtain ⟨taken, rfl, htaken⟩ := classItems_taken hfound
      refine ⟨b :: taken, rfl, fun tail => ?_⟩
      simp only [classTree, List.cons_append, if_pos hb, htaken tail]
      rfl
    · simp only [classTree, if_neg hb] at h
      obtain ⟨found, hfound, hfinish⟩ := map_eq_ok h
      cases hfinish
      obtain ⟨taken, hrest, htaken⟩ := classItems_taken hfound
      cases taken with
      | nil =>
        have hend := htaken []
        rw [List.nil_append, classItems] at hend
        cases hend
      | cons c taken =>
        rw [List.cons_append, List.cons.injEq] at hrest
        obtain ⟨rfl, rfl⟩ := hrest
        refine ⟨b :: taken, rfl, fun tail => ?_⟩
        simp only [classTree, List.cons_append, if_neg hb]
        rw [← List.cons_append, htaken tail]
        rfl

end Taken
end Bytework.Pattern
