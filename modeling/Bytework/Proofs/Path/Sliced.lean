import Bytework.Proofs.Bytes.Utf8
import Bytework.Proofs.Path.Shapes

/-!
# Portable paths cut at byte positions

The operations on paths once more, as they find and cut texts by positions in the UTF-8 form. A cut
within a character, or behind the end, has no result.

* `cut?`, `cut?_append`: a text cut at a byte position, and where that can be done.
* `driveSize`, `lastSeparator?`, `isAbsolute?`, `join?`, `basename?`, `dirname?`, `normalizeBytes`: the
  operations by positions.
* `driveSize_eq`, `size_lt_iff`: lengths in bytes are compared as lengths in characters are.
* `isAbsolute?_eq`, `join?_eq`, `basename?_eq`, `dirname?_eq`, `normalizeBytes_eq`: **no cut is out of place**,
  and the results are those of the operations by characters.
-/

namespace Bytework.Path.Portable

variable {p q front back gap : List Char} {c : Char} {n : Nat}

/-! ## Cuts -/

/-- The number of bytes of a text. -/
def size (p : List Char) : Nat := (Bytes.ofChars p).length

/-- A text cut at a byte position; `none` if the position is within a character or behind the end. -/
def cut? : List Char → Nat → Option (List Char × List Char)
  | p, 0 => some ([], p)
  | [], _ + 1 => none
  | c :: p, n + 1 =>
    if n + 1 < c.utf8Size then none
    else (cut? p (n + 1 - c.utf8Size)).map fun parts => (c :: parts.1, parts.2)

/-- The text up to a byte position. -/
def upTo? (p : List Char) (n : Nat) : Option (List Char) := (cut? p n).map Prod.fst

/-- The text from a byte position on. -/
def from? (p : List Char) (n : Nat) : Option (List Char) := (cut? p n).map Prod.snd

@[simp] theorem size_nil : size [] = 0 := rfl

@[simp] theorem size_cons (c : Char) (p : List Char) : size (c :: p) = c.utf8Size + size p :=
  Bytes.length_ofChars_cons c p

@[simp] theorem size_append (p q : List Char) : size (p ++ q) = size p + size q := by
  rw [size, Bytes.ofChars_append, List.length_append, size, size]

theorem cut?_append (front back : List Char) : cut? (front ++ back) (size front) = some (front, back) := by
  induction front with
  | nil => cases back <;> rfl
  | cons c front ih =>
    obtain ⟨n, hn⟩ := Nat.exists_eq_succ_of_ne_zero (c.utf8Size_pos.ne')
    have hsize : size (c :: front) = (n + size front) + 1 := by rw [size_cons, hn]; omega
    rw [hsize, List.cons_append, cut?, if_neg (by omega), ← hsize, size_cons, Nat.add_sub_cancel_left, ih]
    rfl

theorem upTo?_append (front back : List Char) : upTo? (front ++ back) (size front) = some front := by
  rw [upTo?, cut?_append]
  rfl

theorem from?_append (front back : List Char) : from? (front ++ back) (size front) = some back := by
  rw [from?, cut?_append]
  rfl

/-! ## Operations by positions -/

/-- The number of bytes of the drive. -/
def driveSize (p : List Char) : Nat :=
  match Bytes.ofChars p with
  | b :: colon :: _ => if isAlpha b && colon == byte ':' then 2 else 0
  | _ => 0

/-- The byte position of the last separator. -/
def lastSeparator? (p : List Char) : Option Nat := (beforeLast? p).map size

def isAbsolute? (p : List Char) : Option Bool :=
  (from? p (driveSize p)).map fun rest => rest.head?.any isSeparator

def join? (base child : List Char) : Option (List Char) := do
  if base.isEmpty then return child
  if ← isAbsolute? child then return child
  if child.isEmpty then return base
  let trimmed := trimEnd base
  let out ←
    if size trimmed = driveSize base ∧ size trimmed < size base then upTo? base (size trimmed + 1)
    else some (trimmed ++ ['/'])
  return out ++ child.dropWhile isSeparator

def basename? (p : List Char) : Option (List Char) :=
  let trimmed := trimEnd p
  if trimmed.isEmpty then if p.isEmpty then some [] else upTo? p 1
  else
    match lastSeparator? trimmed with
    | some i => from? trimmed (i + 1)
    | none => from? trimmed (driveSize trimmed)

def dirname? (p : List Char) : Option (List Char) :=
  let trimmed := trimEnd p
  if trimmed.isEmpty then if p.isEmpty then some ['.'] else upTo? p 1
  else
    match lastSeparator? trimmed with
    | some i => do
      let parent := trimEnd (← upTo? trimmed i)
      if size parent = driveSize trimmed then upTo? trimmed (size parent + 1) else some parent
    | none =>
      let drive := driveSize trimmed
      if 0 < drive then upTo? trimmed drive else some ['.']

def normalizeBytes (p : List Char) : List Char :=
  let out := collapse false p
  if driveSize out + 1 < size out && out.getLast? == some '/' then out.dropLast else out

/-! ## Lengths -/

theorem size_eq_zero_iff : size p = 0 ↔ p = [] := by
  cases p with
  | nil => simp
  | cons c p =>
    have := c.utf8Size_pos
    simp only [size_cons, reduceCtorEq, iff_false]
    omega

theorem size_lt_iff (hfront : front <+: p) (hback : back <+: p) :
    size front < size back ↔ front.length < back.length := by
  rcases List.prefix_or_prefix_of_prefix hfront hback with ⟨rest, rfl⟩ | ⟨rest, rfl⟩
  · have hrest := size_eq_zero_iff (p := rest)
    rw [← List.length_eq_zero_iff] at hrest
    rw [size_append, List.length_append]
    omega
  · rw [size_append, List.length_append]
    omega

theorem size_eq_iff (hfront : front <+: p) (hback : back <+: p) :
    size front = size back ↔ front.length = back.length := by
  have hlt := size_lt_iff hfront hback
  have hgt := size_lt_iff hback hfront
  omega

theorem isAlpha_iff : c.isAlpha = true ↔
    (65 ≤ c.toNat ∧ c.toNat ≤ 90) ∨ (97 ≤ c.toNat ∧ c.toNat ≤ 122) := by
  have hcases : c.isAlpha =
      (decide (65 ≤ c.val ∧ c.val ≤ 90) || (decide (97 ≤ c.val) && decide (c.val ≤ 122))) := rfl
  simp only [hcases, Bool.or_eq_true, Bool.and_eq_true, decide_eq_true_eq, UInt32.le_iff_toNat_le]
  rfl

theorem toNat_lt_of_isAlpha (hc : c.isAlpha = true) : c.toNat < 128 := by
  rcases isAlpha_iff.mp hc with h | h <;> omega

theorem isAlpha_byte (hc : c.toNat < 128) : isAlpha (byte c) = c.isAlpha := by
  rw [Bool.eq_iff_iff, isAlpha_iff, isAlpha, Bool.or_eq_true, isLower_iff, isUpper_iff,
    Bytes.toNat_byte hc, or_comm]

/-- The bytes of a drive are those of no other path. -/
theorem ofChars_eq_drive_iff : (∃ b bytes, isAlpha b = true ∧ Bytes.ofChars p = b :: byte ':' :: bytes) ↔
    ∃ c rest, c.isAlpha = true ∧ p = c :: ':' :: rest := by
  constructor
  · rintro ⟨b, bytes, hb, hbytes⟩
    have hascii : b.toNat < 128 := by
      rcases Bool.or_eq_true_iff.mp hb with hb | hb
      · rw [isLower_iff] at hb
        omega
      · rw [isUpper_iff] at hb
        omega
    obtain ⟨c, p, rfl, hc, rfl, hrest⟩ := (Bytes.ofChars_eq_cons_iff hascii).mp hbytes
    obtain ⟨d, rest, rfl, hd, hcolon, -⟩ := (Bytes.ofChars_eq_cons_iff (by decide)).mp hrest.symm
    have hnat := congrArg UInt8.toNat hcolon
    rw [Bytes.toNat_byte hd] at hnat
    obtain rfl : ':' = d := Char.toNat_inj.mp hnat
    exact ⟨c, rest, isAlpha_byte hc ▸ hb, rfl⟩
  · rintro ⟨c, rest, hc, rfl⟩
    have hascii := toNat_lt_of_isAlpha hc
    refine ⟨byte c, Bytes.ofChars rest, by rwa [isAlpha_byte hascii], ?_⟩
    rw [Bytes.ofChars_cons, Bytes.ofChars_cons, Bytes.utf8_ascii hascii, Bytes.utf8_ascii (by decide)]
    rfl

/-- **The drive is found in the bytes** as it is in the characters. -/
theorem driveSize_eq (p : List Char) : driveSize p = driveLength p := by
  by_cases hdrive : ∃ c rest, c.isAlpha = true ∧ p = c :: ':' :: rest
  · obtain ⟨b, bytes, hb, hbytes⟩ := ofChars_eq_drive_iff.mpr hdrive
    obtain ⟨c, rest, hc, rfl⟩ := hdrive
    rw [driveLength_cons_cons, if_pos ⟨rfl, hc⟩, driveSize, hbytes]
    simp [hb]
  · have hlength : driveLength p = 0 := by
      match p with
      | [] => rfl
      | [c] => rfl
      | c :: d :: p =>
        rw [driveLength_cons_cons, if_neg]
        rintro ⟨rfl, hc⟩
        exact hdrive ⟨c, p, hc, rfl⟩
    rw [hlength, driveSize]
    split
    · rename_i b colon bytes hbytes
      rw [if_neg]
      intro h
      obtain ⟨hb, hcolon⟩ := Bool.and_eq_true_iff.mp h
      exact hdrive (ofChars_eq_drive_iff.mp ⟨b, bytes, hb, by rw [hbytes, beq_iff_eq.mp hcolon]⟩)
    · rfl

theorem size_anchor (h : Anchor p) : size p = p.length := by
  rcases h with rfl | ⟨c, hc, rfl⟩
  · rfl
  · have hascii := toNat_lt_of_isAlpha hc
    have hcolon : (':' : Char).utf8Size = 1 := by decide
    simp [Bytes.utf8Size_ascii hascii, hcolon]

theorem size_drive (p : List Char) : size (p.take (driveLength p)) = driveLength p := by
  rw [size_anchor (anchor_take p), List.length_take_of_le (driveLength_le p)]

theorem utf8Size_separator (h : isSeparator c = true) : c.utf8Size = 1 := by
  rcases Bool.or_eq_true_iff.mp h with h | h
  · rw [beq_iff_eq.mp h]
    decide
  · rw [beq_iff_eq.mp h]
    decide

theorem size_eq_driveSize_iff (h : front <+: p) :
    size front = driveSize p ↔ front.length = driveLength p := by
  rw [driveSize_eq]
  have hiff := size_eq_iff h (List.take_prefix (driveLength p) p)
  rwa [size_drive, List.length_take_of_le (driveLength_le p)] at hiff

/-! ## No cut is out of place -/

theorem upTo?_drive (p : List Char) : upTo? p (driveLength p) = some (p.take (driveLength p)) := by
  have h := upTo?_append (p.take (driveLength p)) (p.drop (driveLength p))
  rwa [List.take_append_drop, size_drive] at h

theorem from?_drive (p : List Char) : from? p (driveLength p) = some (p.drop (driveLength p)) := by
  have h := from?_append (p.take (driveLength p)) (p.drop (driveLength p))
  rwa [List.take_append_drop, size_drive] at h

theorem upTo?_separator (hc : isSeparator c = true) (front back : List Char) :
    upTo? (front ++ c :: back) (size front + 1) = some (front ++ [c]) := by
  have h := upTo?_append (front ++ [c]) back
  rw [List.append_assoc, size_append, size_cons, utf8Size_separator hc] at h
  exact h

theorem from?_separator (hc : isSeparator c = true) (front back : List Char) :
    from? (front ++ c :: back) (size front + 1) = some back := by
  have h := from?_append (front ++ [c]) back
  rw [List.append_assoc, size_append, size_cons, utf8Size_separator hc] at h
  exact h

theorem upTo?_gap (hne : gap ≠ []) (hgap : Separators gap) (front back : List Char) :
    upTo? (front ++ (gap ++ back)) (size front + 1) = some (front ++ gap.take 1) := by
  obtain ⟨c, gap, rfl⟩ := List.exists_cons_of_ne_nil hne
  exact upTo?_separator (hgap c List.mem_cons_self) front (gap ++ back)

theorem upTo?_root (hs : Separators p) (hne : p ≠ []) : upTo? p 1 = some (p.take 1) := by
  simpa using upTo?_gap hne hs [] []

theorem lastSeparator?_append (hc : isSeparator c = true) (hq : ∀ x ∈ q, isSeparator x = false)
    (p : List Char) : lastSeparator? (p ++ c :: q) = some (size p) := by
  rw [lastSeparator?, beforeLast?_append hq hc]
  rfl

theorem lastSeparator?_eq_none (hq : ∀ x ∈ q, isSeparator x = false) : lastSeparator? q = none := by
  rw [lastSeparator?, beforeLast?_eq_none hq]
  rfl

theorem isAbsolute?_eq (p : List Char) : isAbsolute? p = some (isAbsolute p) := by
  rw [isAbsolute?, driveSize_eq, from?_drive]
  rfl

theorem basename?_eq (p : List Char) : basename? p = some (basename p) := by
  cases exists_shape p with
  | root hs =>
    rw [basename?, trimEnd_root hs, basename_root hs]
    cases p with
    | nil => rfl
    | cons c p => exact upTo?_root hs (List.cons_ne_nil c p)
  | bare hname htail =>
    rw [basename?, trimEnd_append hname.trimmed htail, lastSeparator?_eq_none hname.plain,
      basename_bare hname htail, driveSize_eq, ← from?_drive]
    simp [hname.ne_nil]
  | @nested parent gap name tail hparent hne hgap hname htail =>
    rw [basename?, trimEnd_nested hname htail, basename_nested hne hgap hname htail]
    obtain ⟨before, c, rfl, hlast⟩ := exists_concat_gap hne parent name
    have hc : isSeparator c = true := hgap c (by simp)
    have hnotEmpty : (parent ++ before ++ c :: name).isEmpty = false := by simp
    simp only [hlast, hnotEmpty, lastSeparator?_append hc hname.plain, from?_separator hc,
      Bool.false_eq_true, if_false]

theorem dirname?_eq (p : List Char) : dirname? p = some (dirname p) := by
  cases exists_shape p with
  | root hs =>
    cases p with
    | nil => rfl
    | cons c p =>
      rw [dirname?, trimEnd_root hs, dirname_root hs (List.cons_ne_nil c p)]
      exact upTo?_root hs (List.cons_ne_nil c p)
  | bare hname htail =>
    rw [dirname?, trimEnd_append hname.trimmed htail, lastSeparator?_eq_none hname.plain,
      dirname_bare hname htail]
    simp only [driveSize_eq, List.isEmpty_iff, hname.ne_nil, if_false, Nat.pos_iff_ne_zero, ite_not]
    split
    · rfl
    · exact upTo?_drive _
  | @nested parent gap name tail hparent hne hgap hname htail =>
    rw [dirname?, trimEnd_nested hname htail, dirname_nested hparent hne hgap hname htail]
    have hnotEmpty : (parent ++ (gap ++ name)).isEmpty = false := by simp [hne]
    have hroot : size parent = driveSize (parent ++ (gap ++ name)) ↔ Anchor parent := by
      rw [size_eq_driveSize_iff (List.prefix_append _ _), driveLength_nested hne hgap, anchor_iff]
    have hlast : ∃ before, Separators before ∧
        lastSeparator? (parent ++ (gap ++ name)) = some (size (parent ++ before)) ∧
          upTo? (parent ++ (gap ++ name)) (size (parent ++ before)) = some (parent ++ before) := by
      obtain ⟨before, c, rfl, hlast⟩ := exists_concat_gap hne parent name
      obtain ⟨hbefore, hc⟩ := List.forall_mem_append.mp hgap
      rw [hlast]
      exact ⟨before, hbefore, lastSeparator?_append (hc c (by simp)) hname.plain _, upTo?_append _ _⟩
    obtain ⟨before, hbefore, hposition, hcut⟩ := hlast
    simp only [hnotEmpty, hposition, hcut, Option.bind_eq_bind, Option.bind_some,
      trimEnd_append hparent hbefore, hroot, upTo?_gap hne hgap, Bool.false_eq_true, if_false]
    split <;> rfl

theorem normalizeBytes_eq (p : List Char) : normalizeBytes p = normalize p := by
  rw [normalizeBytes, normalize]
  cases hlast : (collapse false p).getLast? == some '/' with
  | false => simp
  | true =>
    obtain ⟨front, hfront⟩ := List.getLast?_eq_some_iff.mp (beq_iff_eq.mp hlast)
    have hlt := size_lt_iff (List.take_prefix (driveLength (collapse false p)) (collapse false p))
      (hfront ▸ List.prefix_append front ['/'])
    rw [size_drive, List.length_take_of_le (driveLength_le _)] at hlt
    have hslash : ('/' : Char).utf8Size = 1 := by decide
    have hsize : size (collapse false p) = size front + 1 := by
      rw [hfront, size_append, size_cons, hslash, size_nil]
    have hlength : (collapse false p).length = front.length + 1 := by simp [hfront]
    simp only [driveSize_eq, hsize, hlength, Nat.add_lt_add_iff_right, hlt]

theorem join?_eq (base child : List Char) : join? base child = some (join base child) := by
  obtain ⟨s, hs, hbase⟩ := exists_trimEnd base
  have hstarts : trimEnd base <+: base := ⟨s, hbase.symm⟩
  have hlt := size_lt_iff hstarts (List.prefix_refl base)
  have hroot : (trimEnd base).length < base.length →
      upTo? base (size (trimEnd base) + 1) = some (base.take ((trimEnd base).length + 1)) := by
    intro hlt
    have hlength := congrArg List.length hbase
    rw [List.length_append] at hlength
    obtain ⟨c, s, rfl⟩ := List.exists_cons_of_length_pos (l := s) (by omega)
    have hcut := upTo?_separator (hs c List.mem_cons_self) (trimEnd base) s
    have htake : (trimEnd base ++ c :: s).take ((trimEnd base).length + 1) = trimEnd base ++ [c] := by
      simp [List.take_append]
    rwa [← htake, ← hbase] at hcut
  simp only [join?, join, isAbsolute?_eq, size_eq_driveSize_iff hstarts, hlt, Option.bind_eq_bind,
    Option.bind_some]
  cases base.isEmpty <;> cases isAbsolute child <;> cases child.isEmpty <;> simp
  split
  · rename_i h
    rw [hroot h.2, Option.bind_some]
  · rw [List.append_assoc, List.singleton_append]

end Bytework.Path.Portable
