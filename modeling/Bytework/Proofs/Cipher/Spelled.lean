import Bytework.Proofs.Cipher.Groups

/-!
# Texts of symbols

* `Radix.Spells`: a text whose bytes, white space apart, are symbols with some values and then padding.
* `Radix.value?_eq_some_iff`, **`Radix.valuesFrom_eq_ok_iff`**: one symbol, and the whole text.
* `Radix.valuesFrom_symbols`, `Radix.valuesFrom_wrap`: what is written, in lines or not, spells its
  values.
-/

namespace Bytework.Cipher

namespace Radix

variable {R : Radix} {b : UInt8} {v : Nat} {text : Bytes} {values : List Nat}

/-- Symbols with some values, and any padding after them. -/
def Written (R : Radix) (text : Bytes) (values : List Nat) : Prop :=
  ∃ symbols k, text = symbols ++ List.replicate k pad ∧ symbols.map R.fold = values.map R.symbol

/-- Without its white space, a text is symbols with these values and padding. -/
structure Spells (R : Radix) (text : Bytes) (values : List Nat) : Prop where
  lt : ∀ v ∈ values, v < 2 ^ R.width
  written : R.Written (text.filter (!isBlank ·)) values

/-! ## Symbols -/

/-- The value of a symbol is that of the one it is folded to. -/
theorem value?_eq_some_iff (hR : R.Lawful) :
    R.value? b = some v ↔ v < 2 ^ R.width ∧ R.fold b = R.symbol v := by
  constructor
  · intro h
    obtain ⟨hv, hsymbol, -⟩ := List.idxOf?_eq_some_iff.mp h
    refine ⟨hR.length_alphabet ▸ hv, ?_⟩
    rw [symbol, List.getD_eq_getElem?_getD, List.getElem?_eq_getElem hv, Option.getD_some, hsymbol]
  · rintro ⟨hv, hfold⟩
    have hvalue := hR.value v hv
    rwa [value?, hR.folded v hv, ← hfold] at hvalue

theorem Lawful.plain_of_fold (hR : R.Lawful) (hv : v < 2 ^ R.width) (h : R.fold b = R.symbol v) :
    isBlank b = false ∧ b ≠ pad := by
  by_cases hb : b ∈ [pad, 9, 10, 12, 13, 32]
  · have hkept : R.fold b = b := of_decide_eq_true (List.all_eq_true.mp hR.kept b hb)
    rw [hkept] at h
    exact h ▸ hR.plain v hv
  · simp only [List.mem_cons, List.not_mem_nil, or_false, not_or] at hb
    refine ⟨?_, hb.1⟩
    simp [isBlank, hb]

/-! ## Texts -/

theorem valuesFrom_filter (ended : Bool) (text : Bytes) :
    R.valuesFrom ended (text.filter (!isBlank ·)) = R.valuesFrom ended text := by
  induction text generalizing ended with
  | nil => rfl
  | cons b text ih =>
    by_cases hb : isBlank b = true
    · rw [List.filter_cons_of_neg (by simp [hb]), valuesFrom, if_pos hb, ih]
    · rw [List.filter_cons_of_pos (by simp [hb]), valuesFrom, valuesFrom, if_neg hb, if_neg hb, ih,
        ih]

theorem exists_replicate_cons :
    (∃ k, b :: text = List.replicate k pad) ↔ b = pad ∧ ∃ k, text = List.replicate k pad := by
  constructor
  · rintro ⟨k, hk⟩
    cases k with
    | zero => cases hk
    | succ k => exact ⟨(List.cons.inj hk).1, k, (List.cons.inj hk).2⟩
  · rintro ⟨rfl, k, rfl⟩
    exact ⟨k + 1, rfl⟩

/-- After the first padding there is only more of it. -/
theorem valuesFrom_true_iff (hblank : ∀ b ∈ text, isBlank b = false) :
    R.valuesFrom true text = .ok values ↔ values = [] ∧ ∃ k, text = List.replicate k pad := by
  induction text with
  | nil =>
    rw [valuesFrom]
    exact ⟨fun h => ⟨(Except.ok.inj h).symm, 0, rfl⟩, fun h => congrArg Except.ok h.1.symm⟩
  | cons b text ih =>
    obtain ⟨hb, htext⟩ := List.forall_mem_cons.mp hblank
    rw [valuesFrom, if_neg (Bool.eq_false_iff.mp hb), exists_replicate_cons]
    by_cases hpad : b = pad
    · rw [if_pos hpad, ih htext, and_iff_right hpad]
    · rw [if_neg hpad, if_pos rfl]
      exact iff_of_false (fun h => by cases h) fun h => hpad h.2.1

theorem written_nil_iff : R.Written text [] ↔ ∃ k, text = List.replicate k pad := by
  constructor
  · rintro ⟨symbols, k, rfl, hsymbols⟩
    obtain rfl := List.map_eq_nil_iff.mp hsymbols
    exact ⟨k, rfl⟩
  · rintro ⟨k, rfl⟩
    exact ⟨[], k, rfl, rfl⟩

theorem written_cons_iff : R.Written text (v :: values) ↔
    ∃ b rest, text = b :: rest ∧ R.fold b = R.symbol v ∧ R.Written rest values := by
  constructor
  · rintro ⟨symbols, k, rfl, hsymbols⟩
    obtain ⟨b, symbols, rfl, hb, hrest⟩ := List.map_eq_cons_iff.mp hsymbols
    exact ⟨b, _, rfl, hb, symbols, k, rfl, hrest⟩
  · rintro ⟨b, rest, rfl, hb, symbols, k, rfl, hsymbols⟩
    exact ⟨b :: symbols, k, rfl, by rw [List.map_cons, List.map_cons, hb, hsymbols]⟩

theorem map_cons_eq_ok_iff {read : Except Fault (List Nat)} :
    read.map (v :: ·) = .ok values ↔ ∃ rest, values = v :: rest ∧ read = .ok rest := by
  cases read with
  | error fault => exact iff_of_false (fun h => by cases h) fun ⟨_, _, h⟩ => by cases h
  | ok rest =>
    constructor
    · intro h
      exact ⟨rest, (Except.ok.inj h).symm, rfl⟩
    · rintro ⟨_, rfl, h⟩
      exact congrArg (Except.ok <| v :: ·) (Except.ok.inj h)

/-- One symbol in front, and padding nowhere in front of it. -/
theorem written_symbol_iff (hR : R.Lawful) (hpad : b ≠ pad) :
    ((∀ v ∈ values, v < 2 ^ R.width) ∧ R.Written (b :: text) values) ↔
      ∃ v rest, values = v :: rest ∧ R.value? b = some v ∧
        (∀ v ∈ rest, v < 2 ^ R.width) ∧ R.Written text rest := by
  constructor
  · rintro ⟨hlt, hwritten⟩
    cases values with
    | nil => exact absurd (exists_replicate_cons.mp (written_nil_iff.mp hwritten)).1 hpad
    | cons v rest =>
      obtain ⟨c, tail, hcons, hfold, hrest⟩ := written_cons_iff.mp hwritten
      obtain ⟨rfl, rfl⟩ := List.cons.inj hcons
      obtain ⟨hv, hlt⟩ := List.forall_mem_cons.mp hlt
      exact ⟨v, rest, rfl, (value?_eq_some_iff hR).mpr ⟨hv, hfold⟩, hlt, hrest⟩
  · rintro ⟨v, rest, rfl, hvalue, hlt, hrest⟩
    obtain ⟨hv, hfold⟩ := (value?_eq_some_iff hR).mp hvalue
    exact ⟨List.forall_mem_cons.mpr ⟨hv, hlt⟩, written_cons_iff.mpr ⟨b, text, rfl, hfold, hrest⟩⟩

theorem valuesFrom_false_iff (hR : R.Lawful) (hblank : ∀ b ∈ text, isBlank b = false) :
    R.valuesFrom false text = .ok values ↔
      (∀ v ∈ values, v < 2 ^ R.width) ∧ R.Written text values := by
  induction text generalizing values with
  | nil =>
    rw [valuesFrom]
    constructor
    · rintro h
      obtain rfl := Except.ok.inj h
      exact ⟨fun v hv => absurd hv List.not_mem_nil, written_nil_iff.mpr ⟨0, rfl⟩⟩
    · rintro ⟨-, hwritten⟩
      cases values with
      | nil => rfl
      | cons v values =>
        obtain ⟨b, rest, hcons, -⟩ := written_cons_iff.mp hwritten
        cases hcons
  | cons b text ih =>
    obtain ⟨hb, htext⟩ := List.forall_mem_cons.mp hblank
    rw [valuesFrom, if_neg (Bool.eq_false_iff.mp hb)]
    by_cases hpad : b = pad
    · rw [if_pos hpad, valuesFrom_true_iff htext]
      cases values with
      | nil => simp [written_nil_iff, exists_replicate_cons, hpad]
      | cons v values =>
        refine iff_of_false (fun h => by cases h.1) fun ⟨hlt, hwritten⟩ => ?_
        obtain ⟨c, rest, hcons, hfold, -⟩ := written_cons_iff.mp hwritten
        obtain ⟨rfl, rfl⟩ := List.cons.inj hcons
        exact (hR.plain_of_fold (hlt v List.mem_cons_self) hfold).2 hpad
    · rw [if_neg hpad, if_neg Bool.false_ne_true, written_symbol_iff hR hpad]
      cases R.value? b with
      | none => exact iff_of_false (fun h => by cases h) fun ⟨_, _, _, h, _⟩ => by cases h
      | some v =>
        refine map_cons_eq_ok_iff.trans ?_
        constructor
        · rintro ⟨rest, rfl, hrest⟩
          exact ⟨v, rest, rfl, rfl, (ih htext).mp hrest⟩
        · rintro ⟨_, rest, rfl, hv, hrest⟩
          exact ⟨rest, congrArg (· :: rest) (Option.some.inj hv).symm, (ih htext).mpr hrest⟩

/-- **The values of a text** are those that it spells. -/
theorem valuesFrom_eq_ok_iff (hR : R.Lawful) :
    R.valuesFrom false text = .ok values ↔ R.Spells text values := by
  have hblank : ∀ b ∈ text.filter (!isBlank ·), isBlank b = false := fun b hb => by
    simpa using (List.mem_filter.mp hb).2
  rw [← valuesFrom_filter, valuesFrom_false_iff hR hblank]
  exact ⟨fun ⟨hlt, hwritten⟩ => ⟨hlt, hwritten⟩, fun h => ⟨h.lt, h.written⟩⟩

/-- Symbols are read as their values, and padding after them as nothing. -/
theorem valuesFrom_symbols (hR : R.Lawful) (h : ∀ v ∈ values, v < 2 ^ R.width) (k : Nat) :
    R.valuesFrom false (values.map R.symbol ++ List.replicate k pad) = .ok values := by
  have hplain : ∀ b ∈ values.map R.symbol ++ List.replicate k pad, isBlank b = false := by
    intro b hb
    obtain hb | hb := List.mem_append.mp hb
    · obtain ⟨v, hv, rfl⟩ := List.mem_map.mp hb
      exact (hR.plain v (h v hv)).1
    · rw [List.eq_of_mem_replicate hb]
      decide
  refine (valuesFrom_false_iff hR hplain).mpr ⟨h, _, k, rfl, ?_⟩
  rw [List.map_map]
  exact List.map_congr_left fun v hv => hR.folded v (h v hv)

/-! ## Lines -/

/-- What stands between pieces is gone from a selection that leaves it out. -/
theorem filter_intercalate {p : UInt8 → Bool} {b : UInt8} (hb : p b = false) (pieces : List Bytes) :
    (List.intercalate [b] pieces).filter p = pieces.flatten.filter p := by
  induction pieces with
  | nil => rfl
  | cons piece pieces ih =>
    cases pieces with
    | nil => rw [List.intercalate_singleton, List.flatten_singleton]
    | cons next pieces =>
      rw [List.flatten_cons, List.filter_append, ← ih, List.intercalate_cons_cons,
        List.filter_append, List.filter_append, List.filter_cons_of_neg (ne_true_of_eq_false hb),
        List.filter_nil, List.append_nil]

theorem valuesFrom_wrap (width : Nat) (text : Bytes) :
    R.valuesFrom false (wrap width text) = R.valuesFrom false text := by
  unfold wrap
  split
  · rfl
  · have hfeed : (!isBlank lineFeed) = false := by decide
    rw [← valuesFrom_filter, filter_intercalate hfeed, flatten_chunks, valuesFrom_filter]

end Radix

end Bytework.Cipher
