import Bytework.Proofs.Cipher.Bits

/-!
# Groups of bytes and of symbols

The symbols of a group of bytes are the digits of one number, and so are the bytes of a group of
symbols.

* `Radix.Lawful`: an alphabet whose symbols are read as their own values, and groups of bytes that are
  groups of symbols; `lawful_base64`, `lawful_base64Url`, `lawful_base32`.
* `Radix.Carries`: values that have the bits of some bytes; `Carries.values_eq`: there are no others.
* **`Radix.exists_padded`**: what is written carries the bytes.
* **`Radix.decodeValues_cases`**: what is read are the leading bits of the values.
-/

namespace Bytework.Cipher

namespace Radix

/-- Symbols of at most eight bits that are read as their own values. A group of bytes has as many bits
as a group of symbols, and what is written for part of one, or read from it, is as much as needed. -/
structure Lawful (R : Radix) : Prop where
  width_pos : 0 < R.width
  width_le : R.width ≤ 8
  size_pos : 0 < R.size
  group_eq : R.width * R.group = 8 * R.size
  length_alphabet : R.alphabet.length = 2 ^ R.width
  value : ∀ n < 2 ^ R.width, R.value? (R.symbol n) = some n
  folded : ∀ n < 2 ^ R.width, R.fold (R.symbol n) = R.symbol n
  plain : ∀ n < 2 ^ R.width, isBlank (R.symbol n) = false ∧ R.symbol n ≠ pad
  kept : [pad, 9, 10, 12, 13, 32].all fun b => R.fold b = b
  written_eq : ∀ n < R.size, R.written (n + 1) = (8 * (n + 1) + R.width - 1) / R.width
  carried_eq : ∀ n < R.group, R.carried? (n + 1) =
    if R.width * (n + 1) % 8 < R.width then some (R.width * (n + 1) / 8) else none

theorem lawful_base64 : base64.Lawful := by
  constructor <;> decide

theorem lawful_base64Url : base64Url.Lawful := by
  constructor <;> decide

theorem lawful_base32 : base32.Lawful := by
  constructor <;> decide

theorem Lawful.group_pos {R : Radix} (hR : R.Lawful) : 0 < R.group := by
  have hsize := hR.size_pos
  have hbits := hR.group_eq
  refine Nat.pos_of_ne_zero fun hzero => ?_
  rw [hzero, Nat.mul_zero] at hbits
  omega

/-- Values with the bits of some bytes, and after them fewer zeros than a symbol has bits. -/
structure Carries (R : Radix) (values : List Nat) (data : Bytes) : Prop where
  lt : ∀ v ∈ values, v < 2 ^ R.width
  bits : ∃ spare < R.width, values.flatMap (bitsOf R.width) =
    bitsOfBytes data ++ List.replicate spare false

variable {R : Radix} {data bytes : Bytes} {values values' : List Nat}

theorem length_of_bits {spare : Nat} (h : values.flatMap (bitsOf R.width) =
    bitsOfBytes data ++ List.replicate spare false) :
    R.width * values.length = 8 * data.length + spare := by
  have hlength := congrArg List.length h
  rwa [length_flatMap_bitsOf, List.length_append, length_bitsOfBytes, List.length_replicate,
    Nat.mul_comm, Nat.mul_comm data.length] at hlength

theorem full_of_bits {spare : Nat} (hR : R.Lawful) (hspare : spare < R.width)
    (h : values.flatMap (bitsOf R.width) = bitsOfBytes data ++ List.replicate spare false) :
    8 * (R.width * values.length / 8) = (bitsOfBytes data).length := by
  have hle := hR.width_le
  rw [length_bitsOfBytes, length_of_bits h]
  omega

/-- The values that carry some bytes are the only ones. -/
theorem Carries.values_eq (h : R.Carries values data) (h' : R.Carries values' data) :
    values = values' := by
  obtain ⟨spare, hspare, hbits⟩ := h.bits
  obtain ⟨spare', hspare', hbits'⟩ := h'.bits
  have hlength := length_of_bits hbits
  have hlength' := length_of_bits hbits'
  have hle : ∀ {m n : Nat}, R.width * m < R.width * n + R.width → m ≤ n := fun hlt =>
    Nat.le_of_lt_succ (Nat.lt_of_mul_lt_mul_left (Nat.mul_succ .. ▸ hlt))
  have hcount : values.length = values'.length := Nat.le_antisymm (hle (by omega)) (hle (by omega))
  have hspares : spare = spare' := by
    rw [hcount] at hlength
    omega
  exact flatMap_bitsOf_injective h.lt h'.lt hcount (by rw [hbits, hbits', hspares])

/-! ## Writing -/

/-- The values of the symbols of a group of bytes. -/
def groupValues (R : Radix) (bytes : Bytes) : List Nat :=
  (digitsOf R.width R.group (join 8 R.size (bytes.map UInt8.toNat))).take (R.written bytes.length)

/-- How many symbols are written for a group of bytes: as many as carry its bits. -/
theorem Lawful.written_bounds (hR : R.Lawful) (hne : bytes ≠ []) (hle : bytes.length ≤ R.size) :
    8 * bytes.length ≤ R.width * R.written bytes.length ∧
      R.width * R.written bytes.length < 8 * bytes.length + R.width ∧
      R.written bytes.length ≤ R.group := by
  have hpos := List.length_pos_iff.mpr hne
  have hwritten := hR.written_eq (bytes.length - 1) (by omega)
  rw [Nat.sub_add_cancel hpos] at hwritten
  have hdiv := Nat.div_add_mod (8 * bytes.length + R.width - 1) R.width
  have hmod := Nat.mod_lt (8 * bytes.length + R.width - 1) hR.width_pos
  have hwidth := hR.width_pos
  rw [← hwritten] at hdiv
  refine ⟨by omega, by omega, ?_⟩
  have hgroup := hR.group_eq
  have hlt : R.width * R.written bytes.length < R.width * (R.group + 1) := by
    rw [Nat.mul_succ]
    omega
  exact Nat.le_of_lt_succ (Nat.lt_of_mul_lt_mul_left hlt)

theorem length_groupValues (h : R.written bytes.length ≤ R.group) :
    (R.groupValues bytes).length = R.written bytes.length := by
  rw [groupValues, List.length_take, length_digitsOf, Nat.min_eq_left h]

theorem encodeGroup_eq (h : R.written bytes.length ≤ R.group) : R.encodeGroup bytes =
    (R.groupValues bytes).map R.symbol ++ List.replicate (R.group - R.written bytes.length) pad := by
  obtain ⟨rest, hrest⟩ := Nat.exists_eq_add_of_le h
  rw [encodeGroup, groupValues, digitsOf, ← List.map_take, List.take_range, Nat.min_eq_left h,
    List.map_map, hrest, Nat.add_sub_cancel_left, List.range_add, List.map_append, List.map_map]
  congr 1
  · exact List.map_congr_left fun i hi => if_pos (List.mem_range.mp hi)
  · rw [← List.length_range (n := rest), ← List.map_const', List.length_range]
    exact List.map_congr_left fun i _ => if_neg (Nat.not_lt.mpr (Nat.le_add_right _ i))

theorem carries_groupValues (hR : R.Lawful) (hne : bytes ≠ []) (hle : bytes.length ≤ R.size) :
    R.Carries (R.groupValues bytes) bytes := by
  obtain ⟨hlow, hhigh, hgroup⟩ := hR.written_bounds hne hle
  refine ⟨fun v hv => lt_of_mem_digitsOf (List.mem_of_mem_take hv),
    R.width * R.written bytes.length - 8 * bytes.length, by omega, ?_⟩
  have hdigits : ∀ d ∈ bytes.map UInt8.toNat, d < 2 ^ 8 := by
    rintro d hd
    obtain ⟨b, -, rfl⟩ := List.mem_map.mp hd
    exact b.toNat_lt
  have hbits : (bytes.map UInt8.toNat).flatMap (bitsOf 8) = bitsOfBytes bytes :=
    List.flatMap_map ..
  have hlength : R.width * R.written bytes.length =
      (bitsOfBytes bytes).length + (R.width * R.written bytes.length - 8 * bytes.length) := by
    rw [length_bitsOfBytes]
    omega
  have hroom : R.width * R.written bytes.length ≤ 8 * R.size :=
    hR.group_eq ▸ Nat.mul_le_mul_left _ hgroup
  rw [groupValues, take_flatMap_bitsOf, flatMap_digitsOf, hR.group_eq,
    bitsOf_join (by rwa [List.length_map]) hdigits, hbits, hlength, List.take_length_add_append,
    List.take_replicate, List.length_map]
  congr 2
  omega

/-- Values that carry bytes one after the other, where no zeros are between. -/
theorem Carries.append {data' : Bytes} (h : R.Carries values data)
    (hfull : R.width * values.length = 8 * data.length) (h' : R.Carries values' data') :
    R.Carries (values ++ values') (data ++ data') := by
  obtain ⟨spare, -, hbits⟩ := h.bits
  obtain ⟨spare', hspare', hbits'⟩ := h'.bits
  have hnone : spare = 0 := by
    have hlength := length_of_bits hbits
    omega
  refine ⟨fun v hv => (List.mem_append.mp hv).elim (h.lt v) (h'.lt v), spare', hspare', ?_⟩
  rw [List.flatMap_append, hbits, hbits', hnone, List.replicate_zero, List.append_nil,
    bitsOfBytes_append, List.append_assoc]

/-- **What is written**: symbols whose values carry the bytes, and padding to the end of the last
group. -/
theorem exists_padded (hR : R.Lawful) (data : Bytes) :
    ∃ values k, R.padded data = values.map R.symbol ++ List.replicate k pad ∧ R.Carries values data ∧
      k < R.group ∧ values.length + k = R.group * ((data.length + R.size - 1) / R.size) := by
  have hsize := hR.size_pos
  induction data using chunks_induction hsize with
  | short data hlt =>
    by_cases hne : data = []
    · subst hne
      have hgroups : (([] : Bytes).length + R.size - 1) / R.size = 0 :=
        Nat.div_eq_of_lt (by rw [List.length_nil]; omega)
      refine ⟨[], 0, by rw [padded, chunks_nil]; rfl, ⟨fun v hv => absurd hv List.not_mem_nil, 0,
        hR.width_pos, rfl⟩, hR.group_pos, ?_⟩
      rw [hgroups]
      rfl
    · obtain ⟨hlow, -, hle⟩ := hR.written_bounds hne (Nat.le_of_lt hlt)
      have hpos := List.length_pos_iff.mpr hne
      have hgroups : (data.length + R.size - 1) / R.size = 1 :=
        Nat.div_eq_of_lt_le (by omega) (by omega)
      have hwritten : 0 < R.written data.length := Nat.pos_of_ne_zero fun hzero => by
        rw [hzero, Nat.mul_zero] at hlow
        omega
      refine ⟨R.groupValues data, R.group - R.written data.length, ?_,
        carries_groupValues hR hne (Nat.le_of_lt hlt), by omega, ?_⟩
      · rw [padded, chunks_of_lt hne hlt, List.flatMap_singleton, encodeGroup_eq hle]
      · rw [length_groupValues hle, hgroups]
        omega
  | group bytes data hlength ih =>
    obtain ⟨values, k, hpadded, hcarries, hk, hlengths⟩ := ih
    have hne : bytes ≠ [] := List.length_pos_iff.mp (hlength ▸ hsize)
    obtain ⟨hlow, -, hle⟩ := hR.written_bounds hne (Nat.le_of_eq hlength)
    -- a full group of bytes leaves no room for padding
    have hfull : R.written bytes.length = R.group := by
      rw [hlength, ← hR.group_eq] at hlow
      exact Nat.le_antisymm hle (hlength ▸ Nat.le_of_mul_le_mul_left hlow hR.width_pos)
    refine ⟨R.groupValues bytes ++ values, k, ?_, Carries.append
      (carries_groupValues hR hne (Nat.le_of_eq hlength)) ?_ hcarries, hk, ?_⟩
    · rw [padded, chunks_append hsize hlength, List.flatMap_cons, ← padded, encodeGroup_eq hle, hfull,
        Nat.sub_self, List.replicate_zero, List.append_nil, hpadded, List.map_append,
        List.append_assoc]
    · rw [length_groupValues hle, hfull, hlength, hR.group_eq]
    · have hgroups : (bytes.length + data.length + R.size - 1) / R.size =
          (data.length + R.size - 1) / R.size + 1 := by
        rw [hlength, ← Nat.add_div_right _ hsize]
        congr 1
        omega
      rw [List.length_append, List.length_append, length_groupValues hle, hfull, hgroups, Nat.mul_succ,
        Nat.add_assoc, hlengths, Nat.add_comm]

/-! ## Reading -/

/-- What a group of symbols carries: the full bytes of their bits, if the rest is less than a
symbol. -/
theorem decodeGroup_cases (hR : R.Lawful) (hne : values ≠ []) (hle : values.length ≤ R.group)
    (hlt : ∀ v ∈ values, v < 2 ^ R.width) :
    (R.width * values.length % 8 < R.width ∧ ∃ out, R.decodeGroup values = .ok out ∧
      bitsOfBytes out =
        (values.flatMap (bitsOf R.width)).take (8 * (R.width * values.length / 8))) ∨
    ¬ R.width * values.length % 8 < R.width ∧ R.decodeGroup values = .error R.truncated := by
  have hpos := List.length_pos_iff.mpr hne
  have hcarried := hR.carried_eq (values.length - 1) (by omega)
  rw [Nat.sub_add_cancel hpos] at hcarried
  by_cases hlegal : R.width * values.length % 8 < R.width
  · rw [if_pos hlegal] at hcarried
    refine .inl ⟨hlegal, _, by rw [decodeGroup, hcarried], ?_⟩
    have hroom : R.width * values.length ≤ 8 * R.size :=
      hR.group_eq ▸ Nat.mul_le_mul_left _ hle
    have hbytes : (List.range (R.width * values.length / 8)).map
        (fun i => (digitAt 8 R.size (join R.width R.group values) i).toUInt8) =
        ((digitsOf 8 R.size (join R.width R.group values)).take
          (R.width * values.length / 8)).map Nat.toUInt8 := by
      rw [digitsOf, ← List.map_take, List.take_range, Nat.min_eq_left (by omega), List.map_map]
      rfl
    rw [hbytes, bitsOfBytes_map_toUInt8, take_flatMap_bitsOf, flatMap_digitsOf, ← hR.group_eq,
      bitsOf_join hle hlt]
    refine List.take_append_of_le_length ?_
    rw [length_flatMap_bitsOf, Nat.mul_comm values.length]
    omega
  · rw [if_neg hlegal] at hcarried
    exact .inr ⟨hlegal, by rw [decodeGroup, hcarried]⟩

theorem decodeValues_nil : R.decodeValues [] = .ok [] := by
  rw [decodeValues, chunks_nil]
  rfl

theorem decodeValues_of_lt (hne : values ≠ []) (hlt : values.length < R.group) :
    R.decodeValues values = R.decodeGroup values := by
  rw [decodeValues, chunks_of_lt hne hlt, List.mapM_cons, List.mapM_nil]
  cases R.decodeGroup values with
  | error fault => rfl
  | ok out => exact congrArg Except.ok (List.append_nil out)

theorem decodeValues_append (hgroup : 0 < R.group) (hlength : values.length = R.group) :
    R.decodeValues (values ++ values') = (R.decodeGroup values).bind fun out =>
      (R.decodeValues values').map (out ++ ·) := by
  rw [decodeValues, chunks_append hgroup hlength, List.mapM_cons]
  cases R.decodeGroup values with
  | error fault => rfl
  | ok out =>
    rw [decodeValues]
    cases (chunks R.group values').mapM R.decodeGroup with
    | error fault => rfl
    | ok groups => rfl

/-- **What the symbols of a text carry**: the full bytes of their bits, if the rest is less than a
symbol. -/
theorem decodeValues_cases (hR : R.Lawful) (hlt : ∀ v ∈ values, v < 2 ^ R.width) :
    (R.width * values.length % 8 < R.width ∧ ∃ out, R.decodeValues values = .ok out ∧
      bitsOfBytes out =
        (values.flatMap (bitsOf R.width)).take (8 * (R.width * values.length / 8))) ∨
    ¬ R.width * values.length % 8 < R.width ∧ R.decodeValues values = .error R.truncated := by
  induction values using chunks_induction hR.group_pos with
  | short values hlength =>
    by_cases hne : values = []
    · subst hne
      exact .inl ⟨by simpa using hR.width_pos, [], decodeValues_nil, by simp [bitsOfBytes]⟩
    · rw [decodeValues_of_lt hne hlength]
      exact decodeGroup_cases hR hne (Nat.le_of_lt hlength) hlt
  | group values values' hlength ih =>
    obtain ⟨hvalues, hvalues'⟩ := List.forall_mem_append.mp hlt
    have hne : values ≠ [] := List.length_pos_iff.mp (hlength ▸ hR.group_pos)
    -- the bits of a full group are those of full bytes
    have hfull : R.width * values.length = 8 * R.size := hlength ▸ hR.group_eq
    have hwidth := hR.width_pos
    obtain ⟨-, out, hout, hbits⟩ | ⟨hillegal, -⟩ :=
      decodeGroup_cases hR hne (Nat.le_of_eq hlength) hvalues
    · rw [decodeValues_append hR.group_pos hlength, hout, List.length_append, Nat.mul_add, hfull,
        Nat.mul_add_mod]
      refine (ih hvalues').imp (And.imp_right ?_) (And.imp_right fun herror => ?_)
      · rintro ⟨out', hout', hbits'⟩
        refine ⟨out ++ out', by rw [hout']; rfl, ?_⟩
        have hlength : 8 * ((8 * R.size + R.width * values'.length) / 8) =
            (values.flatMap (bitsOf R.width)).length + 8 * (R.width * values'.length / 8) := by
          rw [length_flatMap_bitsOf, Nat.mul_comm values.length, hfull]
          omega
        rw [bitsOfBytes_append, hbits, hbits', List.flatMap_append, hlength, List.take_length_add_append,
          List.take_of_length_le]
        rw [length_flatMap_bitsOf, Nat.mul_comm values.length, hfull]
        omega
      · rw [herror]
        rfl
    · rw [hfull] at hillegal
      omega

theorem Carries.decodeValues_eq (hR : R.Lawful) (h : R.Carries values data) :
    R.decodeValues values = .ok data := by
  have hle := hR.width_le
  obtain ⟨spare, hspare, hvalues⟩ := h.bits
  obtain ⟨-, out, hout, hbits⟩ | ⟨hillegal, -⟩ := decodeValues_cases hR h.lt
  · rw [full_of_bits hR hspare hvalues, hvalues, List.take_left] at hbits
    rw [hout, bitsOfBytes_injective hbits]
  · rw [length_of_bits hvalues] at hillegal
    omega

end Radix

end Bytework.Cipher
