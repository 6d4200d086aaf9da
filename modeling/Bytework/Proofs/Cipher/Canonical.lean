import Bytework.Proofs.Cipher.Accepted
import Mathlib.Data.Nat.ModEq

/-!
# Texts that padded encodings write

* `Padded.Canonical`: symbols with values, in a number that there can be, no bit set behind the full
  bytes, and padding that fills up the last group.
* `Padded.exists_canonical`, `Padded.Canonical.exists_carries`, `Padded.Canonical.padded_eq`: they are
  what is written.
* `Lined`, **`lined_wrap`**: a text in lines.
* **`encode_padded`**: how long the texts are that a codec writes, which these are, how they are read,
  and what lines do to them.
-/

namespace Bytework.Cipher

/-! ## Canonical texts -/

namespace Padded

variable {p : Padded} {text data : Bytes} {values : List Nat} {k : ℕ}

/-- Symbols with these values, and padding in `k` places: whole groups, a number of symbols that there
can be, and no bit set behind the last full byte. -/
structure Canonical (p : Padded) (text : Bytes) (values : List Nat) (k : Nat) : Prop where
  text_eq : text = values.map p.radix.symbol ++ List.replicate k Radix.pad
  lt : ∀ v ∈ values, v < 2 ^ p.radix.width
  groups : text.length % p.radix.group = 0
  pads : k < p.radix.group
  ends : values.length % p.radix.group ∈ p.ends
  spare : ∀ bit ∈ (values.flatMap (bitsOf p.radix.width)).drop
    (8 * (p.radix.width * values.length / 8)), bit = false

/-- What a codec writes is canonical. -/
theorem exists_canonical (p : Padded) (data : Bytes) :
    ∃ values k, p.Canonical (p.radix.padded data) values k ∧ p.radix.Carries values data ∧
      (p.radix.padded data).length =
        p.radix.group * ((data.length + p.radix.size - 1) / p.radix.size) := by
  have hR := p.lawful_radix
  have hle := hR.width_le
  obtain ⟨values, k, hpadded, hcarries, hk, hlengths⟩ := Radix.exists_padded hR data
  obtain ⟨spare, hspare, hbits⟩ := hcarries.bits
  have hlength : (p.radix.padded data).length =
      p.radix.group * ((data.length + p.radix.size - 1) / p.radix.size) := by
    rw [hpadded, List.length_append, List.length_map, List.length_replicate, hlengths]
  refine ⟨values, k, ⟨hpadded, hcarries.lt, ?_, hk, ?_, ?_⟩, hcarries, hlength⟩
  · rw [hlength, Nat.mul_mod_right]
  · rw [p.mod_mem_ends_iff, Radix.length_of_bits hbits]
    omega
  · rw [Radix.full_of_bits hR hspare hbits, hbits, List.drop_left]
    exact fun bit hbit => List.eq_of_mem_replicate hbit

/-- The values of a canonical text carry the bytes that are read. -/
theorem Canonical.exists_carries (h : p.Canonical text values k) :
    ∃ data, p.radix.decode text = .ok data ∧ p.radix.Carries values data := by
  have hR := p.lawful_radix
  have hlegal := (p.mod_mem_ends_iff _).mp h.ends
  have hdecode : p.radix.decode text = p.radix.decodeValues values := by
    rw [h.text_eq, Radix.decode, Radix.valuesFrom_symbols hR h.lt]
    rfl
  obtain ⟨-, data, hdata, hbits⟩ | ⟨hillegal, -⟩ := Radix.decodeValues_cases hR h.lt
  · refine ⟨data, hdecode.trans hdata, h.lt, p.radix.width * values.length % 8, hlegal, ?_⟩
    have hspare := List.eq_replicate_of_mem h.spare
    have hcount : ((values.flatMap (bitsOf p.radix.width)).drop
        (8 * (p.radix.width * values.length / 8))).length = p.radix.width * values.length % 8 := by
      rw [List.length_drop, length_flatMap_bitsOf, Nat.mul_comm values.length]
      omega
    rw [hcount] at hspare
    rw [hbits, ← hspare, List.take_append_drop]
  · exact absurd hlegal hillegal

/-- A canonical text is what is written for the bytes that are read from it. -/
theorem Canonical.padded_eq (h : p.Canonical text values k) (hcarries : p.radix.Carries values data) :
    p.radix.padded data = text := by
  obtain ⟨values', k', hcanonical, hcarries', -⟩ := p.exists_canonical data
  obtain rfl := hcarries'.values_eq hcarries
  have hgroups := h.groups
  have hgroups' := hcanonical.groups
  rw [h.text_eq, List.length_append, List.length_map, List.length_replicate] at hgroups
  rw [hcanonical.text_eq, List.length_append, List.length_map, List.length_replicate] at hgroups'
  have hsame : k' ≡ k [MOD p.radix.group] :=
    Nat.ModEq.add_left_cancel' values'.length (hgroups'.trans hgroups.symm)
  have hk : k' = k := Nat.ModEq.eq_of_lt_of_lt hsame hcanonical.pads h.pads
  rw [hcanonical.text_eq, hk, h.text_eq]

end Padded

/-! ## Lines -/

/-- A text and its lines of the given width, without a line feed behind the last one. -/
structure Lined (width : Nat) (text wrapped : Bytes) : Prop where
  removed : wrapped.filter (· != lineFeed) = text
  lines : ∃ full last, wrapped.splitOn lineFeed = full ++ [last] ∧
    (∀ line ∈ full, line.length = width) ∧ last.length ≤ width ∧ (text ≠ [] → 0 < last.length)
  ends : wrapped.getLast? ≠ some lineFeed

section Lines

variable {α : Type} {width : Nat} {text : Bytes}

/-- All chunks are full but perhaps the last one. -/
theorem exists_chunks (hw : 0 < width) {l : List α} (hne : l ≠ []) :
    ∃ full last, chunks width l = full ++ [last] ∧ (∀ c ∈ full, c.length = width) ∧
      last.length ≤ width ∧ last ≠ [] := by
  induction l using chunks_induction hw with
  | short l hlt =>
    exact ⟨[], l, chunks_of_lt hne hlt, fun c hc => absurd hc List.not_mem_nil, Nat.le_of_lt hlt, hne⟩
  | group l l' hlength ih =>
    have hl : l ≠ [] := List.length_pos_iff.mp (hlength ▸ hw)
    rw [chunks_append hw hlength]
    by_cases hrest : l' = []
    · subst hrest
      exact ⟨[], l, by rw [chunks_nil]; rfl, fun c hc => absurd hc List.not_mem_nil,
        Nat.le_of_eq hlength, hl⟩
    · obtain ⟨full, last, hchunks, hfull, hlast⟩ := ih hrest
      exact ⟨l :: full, last, congrArg (l :: ·) hchunks, List.forall_mem_cons.mpr ⟨hlength, hfull⟩,
        hlast⟩

/-- A wrapped text is its pieces with line feeds between. -/
theorem exists_lines (hw : 0 < width) (text : Bytes) :
    ∃ full last, Radix.wrap width text = List.intercalate [lineFeed] (full ++ [last]) ∧
      (full ++ [last]).flatten = text ∧ (∀ line ∈ full, line.length = width) ∧
      last.length ≤ width ∧ (text ≠ [] → last ≠ []) := by
  unfold Radix.wrap
  split
  · rename_i hshort
    have hle : text.length ≤ width := hshort.resolve_left (Nat.ne_of_gt hw)
    exact ⟨[], text, by simp, by simp, fun _ h => absurd h List.not_mem_nil, hle, id⟩
  · rename_i hlong
    have hne : text ≠ [] := fun hnil => hlong (.inr (hnil ▸ Nat.zero_le _))
    obtain ⟨full, last, hchunks, hfull, hlast, hlastne⟩ := exists_chunks hw hne
    exact ⟨full, last, congrArg _ hchunks, hchunks ▸ flatten_chunks text, hfull, hlast,
      fun _ => hlastne⟩

theorem exists_intercalate_concat (separator : List α) (full : List (List α)) (last : List α) :
    ∃ front, List.intercalate separator (full ++ [last]) = front ++ last := by
  induction full with
  | nil => exact ⟨[], by simp⟩
  | cons piece full ih =>
    obtain ⟨front, hfront⟩ := ih
    refine ⟨piece ++ separator ++ front, ?_⟩
    rw [List.cons_append, List.intercalate_cons_of_ne_nil (List.append_ne_nil_of_right_ne_nil _
      (List.cons_ne_nil _ _)), hfront, List.append_assoc, List.append_assoc, List.append_assoc]

/-- **A wrapped text is in lines**, if it has no line feeds itself. -/
theorem lined_wrap (hw : 0 < width) (hfeed : lineFeed ∉ text) :
    Lined width text (Radix.wrap width text) := by
  obtain ⟨full, last, hwrap, hflatten, hfull, hlast, hlastne⟩ := exists_lines hw text
  have hpieces : ∀ piece ∈ full ++ [last], lineFeed ∉ piece := fun piece hpiece hmem =>
    hfeed (hflatten ▸ List.mem_flatten.mpr ⟨piece, hpiece, hmem⟩)
  rw [hwrap]
  refine ⟨?_, ⟨full, last, ?_, hfull, hlast, fun hne => List.length_pos_iff.mpr (hlastne hne)⟩, ?_⟩
  · rw [Radix.filter_intercalate (by simp), hflatten]
    refine List.filter_eq_self.mpr fun b hb => ?_
    simpa using fun h : b = lineFeed => hfeed (h ▸ hb)
  · exact List.splitOn_intercalate lineFeed hpieces (by simp)
  · obtain ⟨front, hfront⟩ := exists_intercalate_concat [lineFeed] full last
    rw [← hwrap]
    by_cases hne : text = []
    · simp [hne, Radix.wrap]
    · rw [hwrap, hfront, List.getLast?_append, List.getLast?_eq_some_getLast (hlastne hne),
        Option.some_or]
      intro hlf
      exact hpieces last (List.mem_append_right _ List.mem_cons_self)
        (Option.some.inj hlf ▸ List.getLast_mem _)

end Lines

/-! ## What is written -/

/-- No line feed is written but by wrapping. -/
theorem lineFeed_notMem_padded (p : Padded) (data : Bytes) : lineFeed ∉ p.radix.padded data := by
  have hblank : isBlank lineFeed = true := by decide
  have hpad : isBlank Radix.pad = false := by decide
  obtain ⟨values, k, hcanonical, -⟩ := p.exists_canonical data
  rw [hcanonical.text_eq]
  intro hfeed
  obtain hfeed | hfeed := List.mem_append.mp hfeed
  · obtain ⟨v, hv, hsymbol⟩ := List.mem_map.mp hfeed
    have hplain := (p.lawful_radix.plain v (hcanonical.lt v hv)).1
    rw [hsymbol, hblank] at hplain
    cases hplain
  · rw [← List.eq_of_mem_replicate hfeed, hblank] at hpad
    cases hpad

theorem encode_unwrapped (p : Padded) (data : Bytes) :
    (p.spec 0).encode data = p.radix.padded data := by
  rw [p.spec_encode, Radix.encode, Radix.wrap, if_pos (.inl rfl)]

/-- **What a codec with padding writes.** In one line, the texts are whole groups, as many as there are
groups of bytes; they are the canonical ones, and these are read as what they are written for. In
lines, nothing but line feeds is added, every line but the last one is full, and that one is not
empty. -/
theorem encode_padded (p : Padded) :
    (∀ data, ((p.spec 0).encode data).length =
      p.radix.group * ((data.length + p.radix.size - 1) / p.radix.size)) ∧
    (∀ text, (∃ data, (p.spec 0).encode data = text) ↔ ∃ values k, p.Canonical text values k) ∧
    (∀ text values k, p.Canonical text values k →
      ∃ data, (p.spec 0).decode text = .ok data ∧ (p.spec 0).encode data = text) ∧
    ∀ width data, 0 < width →
      Lined width ((p.spec 0).encode data) ((p.spec width).encode data) ∧
      (data ≠ [] → (p.spec 0).encode data ≠ []) := by
  have hread : ∀ text values k, p.Canonical text values k →
      ∃ data, (p.spec 0).decode text = .ok data ∧ (p.spec 0).encode data = text := by
    intro text values k hcanonical
    obtain ⟨data, hdata, hcarries⟩ := hcanonical.exists_carries
    refine ⟨data, ?_, (encode_unwrapped p data).trans (hcanonical.padded_eq hcarries)⟩
    rw [p.spec_decode, hdata]
    rfl
  refine ⟨fun data => ?length, fun text => ⟨?canonical, ?written⟩, hread, fun width data hw =>
    ⟨?lined, ?nonempty⟩⟩
  case length =>
    obtain ⟨values, k, -, -, hlength⟩ := p.exists_canonical data
    rw [encode_unwrapped, hlength]
  case canonical =>
    rintro ⟨data, rfl⟩
    obtain ⟨values, k, hcanonical, -⟩ := p.exists_canonical data
    exact ⟨values, k, encode_unwrapped p data ▸ hcanonical⟩
  case written =>
    rintro ⟨values, k, hcanonical⟩
    obtain ⟨data, -, hdata⟩ := hread text values k hcanonical
    exact ⟨data, hdata⟩
  case lined =>
    rw [encode_unwrapped, p.spec_encode]
    exact lined_wrap hw (lineFeed_notMem_padded p data)
  case nonempty =>
    intro hne hnil
    obtain ⟨values, k, hcanonical, hcarries, -⟩ := p.exists_canonical data
    rw [encode_unwrapped, hcanonical.text_eq] at hnil
    obtain rfl := List.map_eq_nil_iff.mp (List.append_eq_nil_iff.mp hnil).1
    obtain ⟨spare, -, hbits⟩ := hcarries.bits
    have hcount := Radix.length_of_bits hbits
    rw [List.length_nil, Nat.mul_zero] at hcount
    exact hne (List.length_eq_zero_iff.mp (by omega))

/-- Four bytes are a group with padding in one place, and three lines of at most three symbols. -/
theorem encode_padded_foob :
    Padded.base32.Canonical (ascii "MZXW6YQ=") [12, 25, 23, 22, 30, 24, 16] 1 ∧
      (∃ data, (Padded.base32.spec 0).decode (ascii "MZXW6YQ=") = .ok data ∧
        (Padded.base32.spec 0).encode data = ascii "MZXW6YQ=") ∧
      0 < 3 ∧ Lined 3 ((Padded.base32.spec 0).encode (ascii "foob"))
        ((Padded.base32.spec 3).encode (ascii "foob")) := by
  have hcanonical : Padded.base32.Canonical (ascii "MZXW6YQ=") [12, 25, 23, 22, 30, 24, 16] 1 := by
    constructor <;> decide
  have hwritten := encode_padded .base32
  exact ⟨hcanonical, hwritten.2.2.1 _ _ _ hcanonical, by decide,
    (hwritten.2.2.2 3 (ascii "foob") (by decide)).1⟩

end Bytework.Cipher
