import Bytework.Proofs.Cipher.Legible

/-!
# Texts read as glyphs

A text is read in rounds: the longest glyph at its front becomes a letter, or its first byte stays.

* `Leet.Round`: what one round makes of a text; `Leet.Round.unique`, `Leet.Round.length_lt`: there is
  only one such round, and less is left after it.
* `Leet.exists_round`: every text that has bytes has a round, which is the one that reading makes.
* `Leet.rounds_induction`: induction on the rounds of a text.
* **`Leet.decode_rounds`**: reading is the rounds one after the other; nothing gets longer, and a text
  without letters is written again.
-/

namespace Bytework.Cipher.Leet

variable {b b' : UInt8} {i : Nat} {text rest rest' : Bytes} {p : UInt8 × Bytes}

/-! ## Glyphs -/

theorem nodup_glyphs : glyphs.Nodup := by
  decide

theorem nil_notMem_glyphs : [] ∉ glyphs := by
  decide

theorem lt_of_glyph {glyph : Bytes} (h : glyphs[i]? = some glyph) : i < 26 :=
  (List.getElem?_eq_some_iff.mp h).1

theorem length_pos_of_glyph {glyph : Bytes} (h : glyphs[i]? = some glyph) : 0 < glyph.length :=
  List.length_pos_iff.mpr fun hnil => nil_notMem_glyphs (hnil ▸ List.mem_of_getElem? h)

theorem longer_cases (a b : UInt8 × Bytes) : (longer a b = a ∨ longer a b = b) ∧
    a.2.length ≤ (longer a b).2.length ∧ b.2.length ≤ (longer a b).2.length := by
  unfold longer
  split
  · exact ⟨.inl rfl, Nat.le_refl _, by omega⟩
  · exact ⟨.inr rfl, by omega, Nat.le_refl _⟩

/-- The longest of some glyphs is one of them. -/
theorem foldl_longer (first : UInt8 × Bytes) (found : List (UInt8 × Bytes)) :
    found.foldl longer first ∈ first :: found ∧
      ∀ q ∈ first :: found, q.2.length ≤ (found.foldl longer first).2.length := by
  induction found generalizing first with
  | nil => simp
  | cons next found ih =>
    obtain ⟨hof, hfirst, hnext⟩ := longer_cases first next
    obtain ⟨hmem, hlongest⟩ := ih (longer first next)
    obtain ⟨hlonger, hfound⟩ := List.forall_mem_cons.mp hlongest
    rw [List.foldl_cons]
    constructor
    · obtain heq | hmem := List.mem_cons.mp hmem
      · rw [heq]
        obtain h | h := hof <;> simp [h]
      · exact List.mem_cons_of_mem _ (List.mem_cons_of_mem _ hmem)
    · exact List.forall_mem_cons.mpr ⟨Nat.le_trans hfirst hlonger,
        List.forall_mem_cons.mpr ⟨Nat.le_trans hnext hlonger, hfound⟩⟩

/-- The glyphs that a text starts with, and their letters. -/
def candidates (text : Bytes) : List (UInt8 × Bytes) :=
  (glyphs.mapIdx fun i g => (letterAt i, g)).filter fun p => p.2.isPrefixOf text

theorem mem_candidates_iff :
    p ∈ candidates text ↔ ∃ i, glyphs[i]? = some p.2 ∧ letterAt i = p.1 ∧ p.2 <+: text := by
  rw [candidates, List.mem_filter, List.isPrefixOf_iff_prefix, List.mem_mapIdx]
  constructor
  · rintro ⟨⟨i, hi, rfl⟩, hstarts⟩
    exact ⟨i, List.getElem?_eq_getElem hi, rfl, hstarts⟩
  · rintro ⟨i, hglyph, hletter, hstarts⟩
    obtain ⟨hi, hget⟩ := List.getElem?_eq_some_iff.mp hglyph
    exact ⟨⟨i, hi, Prod.ext hletter hget⟩, hstarts⟩

theorem exists_candidate {g : Bytes} (hg : g ∈ glyphs) (hstarts : g <+: text) :
    ∃ letter, (letter, g) ∈ candidates text := by
  obtain ⟨i, hi⟩ := List.mem_iff_getElem?.mp hg
  exact ⟨letterAt i, mem_candidates_iff.mpr ⟨i, hi, rfl, hstarts⟩⟩

theorem glyphAt?_eq (text : Bytes) : glyphAt? text =
    match candidates text with
    | [] => none
    | first :: rest => some (rest.foldl longer first) := rfl

theorem not_prefix_of_glyphAt? (h : glyphAt? text = none) : ∀ g ∈ glyphs, ¬ g <+: text := by
  intro g hg hstarts
  obtain ⟨letter, hmem⟩ := exists_candidate hg hstarts
  rw [glyphAt?_eq] at h
  split at h
  · rename_i hnil
    rw [hnil] at hmem
    exact List.not_mem_nil hmem
  · cases h

theorem longest_of_glyphAt? (h : glyphAt? text = some p) :
    (∃ i, glyphs[i]? = some p.2 ∧ letterAt i = p.1) ∧ p.2 <+: text ∧
      ∀ g ∈ glyphs, g <+: text → g.length ≤ p.2.length := by
  rw [glyphAt?_eq] at h
  split at h
  · cases h
  · rename_i first found hfound
    cases h
    obtain ⟨hmem, hlongest⟩ := foldl_longer first found
    obtain ⟨i, hglyph, hletter, hstarts⟩ := mem_candidates_iff.mp (hfound ▸ hmem)
    refine ⟨⟨i, hglyph, hletter⟩, hstarts, fun g hg hg' => ?_⟩
    obtain ⟨letter, hcandidate⟩ := exists_candidate hg hg'
    exact hlongest _ (hfound ▸ hcandidate)

/-! ## Rounds -/

/-- One round of reading: the longest glyph at the front of a text becomes its letter; a byte at which
no glyph starts stays. -/
inductive Round : Bytes → UInt8 → Bytes → Prop
  | glyph {i : Nat} {g rest : Bytes} (glyph : glyphs[i]? = some g)
      (longest : ∀ g' ∈ glyphs, g' <+: g ++ rest → g'.length ≤ g.length) :
      Round (g ++ rest) (letterAt i) rest
  | byte {b : UInt8} {rest : Bytes} (plain : ∀ g ∈ glyphs, ¬ g <+: b :: rest) :
      Round (b :: rest) b rest

theorem Round.length_lt (h : Round text b rest) : rest.length < text.length := by
  cases h with
  | glyph hglyph =>
    have hpos := length_pos_of_glyph hglyph
    rw [List.length_append]
    omega
  | byte => exact Nat.lt_succ_self _

/-- There is only one round: of two glyphs at the front of a text that are the longest, each starts with
the other. -/
theorem Round.unique (h : Round text b rest) (h' : Round text b' rest') : b' = b ∧ rest' = rest := by
  cases h with
  | byte plain =>
    generalize htext : b :: rest = text at h'
    cases h' with
    | byte =>
      obtain ⟨rfl, rfl⟩ := List.cons.inj htext
      exact ⟨rfl, rfl⟩
    | glyph hglyph =>
      rw [htext] at plain
      exact absurd (List.prefix_append _ _) (plain _ (List.mem_of_getElem? hglyph))
  | @glyph i g rest hglyph longest =>
    generalize htext : g ++ rest = text at h'
    cases h' with
    | byte plain =>
      rw [← htext] at plain
      exact absurd (List.prefix_append _ _) (plain _ (List.mem_of_getElem? hglyph))
    | @glyph j g' rest' hglyph' longest' =>
      have hle := longest g' (List.mem_of_getElem? hglyph') ⟨rest', htext.symm⟩
      have hge := longest' g (List.mem_of_getElem? hglyph) ⟨rest, htext⟩
      obtain ⟨rfl, rfl⟩ := List.append_inj htext (Nat.le_antisymm hge hle)
      obtain rfl : j = i :=
        (List.getElem?_inj (lt_of_glyph hglyph') nodup_glyphs).mp (hglyph'.trans hglyph.symm)
      exact ⟨rfl, rfl⟩

theorem decodeFrom_append (passed text : Bytes) :
    decodeFrom passed.length (passed ++ text) = decodeFrom 0 text := by
  induction passed with
  | nil => rfl
  | cons b passed ih => exact ih

/-- A text that has bytes has a round, which is the one that reading makes. -/
theorem exists_round (hne : text ≠ []) :
    ∃ b rest, Round text b rest ∧ decode text = b :: decode rest := by
  obtain ⟨a, tail, rfl⟩ := List.exists_cons_of_ne_nil hne
  rw [decode, decodeFrom]
  cases hglyph : glyphAt? (a :: tail) with
  | none => exact ⟨a, tail, .byte (not_prefix_of_glyphAt? hglyph), rfl⟩
  | some p =>
    obtain ⟨⟨i, hi, hletter⟩, ⟨rest, hrest⟩, hlongest⟩ := longest_of_glyphAt? hglyph
    obtain ⟨c, passed, hpassed⟩ := List.exists_cons_of_ne_nil
      (List.length_pos_iff.mp (length_pos_of_glyph hi))
    refine ⟨p.1, rest, ?_, ?_⟩
    · rw [← hrest] at hlongest ⊢
      exact hletter ▸ .glyph hi hlongest
    · obtain rfl : passed ++ rest = tail := by
        rw [hpassed] at hrest
        exact (List.cons.inj hrest).2
      show p.1 :: decodeFrom (p.2.length - 1) (passed ++ rest) = _
      rw [hpassed, List.length_cons, Nat.add_sub_cancel, decodeFrom_append]
      rfl

/-- Induction on the rounds of a text. -/
theorem rounds_induction {motive : Bytes → Prop} (nil : motive [])
    (round : ∀ text b rest, Round text b rest → decode text = b :: decode rest → motive rest →
      motive text) (text : Bytes) : motive text := by
  induction hn : text.length using Nat.strongRecOn generalizing text with
  | _ n ih =>
    subst hn
    by_cases hne : text = []
    · exact hne ▸ nil
    · obtain ⟨b, rest, hround, hdecode⟩ := exists_round hne
      exact round text b rest hround hdecode (ih _ hround.length_lt rest rfl)

/-! ## Written again -/

theorem encode_cons (b : UInt8) (text : Bytes) : encode (b :: text) =
    (if isAlpha b then glyphs.getD (letterIndex b) [b] else [b]) ++ encode text :=
  List.flatMap_cons

theorem encode_letterAt {g : Bytes} (h : glyphs[i]? = some g) (text : Bytes) :
    encode (letterAt i :: text) = g ++ encode text := by
  have hi := lt_of_glyph h
  rw [encode_cons, if_pos (isAlpha_letterAt hi), letterIndex_letterAt hi,
    List.getD_eq_getElem?_getD, h, Option.getD_some]

theorem length_decode_le (text : Bytes) : (decode text).length ≤ text.length := by
  induction text using rounds_induction with
  | nil => exact Nat.le_refl _
  | round text b rest hround hdecode ih =>
    have hlt := hround.length_lt
    rw [hdecode, List.length_cons]
    omega

/-- A text without letters is written again. -/
theorem encode_decode (h : ∀ b ∈ text, isAlpha b = false) : encode (decode text) = text := by
  induction text using rounds_induction with
  | nil => rfl
  | round text b rest hround hdecode ih =>
    rw [hdecode]
    cases hround with
    | glyph hglyph =>
      rw [encode_letterAt hglyph, ih fun b hb => h b (List.mem_append_right _ hb)]
    | byte =>
      obtain ⟨hb, hrest⟩ := List.forall_mem_cons.mp h
      rw [encode_cons, hb, if_neg Bool.false_ne_true, List.singleton_append, ih hrest]

/-- **Reading is made of rounds.** A text that has bytes has exactly one round; less is left after it,
and the text is read as the byte of the round and what is left. So reading ends, what is read is never
longer than the text, and a text without letters is written for what is read. -/
theorem decode_rounds :
    decode [] = [] ∧
    (∀ text, text ≠ [] → ∃ b rest, Round text b rest ∧
      ∀ b' rest', Round text b' rest' → b' = b ∧ rest' = rest) ∧
    (∀ text b rest, Round text b rest →
      rest.length < text.length ∧ decode text = b :: decode rest) ∧
    (∀ text, (decode text).length ≤ text.length) ∧
    ∀ text, (∀ b ∈ text, isAlpha b = false) → encode (decode text) = text := by
  refine ⟨rfl, fun text hne => ?_, fun text b rest hround => ⟨hround.length_lt, ?_⟩,
    length_decode_le, fun text => encode_decode⟩
  · obtain ⟨b, rest, hround, -⟩ := exists_round hne
    exact ⟨b, rest, hround, fun b' rest' => hround.unique⟩
  · have hne : text ≠ [] := List.length_pos_iff.mp (Nat.zero_lt_of_lt hround.length_lt)
    obtain ⟨b', rest', hround', hdecode⟩ := exists_round hne
    obtain ⟨rfl, rfl⟩ := hround.unique hround'
    exact hdecode

/-- Three glyphs start the text, and the longest of them is read; two start what is left. -/
theorem decode_rounds_nested :
    ascii "|_|0_" ≠ [] ∧ (∃ b rest, Round (ascii "|_|0_") b rest ∧
        ∀ b' rest', Round (ascii "|_|0_") b' rest' → b' = b ∧ rest' = rest) ∧
      Round (ascii "|_|0_") (byte 'U') (ascii "0_") ∧ (∀ b ∈ ascii "|_|0_", isAlpha b = false) ∧
      (ascii "0_").length < (ascii "|_|0_").length ∧
      decode (ascii "|_|0_") = byte 'U' :: decode (ascii "0_") ∧
      encode (decode (ascii "|_|0_")) = ascii "|_|0_" := by
  have hround : Round (ascii "|_|" ++ ascii "0_") (letterAt 20) (ascii "0_") :=
    .glyph rfl (by decide)
  have hletters : ∀ b ∈ ascii "|_|0_", isAlpha b = false := by
    have h : (ascii "|_|0_").any isAlpha = false := by decide
    simpa using h
  have hne : ascii "|_|0_" ≠ [] := by decide
  obtain ⟨-, hone, hrounds, -, hagain⟩ := decode_rounds
  obtain ⟨hless, hread⟩ := hrounds _ _ _ hround
  exact ⟨hne, hone _ hne, hround, hletters, hless, hread, hagain _ hletters⟩

end Bytework.Cipher.Leet
