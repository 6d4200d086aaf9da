import Bytework.Proofs.Pattern.InStep
import Bytework.Proofs.Pattern.Language

/-!
# Searches that ignore case

With case ignored, nothing that a search finds depends on the case of the letters of the text.

* `Flags.reads_of_lowerByte_eq`: an instruction reads both cases of a letter, or neither.
* `next_of_lower_eq`: the steps of an instruction on two texts that differ at most in case.
* **`find?_of_lower_eq`**: a compiled pattern finds the same in two such texts, groups included.
-/

namespace Bytework.Pattern

/-! ## Bytes -/

section Bytes

variable {flags : Flags} {b c : UInt8}

theorem lineFeed_iff_of_lowerByte_eq (h : lowerByte b = lowerByte c) :
    b = lineFeed ↔ c = lineFeed := by
  have hother : isAlpha lineFeed = false := by decide
  constructor
  · rintro rfl
    exact eq_of_lowerByte_eq hother h
  · rintro rfl
    exact eq_of_lowerByte_eq hother h.symm

theorem Flags.mem_variants_iff (hf : flags.ignoreCase = true) {a : UInt8} :
    a ∈ flags.variants b ↔ lowerByte b = lowerByte a := by
  rw [variants, if_pos hf, List.mem_cons, List.mem_cons, List.mem_singleton, lowerByte_eq_iff]

/-- **An instruction reads both cases of a letter, or neither.** -/
theorem Flags.reads_of_lowerByte_eq (hf : flags.ignoreCase = true) (h : lowerByte b = lowerByte c)
    (inst : Inst) : flags.reads inst b = flags.reads inst c := by
  have hvariants : ∀ a, a ∈ flags.variants b ↔ a ∈ flags.variants c := by
    intro a
    rw [mem_variants_iff hf, mem_variants_iff hf, h]
  rw [Bool.eq_iff_iff]
  cases inst with
  | byte a => rw [reads_byte_iff, reads_byte_iff, hvariants]
  | any => rw [reads_any_iff, reads_any_iff, ne_eq, ne_eq, lineFeed_iff_of_lowerByte_eq h]
  | set ranges negated => simp only [reads_set_iff, hvariants]
  | split | jump | assertStart | assertStop | save | accept => rfl

end Bytes

/-! ## Texts -/

section Texts

variable {text text' : Bytes}

theorem lineFeed_of_lower_eq (h : text.lower = text'.lower) (i : Nat) :
    text[i]? = some lineFeed ↔ text'[i]? = some lineFeed := by
  rcases Bytes.getElem?_of_lower_eq h i with ⟨hb, hc⟩ | ⟨b, c, hb, hc, hbc⟩
  · rw [hb, hc]
  · rw [hb, hc, Option.some_inj, Option.some_inj, lineFeed_iff_of_lowerByte_eq hbc]

variable {flags : Flags}

theorem any_reads_of_lower_eq (hf : flags.ignoreCase = true) (h : text.lower = text'.lower)
    (inst : Inst) (i : Nat) :
    text'.toArray[i]?.any (flags.reads inst) = text.toArray[i]?.any (flags.reads inst) := by
  rw [List.getElem?_toArray, List.getElem?_toArray]
  rcases Bytes.getElem?_of_lower_eq h i with ⟨hb, hc⟩ | ⟨b, c, hb, hc, hbc⟩
  · rw [hb, hc]
  · rw [hb, hc, Option.any_some, Option.any_some, Flags.reads_of_lowerByte_eq hf hbc]

theorem atStart_of_lower_eq (h : text.lower = text'.lower) (i : Nat) :
    flags.atStart text'.toArray i = flags.atStart text.toArray i := by
  rw [Bool.eq_iff_iff, Flags.atStart_iff, Flags.atStart_iff, lineFeed_of_lower_eq h]

theorem atStop_of_lower_eq (h : text.lower = text'.lower) (i : Nat) :
    flags.atStop text'.toArray i = flags.atStop text.toArray i := by
  rw [Bool.eq_iff_iff, Flags.atStop_iff, Flags.atStop_iff, lineFeed_of_lower_eq h,
    Bytes.length_eq_of_lower_eq h]

/-- **The steps of an instruction** are the same on both texts. -/
theorem next_of_lower_eq (hf : flags.ignoreCase = true) (h : text.lower = text'.lower)
    (inst : Inst) (s : State) :
    inst.next flags text'.toArray s = inst.next flags text.toArray s := by
  cases inst with
  | split x y | jump x | save slot | accept => rfl
  | assertStart => simp only [Inst.next, atStart_of_lower_eq h]
  | assertStop => simp only [Inst.next, atStop_of_lower_eq h]
  | byte b | any | set ranges negated => simp only [Inst.next, any_reads_of_lower_eq hf h]

theorem search_of_lower_eq (p : Program) (hf : flags.ignoreCase = true)
    (h : text.lower = text'.lower) : search p flags text' = search p flags text := by
  have hfrom : ∀ start, backtrackFrom p flags text' start = backtrackFrom p flags text start :=
    fun start => explore_inStep (inStep_of_alike p.insts (next_of_lower_eq hf h)) [] _ (0, start)
      (Nat.zero_le _) fun _ _ => Iff.rfl
  rw [search_eq, search_eq, backtrack, backtrack, Bytes.length_eq_of_lower_eq h,
    funext hfrom]

end Texts

/-! ## Compiled patterns -/

/-- **With case ignored, a compiled pattern finds the same in two texts that differ at most in the
case of letters**: nothing in both, or matches with the same bounds and the same groups. -/
theorem find?_of_lower_eq {pattern : String} {options : Options} {regex : Regex}
    (h : Regex.compile pattern options = .ok regex) (hcase : options.ignoreCase = true)
    {text text' : Bytes} (ht : text.lower = text'.lower) :
    (regex.find? text = .ok none ∧ regex.find? text' = .ok none) ∨
      ∃ m m', regex.find? text = .ok (some m) ∧ regex.find? text' = .ok (some m') ∧
        m.text = text ∧ m'.text = text' ∧ m.slots = m'.slots ∧
        m.start = m'.start ∧ m.stop = m'.stop ∧ m.groupSpans = m'.groupSpans := by
  obtain ⟨p, hcompile, rfl⟩ := map_eq_ok h
  obtain ⟨found, hfound⟩ := (wellFormed_of_compile hcompile).backtrack_ok options.flags text
  rw [← search_eq] at hfound
  have hfound' : search p options.flags text' = .ok found :=
    (search_of_lower_eq p hcase ht).trans hfound
  rw [Regex.find?, Regex.find?, hfound, hfound']
  cases found with
  | none => exact Or.inl ⟨rfl, rfl⟩
  | some slots => exact Or.inr ⟨⟨text, slots⟩, ⟨text', slots⟩, rfl, rfl, rfl, rfl, rfl, rfl, rfl, rfl⟩

/-- The program of `(.k)$`. -/
def lastPair : Program :=
  ⟨#[.save 0, .save 2, .any, .byte 107, .save 3, .assertStop, .save 1, .accept], 1⟩

theorem find?_lastPair :
    Regex.compile "(.k)$" { ignoreCase := true, multiline := true } =
        .ok ⟨"(.k)$", lastPair, { ignoreCase := true, multiline := true }⟩ ∧
      Bytes.lower (ascii "1aKk\nx") = Bytes.lower (ascii "1AkK\nX") ∧
      ∃ m, Regex.find? ⟨"(.k)$", lastPair, { ignoreCase := true, multiline := true }⟩
        (ascii "1AkK\nX") = .ok (some m) ∧ m.start = 2 ∧ m.groupSpans = [some (2, 4)] := by
  have h : Regex.compile "(.k)$" { ignoreCase := true, multiline := true } =
      .ok ⟨"(.k)$", lastPair, { ignoreCase := true, multiline := true }⟩ := by cbv
  have ht : Bytes.lower (ascii "1aKk\nx") = Bytes.lower (ascii "1AkK\nX") := by decide
  have hfind : Regex.find? ⟨"(.k)$", lastPair, { ignoreCase := true, multiline := true }⟩
      (ascii "1aKk\nx") = .ok (some ⟨ascii "1aKk\nx", [some 2, some 4, some 2, some 4]⟩) := by
    have htext : ascii "1aKk\nx" = [49, 97, 75, 107, 10, 120] := by decide
    rw [htext]
    cbv
  obtain ⟨hnone, -⟩ | ⟨m, m', hm, hm', -, -, -, hstart, -, hgroups⟩ := find?_of_lower_eq h rfl ht
  · rw [hfind] at hnone
    cases hnone
  · obtain rfl := Option.some.inj (Except.ok.inj (hfind.symm.trans hm))
    exact ⟨h, ht, m', hm', hstart.symm, hgroups.symm⟩

end Bytework.Pattern
