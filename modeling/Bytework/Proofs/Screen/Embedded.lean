import Bytework.Proofs.Bytes.Folded
import Bytework.Proofs.Screen.Scanned

/-!
# Inputs within other inputs

What is found in an input does not depend on the case of its letters, and is found again when other
bytes are put around the input.

* `scan_of_lower_eq`: two inputs that differ at most in case have the same findings.
* `hasPhrase_mono`, `hasEncodedRun_mono`, `hasHandler_around`: each test of an input, put
  between others. An event handler must not come behind a letter or a digit.
* **`scan_around`**: the findings of an input in other letters, or between others.
-/

namespace Bytework.Screen

variable {a s t b : Bytes}

/-! ## Case -/

theorem isEncodedByte_lowerByte (b : UInt8) : isEncodedByte (lowerByte b) = isEncodedByte b := by
  cases halnum : isAlnum b with
  | true => simp [isEncodedByte, isAlnum_lowerByte, halnum]
  | false => rw [lowerByte_of_other (Bool.or_eq_false_iff.mp halnum).1]

theorem hasEncodedRun_lower (s : Bytes) : hasEncodedRun s.lower = hasEncodedRun s := by
  rw [Bool.eq_iff_iff, hasEncodedRun_iff, hasEncodedRun_iff]
  constructor
  · rintro ⟨run, hoccurs, hlength, hrun⟩
    obtain ⟨source, hsource, rfl⟩ := List.infix_map_iff.mp hoccurs
    refine ⟨source, hsource, by rwa [List.length_map] at hlength, fun x hx => ?_⟩
    rw [← isEncodedByte_lowerByte]
    exact hrun _ (List.mem_map_of_mem hx)
  · rintro ⟨run, hoccurs, hlength, hrun⟩
    refine ⟨run.map lowerByte, hoccurs.map lowerByte, by rwa [List.length_map], ?_⟩
    simpa only [List.forall_mem_map, isEncodedByte_lowerByte] using hrun

/-- **Two inputs that differ at most in case have the same findings.** -/
theorem scan_of_lower_eq (h : s.lower = t.lower) : scan s = scan t := by
  have hrun : hasEncodedRun s = hasEncodedRun t := by
    rw [← hasEncodedRun_lower, h, hasEncodedRun_lower]
  rw [scan, scan, h, hrun]

/-! ## Surroundings -/

theorem hasPhrase_mono {phrases : List Bytes} (hst : s <:+: t) (h : hasPhrase phrases s = true) :
    hasPhrase phrases t = true := by
  obtain ⟨phrase, hmem, hoccurs⟩ := hasPhrase_iff.mp h
  exact hasPhrase_iff.mpr ⟨phrase, hmem, hoccurs.trans hst⟩

theorem hasEncodedRun_mono (hst : s <:+: t) (h : hasEncodedRun s = true) :
    hasEncodedRun t = true := by
  obtain ⟨run, hoccurs, hlength, hrun⟩ := hasEncodedRun_iff.mp h
  exact hasEncodedRun_iff.mpr ⟨run, hoccurs.trans hst, hlength, hrun⟩

theorem hasHandler_around (ha : ∀ x ∈ a.getLast?, isAlnum x = false) (h : hasHandler s = true) :
    hasHandler (a ++ s ++ b) = true := by
  obtain ⟨front, text, rfl, hapart, name, rest, spaces, rfl, hlength, hlower⟩ := hasHandler_iff.mp h
  refine hasHandler_iff.mpr ⟨a ++ front, handlerHead name spaces ++ (rest ++ b), by simp, ?_,
    name, rest ++ b, spaces, rfl, hlength, hlower⟩
  cases front using List.reverseRecOn with
  | nil => simpa using ha
  | append_singleton front x => simpa using hapart

/-- Some long run is found if and only if one of the least length is. -/
theorem hasEncodedRun_iff_exists : hasEncodedRun s = true ↔
    ∃ run, run <:+: s ∧ run.length = minEncodedRun ∧ ∀ x ∈ run, isEncodedByte x = true := by
  rw [hasEncodedRun_iff]
  constructor
  · rintro ⟨run, hoccurs, hlength, hrun⟩
    have htake := List.take_prefix minEncodedRun run
    exact ⟨run.take minEncodedRun, htake.isInfix.trans hoccurs, List.length_take_of_le hlength,
      fun x hx => hrun x (htake.subset hx)⟩
  · rintro ⟨run, hoccurs, hlength, hrun⟩
    exact ⟨run, hoccurs, hlength.ge, hrun⟩

/-- **What is found in an input is found whatever the case of its letters is, and whatever stands
around it**, an event handler unless a letter or a digit stands right in front; and an encoded run is
reported if one of the least length stands anywhere. -/
theorem scan_around (a s b : Bytes) :
    (∀ t, List.Forall₂ (fun x y => x = y ∨ Cases x y ∨ Cases y x) s t → scan s = scan t) ∧
    (∀ finding, (scan s).has finding = true →
      (finding = .script → ∀ x ∈ a.getLast?, isAlnum x = false) →
        (scan (a ++ s ++ b)).has finding = true) ∧
    ((scan s).has .base64 = true ↔
      ∃ run, run <:+: s ∧ run.length = 80 ∧ ∀ x ∈ run, isEncodedByte x = true) := by
  refine ⟨fun t h => ?_, fun finding h ha => ?_, hasEncodedRun_iff_exists⟩
  · exact scan_of_lower_eq (Bytes.equalFolded_iff.mp (Bytes.equalFolded_iff_forall₂.mpr h))
  · have hst : s <:+: a ++ s ++ b := List.infix_append a s b
    have hlower : s.lower <:+: (a ++ s ++ b).lower := hst.map lowerByte
    cases finding with
    | modified => cases h
    | script =>
      refine has_script_iff.mpr ((has_script_iff.mp h).imp (hasPhrase_mono hlower) ?_)
      intro hhandler
      have haround : (a ++ s ++ b).lower = a.lower ++ s.lower ++ b.lower := by simp [Bytes.lower]
      rw [haround]
      refine hasHandler_around (fun x hx => ?_) hhandler
      rw [Bytes.lower, List.getLast?_map, Option.mem_def, Option.map_eq_some_iff] at hx
      obtain ⟨y, hy, rfl⟩ := hx
      rw [isAlnum_lowerByte]
      exact ha rfl y hy
    | base64 => exact hasEncodedRun_mono hst h
    | sql | shell | path | bot | spam => exact hasPhrase_mono hlower h

/-- A handler in mixed case is found behind a space. -/
theorem scan_around_handler :
    List.Forall₂ (fun x y => x = y ∨ Cases x y ∨ Cases y x) (ascii "OnLoad =1") (ascii "oNlOAD =1") ∧
    scan (ascii "OnLoad =1") = scan (ascii "oNlOAD =1") ∧
    (scan (ascii "OnLoad =1")).has .script = true ∧ (∀ x ∈ (ascii "<b ").getLast?, isAlnum x = false) ∧
    (scan (ascii "<b " ++ ascii "OnLoad =1" ++ ascii ">")).has .script = true := by
  obtain ⟨hcase, haround, -⟩ := scan_around (ascii "<b ") (ascii "OnLoad =1") (ascii ">")
  have hsame : List.Forall₂ (fun x y => x = y ∨ Cases x y ∨ Cases y x)
      (ascii "OnLoad =1") (ascii "oNlOAD =1") := Bytes.equalFolded_iff_forall₂.mp (by decide)
  have hhandler : hasHandler (ascii "OnLoad =1").lower = true := by
    refine hasHandler_iff.mpr ⟨[], _, rfl, by simp, ascii "load", ascii "1", 1, ?_⟩
    exact ⟨rfl, by decide, List.all_eq_true.mp rfl⟩
  have hscript : (scan (ascii "OnLoad =1")).has .script = true :=
    has_script_iff.mpr (.inr hhandler)
  have hapart : ∀ x ∈ (ascii "<b ").getLast?, isAlnum x = false := by
    rintro _ ⟨⟩
    rfl
  exact ⟨hsame, hcase _ hsame, hscript, hapart, haround .script hscript fun _ => hapart⟩

end Bytework.Screen
