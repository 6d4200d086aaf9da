import Bytework.Proofs.Bytes.Folded
import Bytework.Proofs.Screen.Scanned
import Bytework.Screen.Sanitize

/-!
# What sanitizing keeps and what it finds

* `Context.filter`: every context permits the byte that takes the place of others, so filtering
  twice is filtering once.
* `emitted`, `sanitized`: the bytes of an input that have a place in the output, and the result in
  terms of them.
* **`sanitize_faithful`**: what the output and the findings say of the input.
* `map_of_unmarked`: a text that shows no replacing byte has none replaced. Hence what a scan finds in
  the output it finds in the input, but for the phrases in `underscored`.
* **`reported_or_completed`**: what a scan finds in the output is reported, or a replaced byte
  completes such a phrase; `sanitize_makes_statement` is an input where one does.
-/

namespace Bytework.Screen

variable {context : Context} {b : UInt8}

/-! ## Filtering -/

namespace Context

theorem permits_of_isAlnum (h : isAlnum b = true) : context.permits b = true := by
  simp [permits, h]

theorem permits_underscore (context : Context) : context.permits (byte '_') = true := by
  cases context <;> decide

theorem filter_of_permits (h : context.permits b = true) : context.filter b = b := if_pos h

theorem filter_of_not_permits (h : context.permits b = false) : context.filter b = byte '_' :=
  if_neg (by simp [h])

theorem permits_filter (context : Context) (b : UInt8) :
    context.permits (context.filter b) = true := by
  cases h : context.permits b with
  | true => rw [filter_of_permits h, h]
  | false => rw [filter_of_not_permits h, permits_underscore]

theorem filter_filter (context : Context) (b : UInt8) :
    context.filter (context.filter b) = context.filter b :=
  filter_of_permits (context.permits_filter b)

theorem filter_eq_self_iff : context.filter b = b ↔ context.permits b = true :=
  ⟨fun h => h ▸ context.permits_filter b, filter_of_permits⟩

end Context

/-! ## The output -/

variable {input : Bytes} {size : Nat}

/-- The bytes of an input that have a place in an output of the given size. -/
def emitted (input : Bytes) (size : Nat) : Bytes := input.take (min scanWindow (size - 1))

theorem emitted_starts (input : Bytes) (size : Nat) :
    emitted input size <+: input.take scanWindow :=
  List.take_prefix_take_left (Nat.min_le_left ..)

theorem length_emitted (input : Bytes) (size : Nat) :
    (emitted input size).length = min input.length (min scanWindow (size - 1)) := by
  rw [emitted, List.length_take, Nat.min_comm]

theorem emitted_of_length_le {output : Bytes} (h : output.length ≤ min scanWindow (size - 1)) :
    emitted output size = output := List.take_of_length_le h

/-- The result of a call that has room for an output. -/
def sanitized (input : Bytes) (context : Context) (size : Nat) : Sanitized :=
  let found := scan (input.take scanWindow)
  let replaced := (emitted input size).any fun b => !context.permits b
  ⟨(emitted input size).map context.filter,
    found.addIf .modified (replaced || context == .sql && found.has .sql)⟩

theorem sanitize_of_pos (h : 0 < size) :
    sanitize input context size = .ok (sanitized input context size) := by
  rw [sanitize, if_neg (by omega), sanitized, emitted, Nat.min_comm, ← List.take_take]

theorem length_output (input : Bytes) (context : Context) (size : Nat) :
    (sanitized input context size).output.length =
      min input.length (min scanWindow (size - 1)) := by
  rw [sanitized, List.length_map, length_emitted]

theorem has_sanitized {finding : Finding} (h : finding ≠ .modified) :
    (sanitized input context size).findings.has finding =
      (scan (input.take scanWindow)).has finding := by
  simp [sanitized, Findings.addIf, h]

theorem has_modified_iff : (sanitized input context size).findings.has .modified = true ↔
    (∃ b ∈ emitted input size, context.permits b = false) ∨
      (context = .sql ∧ (scan (input.take scanWindow)).has .sql = true) := by
  simp [sanitized, Findings.addIf, scan]

/-- Some byte of the output is not the one at its place in the input. -/
def Differs (input output : Bytes) : Prop :=
  ∃ (i : Nat) (b c : UInt8), input[i]? = some b ∧ output[i]? = some c ∧ c ≠ b

/-- What the result of a call says of the input. -/
structure Sanitized.Faithful (r : Sanitized) (input : Bytes) (context : Context) (size : Nat) :
    Prop where
  length_output : r.output.length = min input.length (min scanWindow (size - 1))
  /-- At its place in the output a byte stands as it is if it is permitted. -/
  output_eq : ∀ (i : Nat) (c : UInt8), r.output[i]? = some c → context.permits c = true ∧
    ∃ b, input[i]? = some b ∧ c = if context.permits b then b else byte '_'
  modified_iff : r.findings.has .modified = true ↔
    Differs input r.output ∨ (context = .sql ∧ r.findings.has .sql = true)
  /-- The other findings are those of the scanned part of the input, whatever the output is. -/
  found_eq : ∀ f, f ≠ .modified → r.findings.has f = (scan (input.take scanWindow)).has f
  again : ∃ r', sanitize r.output context size = .ok r' ∧ r'.output = r.output

theorem getElem?_emitted {i : Nat} (h : (emitted input size)[i]? = some b) : input[i]? = some b := by
  rw [emitted, List.getElem?_take] at h
  split at h
  · exact h
  · cases h

theorem getElem?_output {i : Nat} {c : UInt8}
    (h : (sanitized input context size).output[i]? = some c) :
    ∃ b ∈ emitted input size, input[i]? = some b ∧ c = context.filter b := by
  rw [sanitized, List.getElem?_map, Option.map_eq_some_iff] at h
  obtain ⟨b, hb, rfl⟩ := h
  exact ⟨b, List.mem_of_getElem? hb, getElem?_emitted hb, rfl⟩

/-- The output differs from the input if a byte that is emitted is not permitted. -/
theorem differs_iff : Differs input (sanitized input context size).output ↔
    ∃ b ∈ emitted input size, context.permits b = false := by
  constructor
  · rintro ⟨i, b, c, hinput, houtput, hne⟩
    obtain ⟨b', hmem, hinput', rfl⟩ := getElem?_output houtput
    obtain rfl : b = b' := Option.some.inj (hinput.symm.trans hinput')
    exact ⟨b, hmem, Bool.eq_false_iff.mpr fun h => hne (Context.filter_of_permits h)⟩
  · rintro ⟨b, hmem, hpermits⟩
    obtain ⟨i, hi⟩ := List.getElem?_of_mem hmem
    have houtput : (sanitized input context size).output[i]? = some (context.filter b) := by
      rw [sanitized, List.getElem?_map, hi, Option.map_some]
    refine ⟨i, b, context.filter b, getElem?_emitted hi, houtput, fun h => ?_⟩
    rw [Context.filter_eq_self_iff.mp h] at hpermits
    cases hpermits

/-- Sanitizing an output again, for the same purpose, leaves it as it is. -/
theorem output_sanitized_output (input : Bytes) (context : Context) (size : Nat) :
    (sanitized (sanitized input context size).output context size).output =
      (sanitized input context size).output := by
  have hlength : (sanitized input context size).output.length ≤ min scanWindow (size - 1) := by
    rw [length_output]
    exact Nat.min_le_right ..
  calc (sanitized (sanitized input context size).output context size).output
      = (sanitized input context size).output.map context.filter :=
        congrArg (List.map context.filter) (emitted_of_length_le hlength)
    _ = (emitted input size).map (context.filter ∘ context.filter) := List.map_map
    _ = (sanitized input context size).output :=
        List.map_congr_left fun b _ => context.filter_filter b

/-- **A call that has room for an output gives one that is faithful to the input.** It has the bytes
that fit, each in its place or replaced; it is marked as modified for nothing but a replaced byte and,
for a database, a statement; the rest of what it reports is what a scan of the input finds; and it
is left as it is by another call. -/
theorem sanitize_faithful (input : Bytes) (context : Context) (h : 0 < size) :
    ∃ r, sanitize input context size = .ok r ∧ r.Faithful input context size := by
  refine ⟨_, sanitize_of_pos h, ?_⟩
  exact {
    length_output := length_output input context size
    output_eq := fun i c hc => by
      obtain ⟨b, -, hinput, rfl⟩ := getElem?_output hc
      exact ⟨context.permits_filter b, b, hinput, rfl⟩
    modified_iff := by
      rw [differs_iff, has_modified_iff, has_sanitized (by decide)]
    found_eq := fun _ => has_sanitized
    again := ⟨_, sanitize_of_pos h, output_sanitized_output input context size⟩ }

/-- One byte of four is cut off, and one of the others is replaced. -/
theorem sanitize_faithful_markup : 0 < 4 ∧ ∃ r, sanitize (ascii "a<b>") .html 4 = .ok r ∧
    r.output = ascii "a_b" ∧ r.Faithful (ascii "a<b>") .html 4 := by
  have hsize : 0 < 4 := by decide
  obtain ⟨r, hr, hfaithful⟩ := sanitize_faithful (ascii "a<b>") .html hsize
  refine ⟨hsize, r, hr, ?_, hfaithful⟩
  cases hr
  decide

/-! ## A scan of the output -/

variable {text window : Bytes}

section Unmarked

variable {f : UInt8 → UInt8}

/-- A text that shows no replacing byte, folded or not, has none replaced. -/
theorem map_of_unmarked (hf : f (byte '_') = byte '_')
    (h : byte '_' ∉ text.map fun b => f (context.filter b)) :
    (text.map fun b => f (context.filter b)) = text.map f := by
  refine List.map_congr_left fun b hb => ?_
  cases hpermits : context.permits b with
  | true => rw [Context.filter_of_permits hpermits]
  | false =>
    have hmark : f (context.filter b) = byte '_' := by
      rw [Context.filter_of_not_permits hpermits, hf]
    exact absurd (hmark ▸ List.mem_map_of_mem hb) h

theorem infix_of_unmarked {piece : Bytes} (hf : f (byte '_') = byte '_')
    (h : piece <:+: text.map fun b => f (context.filter b)) (hpiece : byte '_' ∉ piece) :
    piece <:+: text.map f := by
  obtain ⟨source, hsource, rfl⟩ := List.infix_map_iff.mp h
  rw [map_of_unmarked hf hpiece]
  exact hsource.map f

end Unmarked

theorem lower_filter (context : Context) (text : Bytes) :
    Bytes.lower (text.map context.filter) = text.map fun b => lowerByte (context.filter b) :=
  List.map_map

theorem lower_occurs (h : text <+: window) : text.lower <:+: window.lower :=
  h.isInfix.map lowerByte

theorem hasPhrase_of_filter {phrases : List Bytes} (hphrases : ∀ phrase ∈ phrases, byte '_' ∉ phrase)
    (hstarts : text <+: window)
    (h : hasPhrase phrases (Bytes.lower (text.map context.filter)) = true) :
    hasPhrase phrases window.lower = true := by
  obtain ⟨phrase, hmem, hoccurs⟩ := hasPhrase_iff.mp h
  rw [lower_filter] at hoccurs
  have hinput : phrase <:+: text.lower := infix_of_unmarked (by decide) hoccurs (hphrases phrase hmem)
  exact hasPhrase_iff.mpr ⟨phrase, hmem, hinput.trans (lower_occurs hstarts)⟩

/-- What stands in front of a text is still no letter or digit in the input. -/
theorem apart_of_filter
    (h : ∀ b ∈ (text.map fun b => lowerByte (context.filter b)).getLast?, isAlnum b = false) :
    ∀ b ∈ text.lower.getLast?, isAlnum b = false := by
  intro c hc
  rw [Bytes.lower, List.getLast?_map, Option.mem_def, Option.map_eq_some_iff] at hc
  obtain ⟨b, hb, rfl⟩ := hc
  have hfiltered : isAlnum (lowerByte (context.filter b)) = false := by
    refine h _ ?_
    rw [List.getLast?_map]
    exact Option.mem_map_of_mem _ hb
  refine Bool.eq_false_iff.mpr fun halnum => ?_
  rw [isAlnum_lowerByte] at halnum hfiltered
  rw [Context.filter_of_permits (Context.permits_of_isAlnum halnum), halnum] at hfiltered
  cases hfiltered

theorem underscore_not_mem_handlerHead {name : Bytes} (h : ∀ b ∈ name, isLower b = true)
    (spaces : Nat) : byte '_' ∉ handlerHead name spaces := by
  have hname : byte '_' ∉ name := fun hmem => absurd (h _ hmem) (by decide)
  simp only [handlerHead, List.mem_append, List.mem_replicate, not_or]
  exact ⟨by decide, hname, fun h => absurd h.2 (by decide), by decide⟩

/-- The head of an event handler in the output is as it was in the input, whatever follows it. -/
theorem hasHandler_of_filter (hstarts : text <+: window)
    (h : hasHandler (Bytes.lower (text.map context.filter)) = true) :
    hasHandler window.lower = true := by
  obtain ⟨front, handler, heq, hapart, name, rest, spaces, hhandler⟩ := hasHandler_iff.mp h
  rw [lower_filter, hhandler.eq_append] at heq
  obtain ⟨before, source, rfl, rfl, hsource⟩ := List.map_eq_append_iff.mp heq
  obtain ⟨head, after, rfl, hhead, -⟩ := List.map_eq_append_iff.mp hsource
  have hunmarked : byte '_' ∉ head.map fun b => lowerByte (context.filter b) :=
    hhead ▸ underscore_not_mem_handlerHead hhandler.isLower spaces
  rw [map_of_unmarked (by decide) hunmarked] at hhead
  obtain ⟨beyond, rfl⟩ := hstarts
  have hwhole : Bytes.lower (head ++ (after ++ beyond)) =
      handlerHead name spaces ++ Bytes.lower (after ++ beyond) := by
    rw [← hhead]
    exact List.map_append
  refine hasHandler_iff.mpr ⟨_, _, ?_, apart_of_filter hapart, name, _, spaces, hwhole,
    hhandler.minEventName_le, hhandler.isLower⟩
  simp [Bytes.lower]

theorem hasEncodedRun_of_filter (hstarts : text <+: window)
    (h : hasEncodedRun (text.map context.filter) = true) : hasEncodedRun window = true := by
  obtain ⟨run, hoccurs, hlength, hrun⟩ := hasEncodedRun_iff.mp h
  have hunmarked : byte '_' ∉ run := fun hmem => absurd (hrun _ hmem) (by decide)
  have hinput : run <:+: text.map id := infix_of_unmarked rfl hoccurs hunmarked
  rw [List.map_id] at hinput
  exact hasEncodedRun_iff.mpr ⟨run, hinput.trans hstarts.isInfix, hlength, hrun⟩

/-- The phrases of database statements that have an underscore. -/
def underscored : List Bytes := ["xp_", "information_schema"].map ascii

/-- A piece of the emitted bytes, one of them replaced, stands in the output as a phrase with an
underscore. -/
structure Completes (context : Context) (emitted piece : Bytes) : Prop where
  occurs : piece <:+: emitted
  mem_underscored : Bytes.lower (piece.map context.filter) ∈ underscored
  replaced : ∃ b ∈ piece, context.permits b = false

/-- A statement is found in the input, or a replaced byte makes one. -/
theorem hasPhrase_sql_or_completes (hstarts : text <+: window)
    (h : hasPhrase sqlPhrases (Bytes.lower (text.map context.filter)) = true) :
    hasPhrase sqlPhrases window.lower = true ∨ ∃ piece, Completes context text piece := by
  obtain ⟨phrase, hmem, hoccurs⟩ := hasPhrase_iff.mp h
  rw [lower_filter] at hoccurs
  by_cases hmarked : byte '_' ∈ phrase
  case neg =>
    have hinput : phrase <:+: text.lower := infix_of_unmarked (by decide) hoccurs hmarked
    exact .inl (hasPhrase_iff.mpr ⟨phrase, hmem, hinput.trans (lower_occurs hstarts)⟩)
  case pos =>
    have hunderscored : ∀ phrase ∈ sqlPhrases, byte '_' ∈ phrase → phrase ∈ underscored := by decide
    obtain ⟨piece, hpiece, rfl⟩ := List.infix_map_iff.mp hoccurs
    cases hpermitted : piece.all context.permits with
    | true =>
      have hkept : piece.map (fun b => lowerByte (context.filter b)) = Bytes.lower piece :=
        List.map_congr_left fun b hb =>
          congrArg lowerByte (Context.filter_of_permits (List.all_eq_true.mp hpermitted b hb))
      have hinput : Bytes.lower piece <:+: text.lower := hpiece.map lowerByte
      rw [hkept] at hmem
      exact .inl (hasPhrase_iff.mpr ⟨_, hmem, hinput.trans (lower_occurs hstarts)⟩)
    | false =>
      obtain ⟨b, hb, hreplaced⟩ := List.all_eq_false.mp hpermitted
      exact .inr ⟨piece, hpiece, lower_filter context piece ▸ hunderscored _ hmem hmarked,
        b, hb, Bool.eq_false_iff.mpr hreplaced⟩

/-- A scan of the filtered start of a text finds nothing that a scan of the text does not, other than
statements that replaced bytes make. -/
theorem scan_filter (hstarts : text <+: window) (finding : Finding)
    (h : (scan (text.map context.filter)).has finding = true) :
    (scan window).has finding = true ∨
      (finding = .sql ∧ ∃ piece, Completes context text piece) := by
  cases finding with
  | modified => cases h
  | script =>
    refine .inl (has_script_iff.mpr ((has_script_iff.mp h).imp ?_ (hasHandler_of_filter hstarts)))
    exact hasPhrase_of_filter (by decide) hstarts
  | sql => exact (hasPhrase_sql_or_completes hstarts h).imp_right fun hmade => ⟨rfl, hmade⟩
  | base64 => exact .inl (hasEncodedRun_of_filter hstarts h)
  | shell | path | bot | spam => exact .inl (hasPhrase_of_filter (by decide) hstarts h)

/-- **What a scan finds in the output is reported**, unless it is a database statement, the output is
reported as modified, and a replaced byte completes a phrase with an underscore. -/
theorem reported_or_completed (input : Bytes) (context : Context) (h : 0 < size) :
    ∃ r, sanitize input context size = .ok r ∧
      ∀ finding, (scan r.output).has finding = true → r.findings.has finding = true ∨
        (finding = .sql ∧ r.findings.has .modified = true ∧
          ∃ piece, Completes context (input.take r.output.length) piece) := by
  refine ⟨_, sanitize_of_pos h, fun finding hfound => ?_⟩
  have hne : finding ≠ .modified := by
    rintro rfl
    cases hfound
  have hemitted : input.take (sanitized input context size).output.length = emitted input size := by
    rw [sanitized, List.length_map]
    exact (List.prefix_iff_eq_take.mp (List.take_prefix ..)).symm
  rw [has_sanitized hne, has_modified_iff, hemitted]
  refine (scan_filter (emitted_starts input size) finding hfound).imp_right ?_
  rintro ⟨rfl, piece, hpiece⟩
  obtain ⟨b, hb, hreplaced⟩ := hpiece.replaced
  exact ⟨rfl, .inl ⟨b, hpiece.occurs.subset hb, hreplaced⟩, piece, hpiece⟩

/-- The exclamation mark is replaced, and the output is a statement that the input is not. -/
theorem sanitize_makes_statement : ∃ r, sanitize (ascii "xp!") .generic 4 = .ok r ∧
    r.output = ascii "xp_" ∧ (scan r.output).has .sql = true ∧ r.findings.has .sql = false :=
  ⟨_, rfl, by decide, by decide, by decide⟩

theorem reported_or_completed_statement : 0 < 4 ∧ ∃ r, sanitize (ascii "xp!") .generic 4 = .ok r ∧
    r.findings.has .modified = true ∧
      ∃ piece, Completes .generic (ascii "xp!") piece := by
  have hsize : 0 < 4 := by decide
  obtain ⟨r, hr, hreported⟩ := reported_or_completed (ascii "xp!") .generic hsize
  refine ⟨hsize, r, hr, ?_⟩
  cases hr
  obtain hsql | ⟨-, hmodified, hpiece⟩ := hreported .sql (by decide)
  · exact absurd hsql (by decide)
  · exact ⟨hmodified, hpiece⟩

end Bytework.Screen
