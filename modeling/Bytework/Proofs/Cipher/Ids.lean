import Bytework.Proofs.Cipher.Settings
import Bytework.Proofs.Cipher.Values

/-!
# Ids and the parameters that they write

An id of a codec in any case, and behind a colon the texts between commas: each is a name and a value, a
bare name, or empty, and white space may stand around the id, the names and the texts.

* `Entry`: what a text between commas writes; **`entry_iff`**: every text without a comma is one.
* `Writes`: what an id writes; **`writes_iff`**: every id of a codec writes parameters, which are those
  that are read.
* **`parse_parameters`**: neither the order, the case of names nor the spaces matter, and the first
  parameter that is refused is reported.
-/

namespace Bytework.Cipher

open Text (Blank Plain)

/-! ## Names and values -/

section Entries

variable {s name value : List Char} {p : Option (List Char × List Char)}

/-- What a text between commas writes, nothing if it is blank. -/
def parameter? (s : List Char) : Option (List Char × List Char) :=
  if Text.trim s = [] then none else some (Spec.nameValue (Text.trim s))

theorem parameters_eq (s : List Char) : Spec.parameters s = (s.splitOn ',').filterMap parameter? := by
  rw [Spec.parameters, List.filter_map, List.map_map]
  induction s.splitOn ',' with
  | nil => rfl
  | cons t texts ih =>
    by_cases ht : Text.trim t = []
    · rw [List.filterMap_cons_none (by rw [parameter?, if_pos ht]),
        List.filter_cons_of_neg (by simp [ht]), ih]
    · rw [List.filterMap_cons_some (by rw [parameter?, if_neg ht]),
        List.filter_cons_of_pos (by simp [ht]), List.map_cons, ih]
      rfl

/-- A name: no equals sign or comma in it, and no white space at its ends. -/
structure IsName (name : List Char) : Prop extends Plain name where
  equals : '=' ∉ name
  comma : ',' ∉ name

/-- What a text between commas writes, if it writes a parameter. -/
inductive Entry : List Char → Option (List Char × List Char) → Prop
  /-- An empty parameter. -/
  | blank {s : List Char} (hs : Blank s) : Entry s none
  /-- A name, which is a flag that is on. -/
  | flag {before name after : List Char} (hbefore : Blank before) (hname : IsName name)
    (hne : name ≠ []) (hafter : Blank after) : Entry (before ++ name ++ after) (some (name, ['1']))
  /-- A name and a value, which starts behind the equals sign. -/
  | setting {before name between value after : List Char} (hbefore : Blank before)
    (hname : IsName name) (hbetween : Blank between) (hcomma : ',' ∉ value)
    (hvalue : EndsPlain value) (hafter : Blank after) :
    Entry (before ++ name ++ between ++ '=' :: value ++ after) (some (name, value))

theorem cut?_of_notMem {c : Char} (h : c ∉ s) : Spec.cut? c s = none := by
  have hall : s.dropWhile (· != c) = [] := by
    rw [List.dropWhile_eq_nil_iff]
    intro a ha
    rw [bne_iff_ne]
    rintro rfl
    exact h ha
  rw [Spec.cut?, hall]

/-- What trimming leaves of a name and a value. -/
theorem trim_setting {before between after : List Char} (hbefore : Blank before) (hname : IsName name)
    (hbetween : Blank between) (hvalue : EndsPlain value) (hafter : Blank after) :
    ∃ start, Text.trim (before ++ name ++ between ++ '=' :: value ++ after) = start ++ '=' :: value ∧
      '=' ∉ start ∧ Text.trim start = name := by
  have hequals : Text.isBlank '=' = false := by decide
  have hkept : value.rdropWhile Text.isBlank = value := rdropWhile_eq_self_iff.mpr hvalue
  have hbetween' : '=' ∉ between := Text.notMem_of_blank hequals hbetween
  rw [Text.trim_append_right hafter, List.append_assoc, List.append_assoc,
    Text.trim_append_left hbefore]
  cases name with
  | nil =>
    refine ⟨[], ?_, List.not_mem_nil, rfl⟩
    have hstart : ∀ a ∈ ([] : List Char).head?, Text.isBlank a = false := by
      rintro a ⟨⟩
    have htrim : Text.trim ('=' :: value) = '=' :: value.rdropWhile Text.isBlank :=
      Text.trim_append_cons hstart hequals
    rw [List.nil_append, Text.trim_append_left hbetween, htrim, hkept]
    rfl
  | cons c name =>
    refine ⟨c :: name ++ between, ?_, ?_, ?_⟩
    · have hstart : ∀ a ∈ (c :: name ++ between).head?, Text.isBlank a = false := hname.starts
      rw [← List.append_assoc, Text.trim_append_cons hstart hequals, hkept]
    · exact fun h => (List.mem_append.mp h).elim hname.equals hbetween'
    · rw [Text.trim_append_right hbetween, Text.trim_of_plain hname.toPlain]

theorem parameter?_of_entry (h : Entry s p) : parameter? s = p := by
  cases h with
  | blank hs => rw [parameter?, if_pos (Text.trim_of_blank hs)]
  | flag hbefore hname hne hafter =>
    rw [parameter?, Text.trim_append hbefore hname.toPlain hafter, if_neg hne, Spec.nameValue,
      cut?_of_notMem hname.equals]
  | setting hbefore hname hbetween hcomma hvalue hafter =>
    obtain ⟨start, htrim, hstart, rfl⟩ := trim_setting hbefore hname hbetween hvalue hafter
    rw [parameter?, htrim, if_neg (by simp), Spec.nameValue, cut?_append_cons hstart]

/-- No comma stands in an entry. -/
theorem comma_notMem (h : Entry s p) : ',' ∉ s := by
  have hblank : ∀ {t}, Blank t → ',' ∉ t := Text.notMem_of_blank (by decide)
  cases h with
  | blank hs => exact hblank hs
  | flag hbefore hname hne hafter =>
    simp only [List.mem_append, not_or]
    exact ⟨⟨hblank hbefore, hname.comma⟩, hblank hafter⟩
  | setting hbefore hname hbetween hcomma hvalue hafter =>
    simp only [List.mem_append, List.mem_cons, not_or]
    exact ⟨⟨⟨⟨hblank hbefore, hname.comma⟩, hblank hbetween⟩, by decide, hcomma⟩, hblank hafter⟩

/-- Every text without a comma is an entry. -/
theorem exists_entry (h : ',' ∉ s) : ∃ p, Entry s p := by
  obtain ⟨before, after, hbefore, hafter, hs⟩ := Text.exists_trim s
  have hplain := Text.plain_trim s
  generalize Text.trim s = t at hs hplain
  subst hs
  by_cases hequals : '=' ∈ t
  · obtain ⟨start, value, rfl, hstart⟩ := List.eq_append_cons_of_mem hequals
    -- what stands before the equals sign is trimmed once more
    obtain ⟨white, between, hwhite, hbetween, hname⟩ := Text.exists_trim start
    have hplain' := Text.plain_trim start
    generalize Text.trim start = name at hname hplain'
    subst hname
    have hvalue : EndsPlain value := fun c hc => hplain.ends c (by
      rw [List.getLast?_append, List.getLast?_cons, Option.some_or, Option.mem_def.mp hc]
      rfl)
    simp only [List.mem_append, List.mem_cons, not_or] at h hstart
    obtain ⟨⟨-, ⟨⟨-, hcomma⟩, -⟩, -, hcomma'⟩, -⟩ := h
    refine ⟨some (name, value), ?_⟩
    have hentry := Entry.setting (Text.blank_append hbefore hwhite) ⟨hplain', hstart.1.2, hcomma⟩
      hbetween hcomma' hvalue hafter
    simpa only [List.append_assoc] using hentry
  · simp only [List.mem_append, not_or] at h
    by_cases hne : t = []
    · subst hne
      rw [List.append_nil]
      exact ⟨none, .blank (Text.blank_append hbefore hafter)⟩
    · exact ⟨_, .flag hbefore ⟨hplain, hequals, h.1.2⟩ hne hafter⟩

/-- **Every text without a comma is an entry**, of one parameter at most. -/
theorem entry_iff : Entry s p ↔ ',' ∉ s ∧ parameter? s = p := by
  refine ⟨fun h => ⟨comma_notMem h, parameter?_of_entry h⟩, fun ⟨h, hp⟩ => ?_⟩
  obtain ⟨q, hq⟩ := exists_entry h
  rwa [← hp, parameter?_of_entry hq]

end Entries

/-! ## Ids -/

section Ids

variable {codec : Codec} {s id before after : List Char} {ps : List (List Char × List Char)}

/-- An id of a codec, in any case. -/
def Names (codec : Codec) (id : List Char) : Prop :=
  ∃ known, (known, codec) ∈ Codec.registry ∧ id.map Char.toLower = known.toList

/-- Every id of the registry is found for its own codec. -/
theorem ofId?_iff : Codec.ofId? id = some codec ↔ Names codec id := by
  constructor
  · intro h
    obtain ⟨entry, hfind, rfl⟩ := Option.map_eq_some_iff.mp h
    have hknown := List.find?_some hfind
    rw [beq_iff_eq] at hknown
    exact ⟨entry.1, List.mem_of_find?_eq_some hfind, hknown.symm⟩
  · rintro ⟨known, hmem, hid⟩
    have hregistry : ∀ entry ∈ Codec.registry,
        (Codec.registry.find? fun other => other.1.toList == entry.1.toList).map (·.2) =
          some entry.2 := by
      decide
    rw [Codec.ofId?, hid]
    exact hregistry _ hmem

theorem isUpper_of_isBlank {c : Char} (h : Text.isBlank c = true) : c.isUpper = false := by
  have hA : 'A'.val.toNat = 65 := rfl
  have hZ : 'Z'.val.toNat = 90 := rfl
  have hval : c.toNat = c.val.toNat := rfl
  rw [Char.isUpper, decide_eq_false_iff_not]
  simp only [Text.isBlank, Text.blankRanges, List.any_cons, List.any_nil, Bool.or_eq_true,
    Bool.and_eq_true, decide_eq_true_eq, Bool.false_eq_true, or_false, hval] at h
  simp only [ge_iff_le, UInt32.le_iff_toNat_le]
  omega

/-- The characters of an id are neither white space nor colons. -/
theorem Names.not_blank (h : Names codec id) {c : Char} (hc : c ∈ id) :
    Text.isBlank c = false ∧ c ≠ ':' := by
  obtain ⟨known, hmem, hid⟩ := h
  have hregistry : Codec.registry.all fun entry =>
      entry.1.toList.all fun a => !Text.isBlank a && a != ':' := by
    decide
  have hlower : c.toLower ∈ known.toList := hid ▸ List.mem_map_of_mem hc
  have hknown := List.all_eq_true.mp (List.all_eq_true.mp hregistry _ hmem) _ hlower
  rw [Bool.and_eq_true, Bool.not_eq_true', bne_iff_ne] at hknown
  obtain ⟨hblank, hcolon⟩ := hknown
  constructor
  · by_contra h
    have hupper : ¬ c.isUpper = true := by
      rw [isUpper_of_isBlank ((Bool.not_eq_false _).mp h)]
      exact Bool.false_ne_true
    rw [Char.toLower_eq_of_not_isUpper hupper] at hblank
    exact h hblank
  · rintro rfl
    exact hcolon (by decide)

theorem Names.plain (h : Names codec id) : Plain id :=
  ⟨fun _ hc => (h.not_blank (List.mem_of_mem_head? hc)).1,
    fun _ hc => (h.not_blank (List.mem_of_mem_getLast? hc)).1⟩

theorem Names.colon_notMem (hbefore : Blank before) (h : Names codec id) (hafter : Blank after) :
    ':' ∉ before ++ id ++ after := by
  have hblank : ∀ {t}, Blank t → ':' ∉ t := Text.notMem_of_blank (by decide)
  simp only [List.mem_append, not_or]
  exact ⟨⟨hblank hbefore, fun hmem => (h.not_blank hmem).2 rfl⟩, hblank hafter⟩

/-- What an id of a codec writes. -/
inductive Writes (codec : Codec) : List Char → List (List Char × List Char) → Prop
  /-- No parameters. -/
  | bare {before id after : List Char} (hbefore : Blank before) (hid : Names codec id)
    (hafter : Blank after) : Writes codec (before ++ id ++ after) []
  /-- Texts between commas, of which the empty ones write nothing. -/
  | settings {before id after : List Char} {texts : List (List Char)}
    {entries : List (Option (List Char × List Char))} (hbefore : Blank before) (hid : Names codec id)
    (hafter : Blank after) (hne : texts ≠ []) (h : List.Forall₂ Entry texts entries) :
    Writes codec (before ++ id ++ after ++ ':' :: [','].intercalate texts) entries.reduceOption

theorem parameters_of_entries {texts : List (List Char)}
    {entries : List (Option (List Char × List Char))} (hne : texts ≠ [])
    (h : List.Forall₂ Entry texts entries) :
    Spec.parameters ([','].intercalate texts) = entries.reduceOption := by
  have hcomma : ∀ t ∈ texts, ',' ∉ t := by
    clear hne
    induction h with
    | nil => exact List.forall_mem_nil _
    | cons hentry _ ih => exact List.forall_mem_cons.mpr ⟨comma_notMem hentry, ih⟩
  rw [parameters_eq, List.splitOn_intercalate ',' hcomma hne]
  clear hcomma hne
  induction h with
  | nil => rfl
  | @cons t entry texts entries hentry _ ih =>
    rw [List.filterMap_cons, parameter?_of_entry hentry, ih]
    cases entry <;> rfl

/-- The codec of an id and the parameters that it writes. -/
def parts? (s : List Char) : Option (Codec × List (List Char × List Char)) :=
  match Spec.cut? ':' s with
  | some (id, rest) => (Codec.ofId? (Text.trim id)).map (·, Spec.parameters rest)
  | none => (Codec.ofId? (Text.trim s)).map (·, [])

theorem parts?_of_writes (h : Writes codec s ps) : parts? s = some (codec, ps) := by
  cases h with
  | bare hbefore hid hafter =>
    rw [parts?, cut?_of_notMem (hid.colon_notMem hbefore hafter)]
    simp only [Text.trim_append hbefore hid.plain hafter, ofId?_iff.mpr hid, Option.map_some]
  | settings hbefore hid hafter hne hentries =>
    rw [parts?, cut?_append_cons (hid.colon_notMem hbefore hafter)]
    simp only [Text.trim_append hbefore hid.plain hafter, ofId?_iff.mpr hid, Option.map_some,
      parameters_of_entries hne hentries]

theorem exists_writes (hbefore : Blank before) (hid : Names codec id) (hafter : Blank after)
    (rest : List Char) : ∃ ps, Writes codec (before ++ id ++ after ++ ':' :: rest) ps := by
  have hentries : List.Forall₂ Entry (rest.splitOn ',') ((rest.splitOn ',').map parameter?) := by
    rw [List.forall₂_map_right_iff, List.forall₂_same]
    exact fun t ht => entry_iff.mpr ⟨Text.notMem_of_mem_splitOn t ht, rfl⟩
  have h := Writes.settings hbefore hid hafter (List.splitOn_ne_nil ',' rest) hentries
  rw [List.intercalate_splitOn] at h
  exact ⟨_, h⟩

/-- **Every id of a codec writes parameters**, and no others than those that are read. -/
theorem writes_iff : Writes codec s ps ↔ parts? s = some (codec, ps) := by
  refine ⟨parts?_of_writes, fun h => ?_⟩
  have hwrites : ∃ qs, Writes codec s qs := by
    by_cases hcolon : ':' ∈ s
    · obtain ⟨name, rest, rfl, hname⟩ := List.eq_append_cons_of_mem hcolon
      rw [parts?, cut?_append_cons hname] at h
      obtain ⟨known, hid, hknown⟩ := Option.map_eq_some_iff.mp h
      obtain ⟨before, after, hbefore, hafter, htrim⟩ := Text.exists_trim name
      rw [htrim]
      rw [(Prod.mk.inj hknown).1] at hid
      exact exists_writes hbefore (ofId?_iff.mp hid) hafter rest
    · rw [parts?, cut?_of_notMem hcolon] at h
      obtain ⟨known, hid, hknown⟩ := Option.map_eq_some_iff.mp h
      obtain ⟨before, after, hbefore, hafter, htrim⟩ := Text.exists_trim s
      rw [htrim]
      rw [(Prod.mk.inj hknown).1] at hid
      exact ⟨[], .bare hbefore (ofId?_iff.mp hid) hafter⟩
  obtain ⟨qs, hqs⟩ := hwrites
  obtain ⟨-, rfl⟩ := Prod.mk.inj (Option.some.inj ((parts?_of_writes hqs).symm.trans h))
  exact hqs

/-- An id is read by setting what it writes. -/
theorem ofChars_of_parts? (h : parts? s = some (codec, ps)) :
    Spec.ofChars s = ps.foldlM (fun spec p => spec.assign p.1 p.2) (Spec.new codec) := by
  unfold parts? at h
  unfold Spec.ofChars
  cases hcut : Spec.cut? ':' s with
  | none =>
    rw [hcut] at h
    obtain ⟨known, hid, hknown⟩ := Option.map_eq_some_iff.mp h
    cases hknown
    simp only [hid]
  | some cut =>
    rw [hcut] at h
    obtain ⟨known, hid, hknown⟩ := Option.map_eq_some_iff.mp h
    cases hknown
    simp only [hid]

/-- A text without the id of a codec is refused. -/
theorem ofChars_of_parts?_eq_none (h : parts? s = none) :
    ∃ name, Spec.ofChars s = .error (.unknownCipher name) := by
  unfold parts? at h
  unfold Spec.ofChars
  cases hcut : Spec.cut? ':' s with
  | none =>
    rw [hcut] at h
    exact ⟨s, by simp only [Option.map_eq_none_iff.mp h]⟩
  | some cut =>
    rw [hcut] at h
    exact ⟨cut.1, by simp only [Option.map_eq_none_iff.mp h]⟩

end Ids

/-- **The parameters of an id.** Settings that a codec takes one by one, of names that differ in lower
case, come to one specification: in any order, with unknown names and empty texts between them, in any
case and with any white space. Every id of a codec writes parameters, and the first of them that the
codec does not take is reported. -/
theorem parse_parameters :
    (∀ (codec : Codec) (settings : List (List Char × List Char)),
      (∀ p ∈ settings, accepts codec p = true) →
      (settings.map fun p => p.1.map Char.toLower).Nodup →
      ∃ spec, settings.foldlM (fun spec p => spec.assign p.1 p.2) (Spec.new codec) = .ok spec ∧
        ∀ (unknown written : List (List Char × List Char)) (id : String),
          (∀ p ∈ unknown, Setting.Unknown p) →
          (written.map folded).Perm ((settings ++ unknown).map folded) →
          Writes codec id.toList written → Spec.parse id = .ok spec) ∧
    (∀ id : String, (∃ name, Spec.parse id = .error (.unknownCipher name)) ∨
      ∃ codec written, Writes codec id.toList written) ∧
    ∀ (codec : Codec) (id : String) (written : List (List Char × List Char))
      (p : List Char × List Char),
      Writes codec id.toList written → written.find? (fun p => !accepts codec p) = some p →
      Spec.parse id = .error (.invalidParameter p.1 p.2) := by
  have hnew : ∀ codec, (Spec.new codec).codec = codec := fun _ => rfl
  refine ⟨fun codec settings haccepts hnodup => ?_, fun id => ?_, ?_⟩
  · refine ⟨settings.foldl (set codec) (Spec.new codec), foldlM_assign (hnew codec) haccepts, ?_⟩
    intro unknown written id hunknown hperm hwrites
    -- what is written is a setting or unknown, but for the case of its name
    have hwritten : ∀ p ∈ written, accepts codec p = true := by
      intro p hp
      have hmem := hperm.mem_iff.mp (List.mem_map_of_mem hp)
      obtain ⟨q, hq, hfolded⟩ := List.mem_map.mp hmem
      rw [← accepts_folded, ← hfolded, accepts_folded]
      obtain hq | hq := List.mem_append.mp hq
      · exact haccepts q hq
      · exact accepts_of_unknown (hunknown q hq)
    rw [Spec.parse, ofChars_of_parts? (writes_iff.mp hwrites), foldlM_assign (hnew codec) hwritten,
      foldl_perm ⟨hnodup, hunknown⟩ hperm]
  · cases h : parts? id.toList with
    | none => exact .inl (ofChars_of_parts?_eq_none h)
    | some parts => exact .inr ⟨parts.1, parts.2, writes_iff.mpr h⟩
  · intro codec id written p hwrites hfind
    rw [Spec.parse, ofChars_of_parts? (writes_iff.mp hwrites)]
    exact foldlM_assign_of_first (hnew codec) hfind

theorem parse_parameters_base64 :
    Spec.parse " BASE64 : Wrap =76 ,, colour=red,URL" =
        .ok { Spec.new .base64 with url := true, wrap := 76 } ∧
      Spec.parse "base64:url,wrap=76" = .ok { Spec.new .base64 with url := true, wrap := 76 } ∧
      Spec.parse "base64:url, Wrap= x,seed=-1" =
        .error (.invalidParameter "Wrap".toList " x".toList) := by
  obtain ⟨horder, -, hfirst⟩ := parse_parameters
  obtain ⟨spec, hspec, hparse⟩ := horder .base64
    [("url".toList, "1".toList), ("wrap".toList, "76".toList)] (by decide) (by decide)
  obtain rfl : { Spec.new .base64 with url := true, wrap := 76 } = spec := Except.ok.inj hspec
  refine ⟨?_, ?_, ?_⟩
  · exact hparse [("colour".toList, "red".toList)]
      [("Wrap".toList, "76".toList), ("colour".toList, "red".toList), ("URL".toList, "1".toList)] _
      (by decide) (by decide) (writes_iff.mpr (by decide))
  · exact hparse [] [("url".toList, "1".toList), ("wrap".toList, "76".toList)] _ (by decide)
      (by decide) (writes_iff.mpr (by decide))
  · exact hfirst .base64 _
      [("url".toList, "1".toList), ("Wrap".toList, " x".toList), ("seed".toList, "-1".toList)]
      ("Wrap".toList, " x".toList) (writes_iff.mpr (by decide)) (by decide)

end Bytework.Cipher
