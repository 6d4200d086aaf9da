import Bytework.Cipher.Spec
import Bytework.Proofs.Text.Parts

/-!
# Values of parameters

What an id with one parameter carries of the value behind the equals sign: all of it up to the white
space at its end, which is taken for white space around the parameter.

* **`ofChars_setting`**: an id with one parameter assigns the value without the white space at its end.
* `ofChars_rdropWhile_eq_iff`: nothing is lost if there is none.
* **`parse_value`**: the separators and masks that ids write.
-/

namespace Bytework.Cipher

/-! ## Parts of an id -/

section Parts

variable {c : Char} {before after : List Char}

theorem cut?_append_cons (h : c ∉ before) :
    Spec.cut? c (before ++ c :: after) = some (before, after) := by
  have hbefore : ∀ a ∈ before, (a != c) = true := by
    intro a ha
    rw [bne_iff_ne]
    rintro rfl
    exact h ha
  rw [Spec.cut?, List.dropWhile_append_of_pos hbefore, List.takeWhile_append_of_pos hbefore]
  simp

end Parts

/-! ## Ids with one parameter -/

section Setting

variable {id name value : List Char} {codec : Codec}

theorem parameters_setting (hname : '=' ∉ name) (hcomma : ',' ∉ name)
    (hstart : ∀ a ∈ name.head?, Text.isBlank a = false) (hvalue : ',' ∉ value) :
    Spec.parameters (name ++ '=' :: value) =
      [(Text.trim name, value.rdropWhile Text.isBlank)] := by
  have hequals : Text.isBlank '=' = false := by decide
  have hnone : ',' ∉ name ++ '=' :: value := by
    rw [List.mem_append, List.mem_cons]
    rintro (h | h | h)
    · exact hcomma h
    · cases h
    · exact hvalue h
  have hsplit : (name ++ '=' :: value).splitOn ',' = [name ++ '=' :: value] :=
    List.splitOn_eq_singleton hnone
  have hne : (name ++ '=' :: value.rdropWhile Text.isBlank).isEmpty = false := by simp
  rw [Spec.parameters, hsplit, List.map_singleton, Text.trim_append_cons hstart hequals,
    List.filter_cons_of_pos (by rw [hne]; rfl), List.filter_nil, List.map_singleton, Spec.nameValue,
    cut?_append_cons hname]

/-- **An id with one parameter assigns the value without the white space at its end.** -/
theorem ofChars_setting (hid : ':' ∉ id) (hcodec : Codec.ofId? (Text.trim id) = some codec)
    (hname : '=' ∉ name) (hcomma : ',' ∉ name)
    (hstart : ∀ a ∈ name.head?, Text.isBlank a = false) (hvalue : ',' ∉ value) :
    Spec.ofChars (id ++ ':' :: (name ++ '=' :: value)) =
      (Spec.new codec).assign (Text.trim name) (value.rdropWhile Text.isBlank) := by
  rw [Spec.ofChars, cut?_append_cons hid]
  simp only [hcodec, parameters_setting hname hcomma hstart hvalue, List.foldlM_cons,
    List.foldlM_nil]
  cases (Spec.new codec).assign (Text.trim name) (value.rdropWhile Text.isBlank) <;> rfl

end Setting

/-! ## Separators and masks -/

section Values

variable {value : List Char}

theorem assign_separator (codec : Codec) (h0 : '0' ∉ value) (h1 : '1' ∉ value) :
    (Spec.new codec).assign "sep".toList value =
      .ok { Spec.new codec with separator := Bytes.ofChars value } := by
  have hdigits : (value.any fun c => c == '0' || c == '1') = false := by
    rw [List.any_eq_false]
    intro c hc
    rw [Bool.or_eq_true, beq_iff_eq, beq_iff_eq]
    rintro (rfl | rfl)
    · exact h0 hc
    · exact h1 hc
  have hread : Spec.readSeparator? value = some (Bytes.ofChars value) := by
    rw [Spec.readSeparator?, hdigits, if_neg Bool.false_ne_true]
  have hassign : (Spec.new codec).assign? "sep".toList value =
      (Spec.readSeparator? value).map fun s => { Spec.new codec with separator := s } := rfl
  rw [Spec.assign, hassign, hread]
  rfl

theorem assign_mask : (Spec.new .xor).assign "key".toList value =
    if value = [] then .error (.invalidParameter "key".toList [])
    else .ok { Spec.new .xor with key := Bytes.ofChars value } := by
  have hassign : (Spec.new .xor).assign? "key".toList value =
      (Spec.readKey? .xor value).map fun k => { Spec.new .xor with key := k } := rfl
  rw [Spec.assign, hassign]
  cases value <;> rfl

/-- A value that does not end in white space. -/
def EndsPlain (value : List Char) : Prop := ∀ c ∈ value.getLast?, Text.isBlank c = false

theorem rdropWhile_eq_self_iff :
    value.rdropWhile Text.isBlank = value ↔ EndsPlain value :=
  Text.rdropWhile_eq_self_iff

/-- Nothing is lost exactly if the value does not end in white space. -/
theorem ofChars_rdropWhile_eq_iff :
    Bytes.ofChars (value.rdropWhile Text.isBlank) = Bytes.ofChars value ↔ EndsPlain value := by
  rw [← rdropWhile_eq_self_iff]
  refine ⟨fun h => ?_, fun h => by rw [h]⟩
  obtain ⟨lost, hlost⟩ := List.rdropWhile_prefix Text.isBlank value
  have hbytes : Bytes.ofChars value =
      Bytes.ofChars (value.rdropWhile Text.isBlank) ++ Bytes.ofChars lost := by
    rw [Bytes.ofChars, ← hlost, List.flatMap_append, hlost]
    rfl
  rw [hbytes, List.self_eq_append_right, Bytes.ofChars, List.flatMap_eq_nil_iff] at h
  have hnil : lost = [] := by
    rw [List.eq_nil_iff_forall_not_mem]
    intro c hc
    have hlength := congrArg List.length (h c hc)
    rw [String.length_utf8EncodeChar] at hlength
    exact absurd hlength c.utf8Size_pos.ne'
  rwa [hnil, List.append_nil] at hlost

/-- The separator that an id writes. -/
theorem ofChars_separator (hcomma : ',' ∉ value) (h0 : '0' ∉ value) (h1 : '1' ∉ value) :
    Spec.ofChars ("binary".toList ++ ':' :: ("sep".toList ++ '=' :: value)) =
      .ok { Spec.new .binary with separator := Bytes.ofChars (value.rdropWhile Text.isBlank) } := by
  have hcodec : Codec.ofId? (Text.trim "binary".toList) = some .binary := by decide
  have hstart : ∀ a ∈ "sep".toList.head?, Text.isBlank a = false := by
    rintro a ⟨⟩
    rfl
  have hkept : ∀ c ∈ value.rdropWhile Text.isBlank, c ∈ value :=
    (List.rdropWhile_prefix Text.isBlank value).subset
  rw [ofChars_setting (by decide) hcodec (by decide) (by decide) hstart hcomma]
  exact assign_separator .binary (fun h => h0 (hkept _ h)) fun h => h1 (hkept _ h)

/-- The mask that an id writes. -/
theorem ofChars_mask (hcomma : ',' ∉ value) :
    Spec.ofChars ("xor".toList ++ ':' :: ("key".toList ++ '=' :: value)) =
      if value.rdropWhile Text.isBlank = [] then .error (.invalidParameter "key".toList [])
      else .ok { Spec.new .xor with key := Bytes.ofChars (value.rdropWhile Text.isBlank) } := by
  have hcodec : Codec.ofId? (Text.trim "xor".toList) = some .xor := by decide
  have hstart : ∀ a ∈ "key".toList.head?, Text.isBlank a = false := by
    rintro a ⟨⟩
    rfl
  rw [ofChars_setting (by decide) hcodec (by decide) (by decide) hstart hcomma]
  exact assign_mask

end Values

theorem parse_separator (value : String) : Spec.parse ("binary:sep=" ++ value) =
    Spec.ofChars ("binary".toList ++ ':' :: ("sep".toList ++ '=' :: value.toList)) := by
  rw [Spec.parse, String.toList_append]
  rfl

theorem parse_mask (value : String) : Spec.parse ("xor:key=" ++ value) =
    Spec.ofChars ("xor".toList ++ ':' :: ("key".toList ++ '=' :: value.toList)) := by
  rw [Spec.parse, String.toList_append]
  rfl

/-- **What ids carry of a separator or a mask**: the value without the white space at its end, so that
a value arrives as it is exactly if it does not end in white space. -/
theorem parse_value (value : String) (hcomma : ',' ∉ value.toList) :
    ('0' ∉ value.toList → '1' ∉ value.toList →
      Spec.parse ("binary:sep=" ++ value) = .ok { Spec.new .binary with
        separator := Bytes.ofChars (value.toList.rdropWhile Text.isBlank) } ∧
      ((Spec.parse ("binary:sep=" ++ value)).map Spec.separator = .ok (Bytes.ofText value) ↔
        EndsPlain value.toList)) ∧
    Spec.parse ("xor:key=" ++ value) =
      (if value.toList.rdropWhile Text.isBlank = [] then .error (.invalidParameter "key".toList [])
      else .ok { Spec.new .xor with
        key := Bytes.ofChars (value.toList.rdropWhile Text.isBlank) }) ∧
    (value.toList ≠ [] →
      ((Spec.parse ("xor:key=" ++ value)).map Spec.key = .ok (Bytes.ofText value) ↔
        EndsPlain value.toList)) := by
  rw [parse_separator, parse_mask, ofChars_mask hcomma]
  refine ⟨fun h0 h1 => ?_, rfl, fun hne => ?_⟩
  · rw [ofChars_separator hcomma h0 h1, ← ofChars_rdropWhile_eq_iff]
    exact ⟨rfl, fun h => Except.ok.inj h, fun h => congrArg Except.ok h⟩
  · split
    · rename_i hblank
      refine ⟨(fun h => nomatch h), fun h => ?_⟩
      rw [← rdropWhile_eq_self_iff, hblank] at h
      exact absurd h.symm hne
    · rw [← ofChars_rdropWhile_eq_iff]
      exact ⟨fun h => Except.ok.inj h, fun h => congrArg Except.ok h⟩

theorem parse_value_colons :
    ',' ∉ ": =|".toList ∧
      Spec.parse ("binary:sep=" ++ ": =|") =
        .ok { Spec.new .binary with separator := ascii ": =|" } ∧
      Spec.parse ("xor:key=" ++ ": =|") = .ok { Spec.new .xor with key := ascii ": =|" } := by
  have hcomma : ',' ∉ ": =|".toList := by decide
  obtain ⟨hsep, hkey, -⟩ := parse_value ": =|" hcomma
  exact ⟨hcomma, (hsep (by decide) (by decide)).1, hkey⟩

/-- A separator or a mask of one space is lost. -/
theorem parse_space :
    ',' ∉ " ".toList ∧ '0' ∉ " ".toList ∧ '1' ∉ " ".toList ∧ Bytes.ofText " " = [space] ∧
      Spec.parse ("binary:sep=" ++ " ") = .ok { Spec.new .binary with separator := [] } ∧
      Spec.parse ("xor:key=" ++ " ") = .error (.invalidParameter "key".toList []) := by
  have hcomma : ',' ∉ " ".toList := by decide
  have h0 : '0' ∉ " ".toList := by decide
  have h1 : '1' ∉ " ".toList := by decide
  refine ⟨hcomma, h0, h1, by decide, ?_, ?_⟩
  · rw [parse_separator, ofChars_separator hcomma h0 h1]
    rfl
  · rw [parse_mask, ofChars_mask hcomma]
    rfl

end Bytework.Cipher
