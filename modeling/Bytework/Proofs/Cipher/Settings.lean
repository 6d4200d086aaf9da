import Bytework.Cipher.Spec
import Mathlib

/-!
# Settings of a specification

A name and a value set one field of a specification, whatever the others hold, or are refused whatever
they hold.

* `Setting`: a field with its value; `Setting.read?`: what a name and a value set, or none if they are
  refused; **`assign?_eq`**: setting a parameter is reading it and then setting the field.
* `folded`: a parameter with its name in lower case; `read?_folded`: the case of a name does not matter.
* `Setting.Unknown`: a name that sets no field; `read?_of_unknown`: it takes every value.
* **`foldl_perm`**: settings of different names come to the same in any order.
* `foldlM_assign`, `foldlM_assign_of_first`: all parameters set in turn, and the first that is refused.
-/

namespace Bytework.Cipher

/-- A parameter with its name in lower case. -/
def folded (p : List Char × List Char) : List Char × List Char := (p.1.map Char.toLower, p.2)

/-! ## Fields and their values -/

/-- A field of a specification with a value, or nothing to set. -/
inductive Setting
  | shift (n : Int)
  | key (k : Bytes)
  | rails (n : Nat)
  | separator (s : Bytes)
  | url (b : Bool)
  | wrap (n : Nat)
  | reverse (b : Bool)
  | seed (n : Nat)
  | ignored
  deriving DecidableEq, Repr

namespace Setting

/-- The name that sets a field. -/
def name? : Setting → Option String
  | .shift _ => some "shift"
  | .key _ => some "key"
  | .rails _ => some "rails"
  | .separator _ => some "sep"
  | .url _ => some "url"
  | .wrap _ => some "wrap"
  | .reverse _ => some "reverse"
  | .seed _ => some "seed"
  | .ignored => none

/-- The names that set a field. -/
def names : List String := ["shift", "key", "rails", "sep", "url", "wrap", "reverse", "seed"]

/-- A parameter whose name sets no field. -/
def Unknown (p : List Char × List Char) : Prop := ∀ n ∈ names, p.1.map Char.toLower ≠ n.toList

instance : DecidablePred Unknown := fun p =>
  inferInstanceAs (Decidable (∀ n ∈ names, p.1.map Char.toLower ≠ n.toList))

/-- The specification with a field set. -/
def apply (spec : Spec) : Setting → Spec
  | .shift n => { spec with shift := n }
  | .key k => { spec with key := k }
  | .rails n => { spec with rails := n }
  | .separator s => { spec with separator := s }
  | .url b => { spec with url := b }
  | .wrap n => { spec with wrap := n }
  | .reverse b => { spec with reverse := b }
  | .seed n => { spec with seed := n }
  | .ignored => spec

/-- What a name and a value set for a codec; `none` if the name does not take the value. -/
def read? (codec : Codec) (p : List Char × List Char) : Option Setting :=
  let known (s : String) : Bool := p.1.map Char.toLower == s.toList
  if known "shift" then (Text.readSigned? 32 (Text.trim p.2)).map .shift
  else if known "key" then (Spec.readKey? codec p.2).map .key
  else if known "rails" then ((Text.readUnsigned? 64 (Text.trim p.2)).filter (2 ≤ ·)).map .rails
  else if known "sep" then (Spec.readSeparator? p.2).map .separator
  else if known "url" then (Spec.readFlag? p.2).map .url
  else if known "wrap" then (Text.readUnsigned? 64 (Text.trim p.2)).map .wrap
  else if known "reverse" then (Spec.readFlag? p.2).map .reverse
  else if known "seed" then (Text.readUnsigned? 32 (Text.trim p.2)).map .seed
  else some .ignored

variable {a b : Setting} {codec : Codec} {p : List Char × List Char}

@[simp] theorem codec_apply (spec : Spec) (a : Setting) : (a.apply spec).codec = spec.codec := by
  cases a <;> rfl

/-- **Fields of different names** are set in either order. -/
theorem apply_apply (h : ∀ n, a.name? = some n → b.name? ≠ some n) (spec : Spec) :
    b.apply (a.apply spec) = a.apply (b.apply spec) := by
  cases a <;> cases b <;> first | rfl | exact absurd rfl (h _ rfl)

theorem read?_folded (codec : Codec) (p : List Char × List Char) :
    read? codec (folded p) = read? codec p := by
  have hname : (p.1.map Char.toLower).map Char.toLower = p.1.map Char.toLower := by
    rw [List.map_map]
    exact List.map_congr_left fun c _ => c.toLower_toLower_eq_toLower
  simp only [read?, folded, hname]

theorem name_of_map {α : Type} {read : Option α} {field : α → Setting} {name : List Char}
    {m n : String} (hname : (name == m.toList) = true) (hfield : ∀ x, (field x).name? = some m)
    (h : read.map field = some a) (hn : a.name? = some n) : name = n.toList := by
  obtain ⟨x, -, rfl⟩ := Option.map_eq_some_iff.mp h
  obtain rfl := Option.some.inj ((hfield x).symm.trans hn)
  exact beq_iff_eq.mp hname

/-- What is read sets the field of its name. -/
theorem name_of_read? (h : read? codec p = some a) {n : String} (hn : a.name? = some n) :
    p.1.map Char.toLower = n.toList := by
  unfold read? at h
  simp only at h
  split_ifs at h with hshift hkey hrails hsep hurl hwrap hreverse hseed
  · exact name_of_map hshift (fun _ => rfl) h hn
  · exact name_of_map hkey (fun _ => rfl) h hn
  · exact name_of_map hrails (fun _ => rfl) h hn
  · exact name_of_map hsep (fun _ => rfl) h hn
  · exact name_of_map hurl (fun _ => rfl) h hn
  · exact name_of_map hwrap (fun _ => rfl) h hn
  · exact name_of_map hreverse (fun _ => rfl) h hn
  · exact name_of_map hseed (fun _ => rfl) h hn
  · cases h
    cases hn

theorem read?_of_unknown (h : Unknown p) : read? codec p = some .ignored := by
  have hne : ∀ n ∈ names, ¬ (p.1.map Char.toLower == n.toList) = true := fun n hn heq =>
    h n hn (beq_iff_eq.mp heq)
  simp only [names, List.forall_mem_cons] at hne
  obtain ⟨hshift, hkey, hrails, hsep, hurl, hwrap, hreverse, hseed, -⟩ := hne
  simp only [read?]
  rw [if_neg hshift, if_neg hkey, if_neg hrails, if_neg hsep, if_neg hurl, if_neg hwrap,
    if_neg hreverse, if_neg hseed]

end Setting

/-- **Setting a parameter** is reading it and then setting the field. -/
theorem assign?_eq (spec : Spec) (name value : List Char) :
    spec.assign? name value =
      (Setting.read? spec.codec (name, value)).map fun a => a.apply spec := by
  unfold Spec.assign? Setting.read?
  simp only [apply_ite (Option.map fun a : Setting => a.apply spec), Option.map_map]
  rfl

/-! ## Many parameters -/

variable {codec : Codec} {spec : Spec} {p : List Char × List Char}
  {ps qs settings unknown : List (List Char × List Char)}

/-- A codec takes a parameter. -/
def accepts (codec : Codec) (p : List Char × List Char) : Bool :=
  ((Spec.new codec).assign? p.1 p.2).isSome

/-- What a parameter sets, nothing if it is refused. -/
def reading (codec : Codec) (p : List Char × List Char) : Setting :=
  (Setting.read? codec p).getD .ignored

/-- The specification with a parameter set, or as it is if it is refused. -/
def set (codec : Codec) (spec : Spec) (p : List Char × List Char) : Spec :=
  (reading codec p).apply spec

theorem accepts_eq (codec : Codec) (p : List Char × List Char) :
    accepts codec p = (Setting.read? codec p).isSome := by
  rw [accepts, assign?_eq, Option.isSome_map]
  rfl

theorem accepts_folded (codec : Codec) (p : List Char × List Char) :
    accepts codec (folded p) = accepts codec p := by
  rw [accepts_eq, accepts_eq, Setting.read?_folded]

theorem set_folded (codec : Codec) (spec : Spec) (p : List Char × List Char) :
    set codec spec (folded p) = set codec spec p := by
  rw [set, set, reading, reading, Setting.read?_folded]

theorem reading_of_unknown (h : Setting.Unknown p) : reading codec p = .ignored := by
  rw [reading, Setting.read?_of_unknown h]
  rfl

theorem accepts_of_unknown (h : Setting.Unknown p) : accepts codec p = true := by
  rw [accepts_eq, Setting.read?_of_unknown h]
  rfl

theorem name_of_reading {n : String} (hn : (reading codec p).name? = some n) :
    p.1.map Char.toLower = n.toList := by
  cases h : Setting.read? codec p with
  | none =>
    rw [reading, h] at hn
    cases hn
  | some a =>
    rw [reading, h] at hn
    exact Setting.name_of_read? h hn

theorem assign_eq (hspec : spec.codec = codec) (p : List Char × List Char) :
    spec.assign p.1 p.2 =
      if accepts codec p then .ok (set codec spec p) else .error (.invalidParameter p.1 p.2) := by
  rw [Spec.assign, assign?_eq, accepts_eq, set, reading, hspec]
  cases Setting.read? codec p <;> rfl

theorem foldlM_assign (hspec : spec.codec = codec) (h : ∀ p ∈ ps, accepts codec p = true) :
    ps.foldlM (fun spec p => spec.assign p.1 p.2) spec = .ok (ps.foldl (set codec) spec) := by
  induction ps generalizing spec with
  | nil => rfl
  | cons p ps ih =>
    obtain ⟨hp, hps⟩ := List.forall_mem_cons.mp h
    have hcodec : (set codec spec p).codec = codec := (Setting.codec_apply spec _).trans hspec
    rw [List.foldlM_cons, assign_eq hspec, if_pos hp]
    exact ih hcodec hps

/-- The first parameter that is refused is reported. -/
theorem foldlM_assign_of_first (hspec : spec.codec = codec)
    (h : ps.find? (fun p => !accepts codec p) = some p) :
    ps.foldlM (fun spec p => spec.assign p.1 p.2) spec =
      .error (.invalidParameter p.1 p.2) := by
  induction ps generalizing spec with
  | nil => cases h
  | cons q ps ih =>
    rw [List.foldlM_cons, assign_eq hspec]
    by_cases hq : accepts codec q = true
    · have hcodec : (set codec spec q).codec = codec := (Setting.codec_apply spec _).trans hspec
      rw [List.find?_cons_of_neg (by rw [hq]; decide)] at h
      rw [if_pos hq]
      exact ih hcodec h
    · rw [List.find?_cons_of_pos (by rw [Bool.eq_false_iff.mpr hq]; decide)] at h
      cases h
      rw [if_neg hq]
      rfl

/-! ## Order -/

/-- Parameters whose names are pairwise different in lower case, with unknown ones between them. -/
structure Unmixed (settings unknown : List (List Char × List Char)) : Prop where
  nodup : (settings.map fun p => p.1.map Char.toLower).Nodup
  unknown : ∀ p ∈ unknown, Setting.Unknown p

theorem set_set (h : Unmixed settings unknown) {p q : List Char × List Char}
    (hp : p ∈ settings ++ unknown) (hq : q ∈ settings ++ unknown) (spec : Spec) :
    set codec (set codec spec p) q = set codec (set codec spec q) p := by
  obtain hp | hp := List.mem_append.mp hp
  · obtain hq | hq := List.mem_append.mp hq
    · by_cases hpq : p = q
      · rw [hpq]
      -- two parameters that set the same field would have the same name
      · refine Setting.apply_apply (fun n hn hn' => hpq ?_) spec
        have hnames := (name_of_reading hn).trans (name_of_reading hn').symm
        exact List.inj_on_of_nodup_map h.nodup hp hq hnames
    · rw [set, set, set, set, reading_of_unknown (h.unknown q hq)]
      rfl
  · rw [set, set, set, set, reading_of_unknown (h.unknown p hp)]
    rfl

theorem foldl_set_unknown (h : ∀ p ∈ unknown, Setting.Unknown p) (spec : Spec) :
    unknown.foldl (set codec) spec = spec := by
  induction unknown generalizing spec with
  | nil => rfl
  | cons p unknown ih =>
    obtain ⟨hp, hunknown⟩ := List.forall_mem_cons.mp h
    rw [List.foldl_cons, set, reading_of_unknown hp]
    exact ih hunknown spec

/-- **Parameters of different names** come to the same in any order, in any case, and with unknown ones
between them. -/
theorem foldl_perm (h : Unmixed settings unknown)
    (hperm : (qs.map folded).Perm ((settings ++ unknown).map folded)) (spec : Spec) :
    qs.foldl (set codec) spec = settings.foldl (set codec) spec := by
  have hfolded : ∀ ps : List (List Char × List Char), ∀ spec,
      (ps.map folded).foldl (set codec) spec = ps.foldl (set codec) spec := fun ps spec => by
    rw [List.foldl_map]
    simp only [set_folded]
  have hcomm : ∀ p ∈ (settings ++ unknown).map folded, ∀ q ∈ (settings ++ unknown).map folded,
      ∀ spec, set codec (set codec spec p) q = set codec (set codec spec q) p := by
    intro p hp q hq spec
    obtain ⟨p', hp', rfl⟩ := List.mem_map.mp hp
    obtain ⟨q', hq', rfl⟩ := List.mem_map.mp hq
    simp only [set_folded]
    exact set_set h hp' hq' spec
  calc qs.foldl (set codec) spec
      = (qs.map folded).foldl (set codec) spec := (hfolded qs spec).symm
    _ = ((settings ++ unknown).map folded).foldl (set codec) spec :=
      (hperm.symm.foldl_eq' hcomm spec).symm
    _ = (settings ++ unknown).foldl (set codec) spec := hfolded _ spec
    _ = settings.foldl (set codec) spec := by
      rw [List.foldl_append, foldl_set_unknown h.unknown]

end Bytework.Cipher
