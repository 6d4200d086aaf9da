import Bytework.Proofs.Path.Names

/-!
# Paths resolved by their text

What a path comes to when dots and double dots are resolved by the text alone.

* `descend`, `lexical`: the names that the segments of a path come to, one after the other.
* `normalize_eq`: a normalized path is written from these names.
* **`startsWith_normalize_iff`**: what a normalized path starts with is told by the names.
* `components_normalize`, `normalize_normalize`: a normalized path has no dots, and is its own normal form.
-/

namespace Bytework.Path

variable {p q cwd : Path} {n : Name} {base names ss : List Name}

/-- The names after one more segment: a segment that stands for nothing leaves them, a double dot takes back the
last one, if there is one, and a name comes behind them. -/
def descend (names : List Name) (segment : Name) : List Name :=
  if isIdle segment then names else if segment = up then names.dropLast else names ++ [segment]

/-- The names that a path comes to by its text alone. -/
def lexical (p : Path) : List Name := (p.splitOn '/').foldl descend []

/-- The names that a path comes to from a working directory, by the text alone. -/
def lexicalFrom (cwd p : Path) : List Name :=
  if isAbsolute p then lexical p else (p.splitOn '/').foldl descend (lexical cwd)

/-! ## Segments -/

theorem descend_idle (h : isIdle n) : descend names n = names := if_pos h

theorem descend_up : descend names up = names.dropLast := by simp [descend, isIdle, up]

theorem descend_plain (h : IsPlain n) : descend names n = names ++ [n] := by
  simp [descend, h.isIdle, h.2.2.1]

theorem foldl_descend_plain (h : ∀ n ∈ names, IsPlain n) : names.foldl descend base = base ++ names := by
  induction names generalizing base with
  | nil => simp
  | cons n names ih =>
    obtain ⟨hn, hnames⟩ := List.forall_mem_cons.mp h
    simp [descend_plain hn, ih hnames]

/-- All names that are left are plain. -/
theorem plain_foldl_descend (hbase : ∀ n ∈ base, IsPlain n) (hs : ∀ s ∈ ss, '/' ∉ s) :
    ∀ n ∈ ss.foldl descend base, IsPlain n := by
  induction ss generalizing base with
  | nil => exact hbase
  | cons s ss ih =>
    obtain ⟨hslash, hrest⟩ := List.forall_mem_cons.mp hs
    refine ih ?_ hrest
    unfold descend
    split
    case isTrue => exact hbase
    case isFalse hidle =>
      split
      case isTrue => exact fun n hn => hbase n (List.dropLast_subset _ hn)
      case isFalse hup =>
        intro n hn
        rcases List.mem_append.mp hn with hn | hn
        · exact hbase n hn
        · obtain rfl := List.mem_singleton.mp hn
          have hproper : n ≠ [] ∧ n ≠ ['.'] := by simpa [isIdle] using hidle
          exact ⟨hproper.1, hproper.2, hup, hslash⟩

theorem plain_lexical (p : Path) : ∀ n ∈ lexical p, IsPlain n :=
  plain_foldl_descend (by simp) Text.notMem_of_mem_splitOn

theorem lexical_append (p q : Path) : lexical (p ++ '/' :: q) = (q.splitOn '/').foldl descend (lexical p) := by
  simp only [lexical, List.splitOn_append_cons_self, List.foldl_append]

theorem foldl_segment_append (hs : '/' ∉ n) (q : Path) :
    ((n ++ '/' :: q).splitOn '/').foldl descend base = (q.splitOn '/').foldl descend (descend base n) := by
  rw [List.splitOn_append_cons_self, List.splitOn_eq_singleton hs]
  rfl

theorem foldl_segment (hs : '/' ∉ n) : (n.splitOn '/').foldl descend base = descend base n := by
  rw [List.splitOn_eq_singleton hs]
  rfl

theorem lexical_append_slash (p : Path) : lexical (p ++ ['/']) = lexical p := by
  have hempty : isIdle [] := rfl
  rw [lexical_append]
  exact descend_idle hempty

theorem lexical_slash_cons (p : Path) : lexical ('/' :: p) = lexical p := lexical_append [] p

theorem lexical_eq (p : Path) : lexical p = (segments p).foldl descend [] := by
  unfold segments
  split
  case isTrue h =>
    cases p with
    | nil => rfl
    | cons c p =>
      obtain rfl : c = '/' := by simpa [isAbsolute] using h
      exact lexical_slash_cons p
  case isFalse => rfl

/-- A path is joined to the working directory by going on from its names. -/
theorem lexical_join (hcwd : isAbsolute cwd) (p : Path) : lexical (cwd.join p) = lexicalFrom cwd p := by
  unfold join lexicalFrom
  split
  case isTrue => rfl
  case isFalse =>
    split
    case isTrue hend =>
      rcases List.eq_nil_or_concat cwd with rfl | ⟨start, c, rfl⟩
      · exact absurd hcwd (by decide)
      · obtain rfl : c = '/' := by simpa using hend
        rw [List.concat_eq_append, lexical_append_slash, List.append_assoc, List.singleton_append, lexical_append]
    case isFalse => exact lexical_append cwd p

theorem lexicalFrom_append (hp : p ≠ []) (q : Path) :
    lexicalFrom cwd (p ++ '/' :: q) = (q.splitOn '/').foldl descend (lexicalFrom cwd p) := by
  have habsolute : isAbsolute (p ++ '/' :: q) = isAbsolute p := by
    cases p with
    | nil => exact absurd rfl hp
    | cons => rfl
  unfold lexicalFrom
  rw [habsolute, lexical_append, List.splitOn_append_cons_self, List.foldl_append]
  split <;> rfl

theorem plain_lexicalFrom (cwd p : Path) : ∀ n ∈ lexicalFrom cwd p, IsPlain n := by
  unfold lexicalFrom
  split
  · exact plain_lexical p
  · exact plain_foldl_descend (plain_lexical cwd) Text.notMem_of_mem_splitOn

theorem isAbsolute_join_of_isAbsolute (hcwd : isAbsolute cwd) (p : Path) : isAbsolute (cwd.join p) := by
  unfold join
  split
  case isTrue h => exact h
  case isFalse =>
    cases cwd with
    | nil => exact absurd hcwd (by decide)
    | cons c cwd => split <;> exact hcwd

/-! ## Normalized paths -/

/-- Components are resolved as segments are. The names so far come with the last one first. -/
theorem resolveNames_map (ss names : List Name) :
    resolveNames names ((ss.filter (!isIdle ·)).map ofSegment) = ss.foldl descend names.reverse := by
  induction ss generalizing names with
  | nil => rfl
  | cons s ss ih =>
    rw [List.foldl_cons]
    by_cases hidle : isIdle s
    · simp [hidle, descend_idle hidle, ih]
    · rw [List.filter_cons, if_pos (by simpa using hidle), List.map_cons]
      by_cases hup : s = up
      · subst hup
        rw [descend_up, List.dropLast_reverse, ← ih]
        rfl
      · have hname : ofSegment s = .name s := by
          have hdot : s ≠ ['.'] := by
            rintro rfl
            exact hidle rfl
          have hdots : s ≠ ['.', '.'] := hup
          rw [ofSegment, if_neg hdots, if_neg hdot]
        rw [hname, resolveNames, ih, List.reverse_cons, descend, if_neg hidle, if_neg hup]

theorem resolveNames_components (p : Path) : resolveNames [] (components p) = lexical p := by
  rw [lexical_eq]
  unfold components
  dsimp only
  split
  case isTrue => exact resolveNames_map _ _
  case isFalse =>
    split
    case h_1 hs => simp [hs, resolveNames]
    case h_2 s ss hs =>
      rw [hs]
      split
      case isTrue hdot =>
        subst hdot
        exact resolveNames_map ss []
      case isFalse => exact resolveNames_map (s :: ss) []

theorem normalize_eq (p : Path) : normalize p = ofSegments (isAbsolute p) (lexical p) := by
  rw [normalize, resolveNames_components]

theorem isAbsolute_normalize (h : isAbsolute p) : isAbsolute (normalize p) := by
  rw [normalize_eq, h]
  rfl

theorem components_of_isAbsolute (h : isAbsolute p) : components p = .root :: p.names.map ofSegment := by
  rw [components, if_pos h]
  rfl

theorem components_normalize (h : isAbsolute p) : components (normalize p) = .root :: (lexical p).map .name := by
  have hplain := plain_lexical p
  rw [components_of_isAbsolute (isAbsolute_normalize h), normalize_eq,
    names_ofSegments fun n hn => (hplain n hn).2.2.2]
  have hfilter : (lexical p).filter (!isIdle ·) = lexical p :=
    List.filter_eq_self.mpr fun n hn => by simp [(hplain n hn).isIdle]
  rw [hfilter]
  congr 1
  exact List.map_congr_left fun n hn => ofSegment_of_plain (hplain n hn)

theorem lexical_ofSegments (h : ∀ n ∈ names, IsPlain n) : lexical (ofSegments true names) = names := by
  have hbody : lexical (List.intercalate ['/'] names) = names := by
    cases names with
    | nil => rfl
    | cons n names =>
      rw [lexical, List.splitOn_intercalate '/' (fun n hn => (h n hn).2.2.2) (List.cons_ne_nil _ _),
        foldl_descend_plain h, List.nil_append]
  exact (lexical_slash_cons _).trans hbody

theorem normalize_normalize (h : isAbsolute p) : normalize (normalize p) = normalize p := by
  have hlexical : lexical (normalize p) = lexical p := by
    rw [normalize_eq, h, lexical_ofSegments (plain_lexical p)]
  rw [normalize_eq (normalize p), hlexical, isAbsolute_normalize h, normalize_eq, h]

theorem startsWith_normalize_iff (hp : isAbsolute p) (hq : isAbsolute q) :
    startsWith (normalize p) (normalize q) ↔ lexical q <+: lexical p := by
  rw [startsWith, List.isPrefixOf_iff_prefix, components_normalize hp, components_normalize hq,
    List.cons_prefix_cons, List.prefix_map_iff]
  constructor
  · rintro ⟨-, names, hprefix, hnames⟩
    rwa [List.map_injective_iff.mpr (fun _ _ he => Component.name.inj he) hnames]
  · exact fun hprefix => ⟨rfl, _, hprefix, rfl⟩

end Bytework.Path
