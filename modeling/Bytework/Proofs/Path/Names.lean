import Bytework.Proofs.Text.Parts
import Bytework.Volume.Resolve

/-!
# Names of a path

What joining, and going to a parent, do to the names of a path.

* `IsPlain`: a name that an entry of a directory can have.
* `names_join`, `fileName?_join`, `segments_join`: a plain name below a path.
* `names_of_parent?`, `names_eq_of_parent?`: a parent has all names of a path but the last one, and starts where
  it starts.
* `parent?_join`: the parent of a name below an absolute path has the names of the path.
* `asksDirectory_join`, `asksDirectory_of_parent?`: neither ends in a slash or a dot.
-/

namespace Bytework.Path

/-- A name that an entry of a directory can have. -/
def IsPlain (n : Name) : Prop := n ≠ [] ∧ n ≠ ['.'] ∧ n ≠ up ∧ '/' ∉ n

instance (n : Name) : Decidable (IsPlain n) := inferInstanceAs (Decidable (_ ∧ _))

theorem IsPlain.isIdle {n : Name} (h : IsPlain n) : isIdle n = false := by
  simp [Path.isIdle, h.1, h.2.1]

/-! ## Texts between slashes -/

theorem splitOn_slash_cons (p : Path) : ('/' :: p).splitOn '/' = [] :: p.splitOn '/' :=
  List.splitOn_append_cons_self [] p

theorem notMem_of_mem_segments {p : Path} : ∀ s ∈ segments p, '/' ∉ s :=
  Text.notMem_of_mem_splitOn

theorem names_eq (p : Path) : p.names = (p.splitOn '/').filter (!isIdle ·) := by
  cases p with
  | nil => rfl
  | cons c p =>
    by_cases hc : c = '/'
    · subst hc
      rw [splitOn_slash_cons]
      rfl
    · simp [names, segments, isAbsolute, hc]

theorem names_nil : names [] = [] := rfl

theorem names_append (p q : Path) : names (p ++ '/' :: q) = names p ++ names q := by
  rw [names_eq, List.splitOn_append_cons_self, List.filter_append, ← names_eq, ← names_eq]

theorem isPlain_of_mem_names {p : Path} {n : Name} (h : n ∈ p.names) (hup : n ≠ up) :
    IsPlain n := by
  rw [names, List.mem_filter] at h
  have hidle : n ≠ [] ∧ n ≠ ['.'] := by simpa [Path.isIdle] using h.2
  exact ⟨hidle.1, hidle.2, hup, notMem_of_mem_segments n h.1⟩

theorem names_of_plain {n : Name} (h : IsPlain n) : names n = [n] := by
  rw [names_eq, List.splitOn_eq_singleton h.2.2.2]
  simp [h.isIdle]

theorem isEmpty_of_isAbsolute {p : Path} (h : isAbsolute p) : p.isEmpty = false := by
  cases p with
  | nil => exact absurd h (by decide)
  | cons => rfl

theorem asksDirectory_of_names_eq_nil {p : Path} (h : names p = []) : asksDirectory p = false := by
  have hany : (segments p).any (!isIdle ·) = false := by
    rw [List.any_eq_false]
    intro s hs hidle
    exact List.filter_eq_nil_iff.mp h s hs hidle
  rw [asksDirectory, hany, Bool.and_false]

/-- A dot behind a name asks for a directory. -/
theorem asksDirectory_of_endsInDot {p : Path} (hn : names p ≠ []) (h : endsInDot p) : asksDirectory p := by
  obtain ⟨name, hname⟩ := List.exists_mem_of_ne_nil _ hn
  obtain ⟨hmem, hidle⟩ := List.mem_filter.mp hname
  refine Bool.and_eq_true_iff.mpr ⟨?_, List.any_eq_true.mpr ⟨name, hmem, hidle⟩⟩
  rw [endsInDot, beq_iff_eq] at h
  rcases List.eq_nil_or_concat (segments p) with he | ⟨ss, s, he⟩
  · rw [he] at h
    exact absurd h (by simp)
  · rw [List.concat_eq_append] at he
    rw [he] at h ⊢
    by_cases hempty : s.isEmpty
    · simp [isIdle, hempty]
    · rw [List.filter_append, List.filter_singleton] at h
      simp only [hempty, Bool.not_false, cond_true, List.getLast?_concat, Option.some.injEq] at h
      simp [isIdle, h]

/-! ## Below a path -/

section Join

variable {p : Path} {n : Name}

theorem isAbsolute_of_plain (h : IsPlain n) : isAbsolute n = false := by
  cases n with
  | nil => exact absurd rfl h.1
  | cons c n =>
    have hc : c ≠ '/' := fun hc => h.2.2.2 (hc ▸ List.mem_cons_self)
    simpa [isAbsolute] using hc

theorem names_join (h : IsPlain n) : names (join p n) = names p ++ [n] := by
  unfold join
  rw [isAbsolute_of_plain h, if_neg Bool.false_ne_true]
  split
  case isTrue hp =>
    rcases List.eq_nil_or_concat p with rfl | ⟨q, c, rfl⟩
    · exact names_of_plain h
    · -- the path ends in a slash, which separates as another one would
      obtain rfl : c = '/' := by simpa using hp
      have hq : names (q ++ ['/']) = names q := by rw [names_append, names_nil, List.append_nil]
      rw [List.concat_eq_append, hq, List.append_assoc, List.singleton_append, names_append,
        names_of_plain h]
  case isFalse => rw [names_append, names_of_plain h]

theorem isAbsolute_join (h : IsPlain n) : isAbsolute (join p n) = isAbsolute p := by
  unfold join
  rw [isAbsolute_of_plain h, if_neg Bool.false_ne_true]
  cases p with
  | nil => exact isAbsolute_of_plain h
  | cons c p => split <;> rfl

theorem isEmpty_join (h : IsPlain n) : (join p n).isEmpty = false := by
  rw [List.isEmpty_eq_false_iff]
  intro he
  have hnames := names_join (p := p) h
  rw [he, names_nil] at hnames
  exact absurd hnames (by simp)

theorem ofSegment_of_plain (h : IsPlain n) : ofSegment n = .name n := by
  have hup : n ≠ ['.', '.'] := h.2.2.1
  rw [ofSegment, if_neg hup, if_neg h.2.1]

/-- The components of a path end in those of its names. -/
theorem names_suffix_components (p : Path) : p.names.map ofSegment <:+ components p := by
  unfold components names
  split
  · exact List.suffix_cons _ _
  · split
    case h_1 hs => simp [hs]
    case h_2 s ss hs =>
      rw [hs]
      split
      case isTrue hdot =>
        subst hdot
        exact List.suffix_cons _ _
      case isFalse => exact List.suffix_refl _

theorem fileName?_join (h : IsPlain n) : fileName? (join p n) = some n := by
  obtain ⟨before, hbefore⟩ := names_suffix_components (join p n)
  rw [names_join h, List.map_append, ← List.append_assoc] at hbefore
  rw [fileName?, ← hbefore, List.map_singleton, List.getLast?_concat, ofSegment_of_plain h]

end Join

/-! ## Parents -/

theorem filter_dropWhile (ss : List Name) :
    (ss.dropWhile isIdle).filter (!isIdle ·) = ss.filter (!isIdle ·) := by
  induction ss with
  | nil => rfl
  | cons s ss ih => by_cases hs : isIdle s <;> simp [hs, ih]

theorem filter_trimSegments (absolute : Bool) (ss : List Name) :
    (trimSegments absolute ss).filter (!isIdle ·) = ss.filter (!isIdle ·) := by
  cases ss with
  | nil => rfl
  | cons s ss =>
    have hrest : ((ss.reverse.dropWhile isIdle).reverse).filter (!isIdle ·) =
        ss.filter (!isIdle ·) := by
      rw [List.filter_reverse, filter_dropWhile, ← List.filter_reverse, List.reverse_reverse]
    rw [trimSegments]
    split
    case isTrue h =>
      obtain ⟨hempty, hs⟩ := Bool.and_eq_true_iff.mp h
      rw [List.isEmpty_iff.mp hempty] at hrest
      have hidle : isIdle s := by
        rcases Bool.or_eq_true_iff.mp hs with h | h
        · simp [Path.isIdle, h]
        · exact Bool.or_eq_true_iff.mpr (.inr (Bool.and_eq_true_iff.mp h).2)
      rw [List.filter_cons, hidle, ← hrest]
      rfl
    case isFalse => rw [List.filter_cons, List.filter_cons, hrest]

theorem mem_of_mem_trimSegments {absolute : Bool} {ss : List Name} :
    ∀ s ∈ trimSegments absolute ss, s ∈ ss := by
  cases ss with
  | nil => simp [trimSegments]
  | cons s ss =>
    rw [trimSegments]
    split
    · simp
    · refine List.forall_mem_cons.mpr ⟨List.mem_cons_self, fun s hs => ?_⟩
      have hmem := (List.dropWhile_suffix isIdle).mem (List.mem_reverse.mp hs)
      exact List.mem_cons_of_mem _ (List.mem_reverse.mp hmem)

theorem names_ofSegments {absolute : Bool} {ss : List Name} (h : ∀ s ∈ ss, '/' ∉ s) :
    names (ofSegments absolute ss) = ss.filter (!isIdle ·) := by
  have hbody : names (List.intercalate ['/'] ss) = ss.filter (!isIdle ·) := by
    rw [names_eq]
    cases ss with
    | nil => rfl
    | cons s ss => rw [List.splitOn_intercalate '/' h (List.cons_ne_nil _ _)]
  cases absolute with
  | false => exact hbody
  | true => exact (names_append [] _).trans hbody

/-- The first of some segments, if there is one, starts with a character that is no slash. -/
def Opens (ss : List Name) : Prop := ∀ s ∈ ss.head?, ∃ c t, s = c :: t ∧ c ≠ '/'

theorem Opens.isAbsolute_ofSegments {ss : List Name} (h : Opens ss) :
    isAbsolute (ofSegments false ss) = false := by
  cases ss with
  | nil => rfl
  | cons s ss =>
    obtain ⟨c, t, rfl, hc⟩ := h s rfl
    cases ss <;> simp [ofSegments, isAbsolute, hc]

theorem Opens.trimSegments {absolute : Bool} {ss : List Name} (h : Opens ss) :
    Opens (trimSegments absolute ss) := by
  cases ss with
  | nil => exact h
  | cons s ss =>
    rw [Path.trimSegments]
    split
    · simp [Opens]
    · exact h

theorem Opens.dropLast {ss : List Name} (h : Opens ss) : Opens ss.dropLast := by
  match ss with
  | [] => exact h
  | [s] => simp [Opens]
  | s :: s' :: ss => exact h

theorem opens_segments {p : Path} (h : isAbsolute p = false) (hne : p ≠ []) :
    Opens (segments p) := by
  cases p with
  | nil => exact absurd rfl hne
  | cons c p =>
    have hc : c ≠ '/' := by simpa [isAbsolute] using h
    rw [segments, if_neg (by simp [h]), List.splitOn_cons_eq_if_modifyHead, if_neg (by simpa using hc)]
    cases p.splitOn '/' with
    | nil => simp [Opens]
    | cons s ss =>
      rintro _ ⟨⟩
      exact ⟨c, s, rfl, hc⟩

/-- What is left of trimmed segments after the first one ends in one that stands for something. -/
theorem trimSegments_cases (absolute : Bool) (ss : List Name) :
    trimSegments absolute ss = [] ∨ (∃ s, trimSegments absolute ss = [s]) ∨
      ∃ init n, trimSegments absolute ss = init ++ [n] ∧ isIdle n = false := by
  cases ss with
  | nil => exact .inl rfl
  | cons s ss =>
    rw [trimSegments]
    split
    case isTrue => exact .inl rfl
    case isFalse =>
      cases hrest : ss.reverse.dropWhile isIdle with
      | nil => exact .inr (.inl ⟨s, rfl⟩)
      | cons n init =>
        have hn := List.head?_dropWhile_not isIdle ss.reverse
        rw [hrest] at hn
        exact .inr (.inr ⟨s :: init.reverse, n, by simp, by simpa using hn⟩)

/-- A parent has all names of a path but the last one. -/
theorem names_eq_of_parent? {p q : Path} (h : parent? p = some q) : names q = (names p).dropLast := by
  have hsegments : ∀ s ∈ trimSegments (isAbsolute p) (segments p), '/' ∉ s := fun s hs =>
    notMem_of_mem_segments s (mem_of_mem_trimSegments s hs)
  unfold parent? at h
  split at h
  case h_1 => exact absurd h (by simp)
  case h_2 hne =>
    obtain rfl := Option.some.inj h
    have hdrop : names (ofSegments (isAbsolute p)
          (trimSegments (isAbsolute p) (trimSegments (isAbsolute p) (segments p)).dropLast)) =
        (trimSegments (isAbsolute p) (segments p)).dropLast.filter (!isIdle ·) := by
      rw [names_ofSegments, filter_trimSegments]
      exact fun s hs => hsegments s (List.dropLast_subset _ (mem_of_mem_trimSegments s hs))
    have hall : names p = (trimSegments (isAbsolute p) (segments p)).filter (!isIdle ·) :=
      (filter_trimSegments _ _).symm
    rw [hdrop, hall]
    rcases trimSegments_cases (isAbsolute p) (segments p) with he | ⟨s, he⟩ | ⟨init, n, he, hn⟩
    · exact absurd he hne
    · rw [he]
      cases hs : isIdle s <;> simp [hs]
    · rw [he, List.dropLast_concat, List.filter_append]
      simp [hn]

theorem names_eq_nil_of_parent? {p : Path} (h : parent? p = none) : names p = [] := by
  unfold parent? at h
  split at h
  case h_1 he => rw [names, ← filter_trimSegments (isAbsolute p), he, List.filter_nil]
  case h_2 => exact absurd h (by simp)

/-- A parent has the first names of a path, and starts where it starts. -/
theorem names_of_parent? {p q : Path} (h : parent? p = some q) :
    names q <+: names p ∧ isAbsolute q = isAbsolute p := by
  refine ⟨names_eq_of_parent? h ▸ List.dropLast_prefix _, ?_⟩
  unfold parent? at h
  split at h
  case h_1 => exact absurd h (by simp)
  case h_2 hne =>
    obtain rfl := Option.some.inj h
    cases ha : isAbsolute p with
    | true => rfl
    | false =>
      have hp : p ≠ [] := by
        rintro rfl
        exact hne rfl
      exact (opens_segments ha hp).trimSegments.dropLast.trimSegments.isAbsolute_ofSegments

theorem segments_ofSegments {absolute : Bool} {ss : List Name} (h : ∀ s ∈ ss, '/' ∉ s) (hne : ss ≠ [])
    (ha : isAbsolute (ofSegments absolute ss) = absolute) : segments (ofSegments absolute ss) = ss := by
  have hbody : (List.intercalate ['/'] ss).splitOn '/' = ss := List.splitOn_intercalate '/' h hne
  rw [segments, ha]
  cases absolute <;> exact hbody

theorem asksDirectory_ofSegments_trimSegments {absolute : Bool} {ss : List Name} (h : ∀ s ∈ ss, '/' ∉ s)
    (ha : isAbsolute (ofSegments absolute (trimSegments absolute ss)) = absolute) :
    asksDirectory (ofSegments absolute (trimSegments absolute ss)) = false := by
  have hslash : ∀ s ∈ trimSegments absolute ss, '/' ∉ s := fun s hs => h s (mem_of_mem_trimSegments s hs)
  rcases trimSegments_cases absolute ss with he | ⟨s, he⟩ | ⟨init, n, he, hn⟩
  · rw [he]
    cases absolute <;> rfl
  · rw [asksDirectory, segments_ofSegments hslash (by simp [he]) ha, he]
    simp
  · rw [asksDirectory, segments_ofSegments hslash (by simp [he]) ha, he, List.getLast?_concat, Option.any_some, hn,
      Bool.false_and]

theorem asksDirectory_of_parent? {p q : Path} (h : parent? p = some q) : asksDirectory q = false := by
  have ha := (names_of_parent? h).2
  unfold parent? at h
  split at h
  case h_1 => exact absurd h (by simp)
  case h_2 =>
    obtain rfl := Option.some.inj h
    refine asksDirectory_ofSegments_trimSegments (fun s hs => ?_) ha
    exact notMem_of_mem_segments s (mem_of_mem_trimSegments s (List.dropLast_subset _ hs))

/-- A path has no more names than characters. -/
theorem length_names_le (p : Path) : (names p).length ≤ p.length := by
  rw [names_eq]
  induction p with
  | nil => simp [isIdle]
  | cons c p ih =>
    rw [List.splitOn_cons_eq_if_modifyHead, List.length_cons]
    split
    · simpa [isIdle] using Nat.le_succ_of_le ih
    · cases hs : p.splitOn '/' with
      | nil => simp
      | cons s ss =>
        rw [hs] at ih
        have hs' : (ss.filter (!isIdle ·)).length ≤ ((s :: ss).filter (!isIdle ·)).length :=
          ((List.suffix_cons s ss).sublist.filter _).length_le
        have hhead : (((s :: ss).modifyHead (List.cons c)).filter (!isIdle ·)).length ≤
            (ss.filter (!isIdle ·)).length + 1 := by
          rw [List.modifyHead_cons, List.filter_cons]
          split <;> simp
        omega

/-- A path with a plain name behind it ends in the segment of that name. -/
theorem segments_join {p : Path} {n : Name} (h : IsPlain n) : ∃ ss, segments (join p n) = ss ++ [n] := by
  have hsplit : n.splitOn '/' = [n] := List.splitOn_eq_singleton h.2.2.2
  have htext : join p n = n ∨ ∃ q, join p n = q ++ '/' :: n := by
    unfold join
    rw [isAbsolute_of_plain h, if_neg Bool.false_ne_true]
    split
    case isTrue hp =>
      rcases List.eq_nil_or_concat p with rfl | ⟨q, c, rfl⟩
      · exact .inl rfl
      · obtain rfl : c = '/' := by simpa using hp
        exact .inr ⟨q, by simp⟩
    case isFalse => exact .inr ⟨p, rfl⟩
  rcases htext with he | ⟨q, he⟩
  · rw [he, segments, isAbsolute_of_plain h, if_neg Bool.false_ne_true]
    exact ⟨[], hsplit⟩
  · rw [he, segments]
    split
    case isTrue =>
      cases q with
      | nil => exact ⟨[], hsplit⟩
      | cons c q => exact ⟨q.splitOn '/', (List.splitOn_append_cons_self q n).trans (by rw [hsplit])⟩
    case isFalse => exact ⟨q.splitOn '/', (List.splitOn_append_cons_self q n).trans (by rw [hsplit])⟩

theorem asksDirectory_join {p : Path} {n : Name} (h : IsPlain n) : asksDirectory (join p n) = false := by
  obtain ⟨ss, hss⟩ := segments_join (p := p) h
  rw [asksDirectory, hss, List.getLast?_concat, Option.any_some, h.isIdle, Bool.false_and]

theorem endsInDot_join {p : Path} {n : Name} (h : IsPlain n) : endsInDot (join p n) = false := by
  obtain ⟨ss, hss⟩ := segments_join (p := p) h
  have hlast : [n].filter (!·.isEmpty) = [n] := by simp [h.1]
  rw [endsInDot, hss, List.filter_append, hlast, List.getLast?_concat]
  simpa using h.2.1

theorem trimSegments_concat {absolute : Bool} {ss : List Name} {n : Name} (h : isIdle n = false) :
    trimSegments absolute (ss ++ [n]) = ss ++ [n] := by
  have hidle : n.isEmpty = false ∧ (n == ['.']) = false := by simpa [Path.isIdle] using h
  cases ss with
  | nil => simp [trimSegments, hidle]
  | cons s ss => simp [trimSegments, h]

/-- The parent of a plain name below an absolute path has the names of the path. -/
theorem parent?_join {p : Path} {n : Name} (h : IsPlain n) (ha : isAbsolute p) :
    ∃ q, parent? (join p n) = some q ∧ names q = names p ∧ isAbsolute q := by
  obtain ⟨ss, hss⟩ := segments_join (p := p) h
  have hnames : ss.filter (!isIdle ·) = names p := by
    have hjoin := names_join (p := p) h
    rw [names, hss, List.filter_append] at hjoin
    have hlast : [n].filter (!isIdle ·) = [n] := by simp [h.isIdle]
    rw [hlast] at hjoin
    exact List.append_cancel_right hjoin
  have hparent : parent? (join p n) = some (ofSegments true (trimSegments true ss)) := by
    rw [parent?, isAbsolute_join h, ha, hss, trimSegments_concat h.isIdle]
    split
    case h_1 he => exact absurd he (by simp)
    case h_2 => rw [List.dropLast_concat]
  refine ⟨_, hparent, ?_, rfl⟩
  rw [names_ofSegments, filter_trimSegments, hnames]
  intro s hs
  refine notMem_of_mem_segments (p := join p n) s ?_
  rw [hss]
  exact List.mem_append_left _ (mem_of_mem_trimSegments s hs)

end Bytework.Path
