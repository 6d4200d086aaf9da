import Bytework.Proofs.Pattern.Reread

/-!
# Patterns between parentheses

A pattern that can be read by itself is read as the same tree in the midst of a larger one, if a
closing parenthesis comes after it: no reader of an item looks past the end of the pattern, other than
to find out that nothing follows there which it could take.

* `enclosed`: a text with a closing parenthesis and more behind it.
* `quantify_enclosed`, `atom_enclosed`: what the readers of one item read in front of a closing
  parenthesis; `atom_taken` says that an atom ends at the same place whatever stands behind it.
* **`readFrom_enclosed`**: reading over a whole pattern arrives at the closing parenthesis with its
  tree.
* `readFrom_grouped`: a pattern in a group that captures nothing.
* **`parse_start`**, **`parse_stop`**, **`parse_start_stop`**: the tree of such a group at the start of
  the text, up to its end, and both.
-/

namespace Bytework.Pattern

/-- A text with a closing parenthesis and more behind it. -/
def enclosed (rest tail : Bytes) : Bytes := rest ++ byte ')' :: tail

variable {b : UInt8} {rest after tail : Bytes}

@[simp] theorem enclosed_nil : enclosed [] tail = byte ')' :: tail := rfl

@[simp] theorem enclosed_cons : enclosed (b :: rest) tail = b :: enclosed rest tail := rfl

/-! ## Quantifiers -/

theorem takeWhile_enclosed :
    (enclosed rest tail).takeWhile isBoundByte = rest.takeWhile isBoundByte := by
  have hclose : isBoundByte (byte ')') = false := by decide
  induction rest with
  | nil => simp [hclose]
  | cons b rest ih => simp [List.takeWhile_cons, ih]

theorem unmarked_enclosed (h : Unmarked rest) : Unmarked (enclosed rest tail) := by
  cases rest with
  | nil => exact unmarked_cons.mpr (by decide)
  | cons b rest => exact h

theorem unopened_enclosed (h : Unopened rest) : Unopened (enclosed rest tail) := by
  refine ⟨unmarked_enclosed h.unmarked, fun after hafter => ?_⟩
  cases rest with
  | nil => cases hafter
  | cons b rest =>
    obtain ⟨rfl, rfl⟩ := List.cons.inj hafter
    exact (h.unbounded rest rfl).congr takeWhile_enclosed.symm

theorem quantify_enclosed {t u : Tree} (h : quantify t rest = .ok (u, after)) :
    quantify t (enclosed rest tail) = .ok (u, enclosed after tail) := by
  obtain ⟨rfl, rfl, hopen⟩ | ⟨text, least, most, greedy, htext, rfl, rfl, hend⟩ := quantify_iff.mp h
  · exact quantify_iff.mpr (.inl ⟨rfl, rfl, unopened_enclosed hopen⟩)
  · refine quantify_iff.mpr (.inr ⟨text, least, most, greedy, htext, rfl, ?_, unmarked_enclosed hend⟩)
    simp [enclosed]

/-! ## Atoms -/

theorem enclosed_append {taken : Bytes} :
    enclosed (taken ++ rest) tail = taken ++ enclosed rest tail := List.append_assoc ..

/-- **An atom ends where it ends**, whatever stands behind it. -/
theorem atom_taken {t : Tree} (h : atom b rest = .ok (t, after)) :
    ∃ taken, rest = taken ++ after ∧ ∀ tail, atom b (taken ++ tail) = .ok (t, tail) := by
  cases atom_iff.mp h with
  | any => exact ⟨[], rfl, fun tail => atom_iff.mpr (.any tail)⟩
  | start => exact ⟨[], rfl, fun tail => atom_iff.mpr (.start tail)⟩
  | stop => exact ⟨[], rfl, fun tail => atom_iff.mpr (.stop tail)⟩
  | set hclass =>
    obtain ⟨taken, rfl, htaken⟩ := classTree_taken hclass
    exact ⟨taken, rfl, fun tail => atom_iff.mpr (.set (htaken tail))⟩
  | escape e => exact ⟨[e], rfl, fun tail => atom_iff.mpr (.escape e tail)⟩
  | byte _ hdot hcaret hdollar hbracket hescape hmark =>
    exact ⟨[], rfl, fun tail =>
      atom_iff.mpr (.byte tail hdot hcaret hdollar hbracket hescape hmark)⟩

theorem atom_enclosed {t : Tree} (h : atom b rest = .ok (t, after)) :
    atom b (enclosed rest tail) = .ok (t, enclosed after tail) := by
  obtain ⟨taken, rfl, htaken⟩ := atom_taken h
  rw [enclosed_append]
  exact htaken _

/-! ## Whole patterns -/

theorem isPrefixOf_enclosed : [byte '?', byte ':'].isPrefixOf (enclosed rest tail) =
    [byte '?', byte ':'].isPrefixOf rest := by
  rcases rest with _ | ⟨b, _ | ⟨c, rest⟩⟩
  · rfl
  · have hclose : byte ':' ≠ byte ')' := by decide
    simp [List.isPrefixOf, hclose]
  · simp [List.isPrefixOf]

theorem readFrom_paren {stack : List (Level × Option Nat)} {level : Level} {n : Nat} :
    readFrom stack level n (byte '(' :: rest) =
      if stack.length = maxNesting then failAt .nestingTooDeep (byte '(' :: rest)
      else if [byte '?', byte ':'].isPrefixOf rest then
        readFrom ((level, none) :: stack) .new n (rest.drop 2)
      else readFrom ((level, some n) :: stack) .new (n + 1) rest := by
  have hbar : byte '(' ≠ byte '|' := by decide
  rw [readFrom.eq_def]
  simp only [if_neg hbar, if_true]

/-- **Reading over a whole pattern**, in front of a closing parenthesis and inside of more groups,
arrives at the parenthesis with the tree of the pattern, unless the groups nest too deep. -/
theorem readFrom_enclosed {stack base : List (Level × Option Nat)} {level : Level} {n total : Nat}
    {t : Tree} {r : Tree × Nat} (h : readFrom stack level n rest = .ok (t, total))
    (hr : readFrom (stack ++ base) level n (enclosed rest tail) = .ok r) :
    ∃ inner : Level, inner.tree = t ∧ readFrom base inner total (byte ')' :: tail) = .ok r := by
  fun_induction readFrom stack level n rest with
  | case1 stack level n hempty =>
    obtain rfl := List.isEmpty_iff.mp hempty
    cases h
    exact ⟨level, rfl, hr⟩
  | case3 stack level n after ih =>
    rw [enclosed_cons, readFrom_bar] at hr
    exact ih h hr
  | case5 stack level n after _ hplain _ ih =>
    rw [enclosed_cons, readFrom_paren, isPrefixOf_enclosed, if_pos hplain] at hr
    split at hr
    · cases hr
    · obtain ⟨rest, rfl⟩ := List.isPrefixOf_iff_prefix.mp hplain
      exact ih h hr
  | case6 stack level n after _ hplain _ ih =>
    rw [enclosed_cons, readFrom_paren, isPrefixOf_enclosed, if_neg hplain] at hr
    split at hr
    · cases hr
    · exact ih h hr
  | case9 level n after outer index stack item after' hq _ _ ih =>
    rw [enclosed_cons, List.cons_append, readFrom_close, quantify_enclosed hq] at hr
    exact ih h hr
  | case12 stack level n b after hbar hopen hclose item after' ha item' after'' hq ih =>
    rw [enclosed_cons, readFrom_atom hbar hopen hclose (atom_enclosed ha), quantify_enclosed hq] at hr
    exact ih h hr
  | case2 | case4 | case7 => cases h
  | case8 | case10 | case11 => cases h

/-- A pattern in a group that captures nothing, with more behind it. -/
def grouped (pattern tail : Bytes) : Bytes :=
  byte '(' :: byte '?' :: byte ':' :: enclosed pattern tail

section Grouped

variable {pattern : Bytes} {t : Tree} {n : Nat} {r : Tree × Nat}

theorem readFrom_grouped {level : Level} (h : Tree.parse pattern = .ok (t, n))
    (hr : readFrom [] level 0 (grouped pattern tail) = .ok r) :
    (quantify (.group t none) tail).bind (fun q => readFrom [] (level.push q.1) n q.2) = .ok r := by
  have hplain : [byte '?', byte ':'].isPrefixOf (byte '?' :: byte ':' :: enclosed pattern tail) := by
    simp [List.isPrefixOf]
  rw [grouped, readFrom_paren, if_neg (by decide), if_pos hplain] at hr
  obtain ⟨inner, rfl, hinner⟩ := readFrom_enclosed (Tree.parse_eq_ok_iff.mp h) hr
  rwa [readFrom_close] at hinner

theorem readFrom_nil {level : Level} : readFrom [] level n [] = .ok (level.tree, n) := by
  rw [readFrom.eq_def]
  rfl

theorem readFrom_start {level : Level} :
    readFrom [] level n (byte '^' :: grouped pattern tail) =
      readFrom [] (level.push .start) n (grouped pattern tail) := by
  rw [readFrom_atom (by decide) (by decide) (by decide) (t := .start) rfl, grouped,
    quantify_unquantified (unquantified_cons.mpr (by decide))]
  rfl

theorem readFrom_stop {level : Level} :
    readFrom [] level n [byte '$'] = .ok ((level.push .stop).tree, n) := by
  rw [readFrom_atom (by decide) (by decide) (by decide) (t := .stop) rfl]
  exact readFrom_nil

/-- **A pattern at the start of the text.** -/
theorem parse_start (h : Tree.parse pattern = .ok (t, n))
    (hr : Tree.parse (byte '^' :: grouped pattern []) = .ok r) :
    r = (.seq .start (.group t none), n) := by
  rw [Tree.parse_eq_ok_iff, readFrom_start] at hr
  have hend := readFrom_grouped h hr
  rw [quantify, Except.bind, readFrom_nil] at hend
  exact (Except.ok.inj hend).symm

/-- **A pattern up to the end of the text.** -/
theorem parse_stop (h : Tree.parse pattern = .ok (t, n))
    (hr : Tree.parse (grouped pattern [byte '$']) = .ok r) :
    r = (.seq (.group t none) .stop, n) := by
  rw [Tree.parse_eq_ok_iff] at hr
  have hend := readFrom_grouped h hr
  rw [quantify_unquantified (unquantified_cons.mpr (by decide)), Except.bind, readFrom_stop] at hend
  exact (Except.ok.inj hend).symm

/-- **A pattern from the start of the text to its end.** -/
theorem parse_start_stop (h : Tree.parse pattern = .ok (t, n))
    (hr : Tree.parse (byte '^' :: grouped pattern [byte '$']) = .ok r) :
    r = (.seq .start (.seq (.group t none) .stop), n) := by
  rw [Tree.parse_eq_ok_iff, readFrom_start] at hr
  have hend := readFrom_grouped h hr
  rw [quantify_unquantified (unquantified_cons.mpr (by decide)), Except.bind, readFrom_stop] at hend
  exact (Except.ok.inj hend).symm

end Grouped

end Bytework.Pattern
