import Bytework.Bytes.Shape
import Bytework.Proofs.Bytes.Search
import Mathlib.Data.List.DropRight

/-!
# Words and the white space around them

What trimming leaves of a string, and its words: the maximal runs without white space.

* `Blank`, `Word`, `Framed`: white space; bytes that are none; a string that starts and ends with such
  a byte.
* `MaximalRun`, `Runs`: a run of a string, and all of them with their places.
* `words_append_cons`: words are parted at white space; all else about them follows.
* **`exists_runs`**: the words are the maximal runs, in order.
* `Trims`: the longest piece that starts and ends with no white space; **`trims_trim`**: trimming
  leaves it.
* **`normalizeSpaces_runs`**: what normalizing leaves of white space and of words, for a string and for
  what trimming leaves of it.
-/

namespace Bytework.Bytes

variable {s t word before after : Bytes} {b : UInt8}

/-! ## White space and words -/

/-- White space, or nothing. -/
def Blank (s : Bytes) : Prop := ∀ b ∈ s, isSpace b = true

/-- Bytes that are no white space, at least one. -/
structure Word (s : Bytes) : Prop where
  ne_nil : s ≠ []
  solid : ∀ b ∈ s, isSpace b = false

theorem Word.notMem (h : Word word) (hb : isSpace b = true) : b ∉ word := fun hmem =>
  Bool.false_ne_true ((h.solid b hmem).symm.trans hb)

/-- **Words are parted at white space.** -/
theorem words_append_cons (hb : isSpace b = true) (s t : Bytes) :
    words (s ++ b :: t) = words s ++ words t := by
  rw [words, List.splitOnP_append_cons s t hb, List.filter_append]
  rfl

theorem words_cons (hb : isSpace b = true) (s : Bytes) : words (b :: s) = words s :=
  words_append_cons hb [] s

/-- A string has no words if it is white space. -/
theorem words_eq_nil_iff : words s = [] ↔ Blank s := by
  induction s with
  | nil => simp [words, Blank]
  | cons b s ih =>
    rw [Blank, List.forall_mem_cons]
    cases hb : isSpace b with
    | true => rw [words_cons hb, ih, Blank, eq_self, true_and]
    | false =>
      obtain ⟨piece, pieces, hpieces⟩ := List.exists_cons_of_ne_nil (List.splitOnP_ne_nil isSpace s)
      have hwords : words (b :: s) = (b :: piece) :: pieces.filter (!·.isEmpty) := by
        rw [words, List.splitOnP_cons_eq_if_modifyHead, hb, if_neg Bool.false_ne_true, hpieces]
        rfl
      rw [hwords]
      simp

theorem words_append_left (h : Blank before) (s : Bytes) : words (before ++ s) = words s := by
  induction before with
  | nil => rfl
  | cons b before ih =>
    obtain ⟨hb, hbefore⟩ := List.forall_mem_cons.mp h
    rw [List.cons_append, words_cons hb, ih hbefore]

theorem words_append_right (h : Blank after) (s : Bytes) : words (s ++ after) = words s := by
  cases after with
  | nil => rw [List.append_nil]
  | cons b after =>
    obtain ⟨hb, hafter⟩ := List.forall_mem_cons.mp h
    rw [words_append_cons hb, words_eq_nil_iff.mpr hafter, List.append_nil]

theorem words_of_word (h : Word s) : words s = [s] := by
  obtain ⟨b, s, rfl⟩ := List.exists_cons_of_ne_nil h.ne_nil
  rw [words, List.splitOnP_eq_singleton h.solid]
  rfl

theorem words_word_append (h : Word word) (hs : ∀ b ∈ s.head?, isSpace b = true) :
    words (word ++ s) = word :: words s := by
  cases s with
  | nil => rw [List.append_nil, words_of_word h]; rfl
  | cons b s =>
    have hb : isSpace b = true := hs b rfl
    rw [words_append_cons hb, words_of_word h, words_cons hb]
    rfl

/-! ## Maximal runs -/

/-- A word with what is before and behind it in a string: it cannot be made longer. -/
structure MaximalRun (before word after : Bytes) : Prop where
  isWord : Word word
  starts : ∀ b ∈ before.getLast?, isSpace b = true
  stops : ∀ b ∈ after.head?, isSpace b = true

/-- A word is a maximal run of a string behind some bytes. -/
def RunAt (s : Bytes) (i : Nat) (word : Bytes) : Prop :=
  ∃ before after, s = before ++ word ++ after ∧ before.length = i ∧ MaximalRun before word after

/-- All the maximal runs of a string, each with how many bytes are before it, from left to right. -/
structure Runs (s : Bytes) (runs : List (Nat × Bytes)) : Prop where
  inOrder : runs.Pairwise (·.1 < ·.1)
  mem_iff : ∀ i word, (i, word) ∈ runs ↔ RunAt s i word

section Runs

variable {front : Bytes} {i j : Nat}

/-- Where white space parts two strings, the runs of the second are the runs behind the first. -/
theorem runAt_append_iff
    (hpart : (∀ b ∈ front.getLast?, isSpace b = true) ∨ ∀ b ∈ s.head?, isSpace b = true) :
    RunAt (front ++ s) (front.length + j) word ↔ RunAt s j word := by
  constructor
  · rintro ⟨before, after, heq, hlength, hrun⟩
    have hbefore : before <+: front ++ s := by
      rw [heq, List.append_assoc]
      exact List.prefix_append ..
    obtain ⟨between, rfl⟩ :=
      List.prefix_of_prefix_length_le (List.prefix_append front s) hbefore (by omega)
    rw [List.append_assoc, List.append_assoc] at heq
    rw [List.length_append] at hlength
    refine ⟨between, after, ?_, by omega, hrun.isWord, fun b hb => hrun.starts b ?_, hrun.stops⟩
    · rw [List.append_assoc]
      exact List.append_cancel_left heq
    · rw [List.getLast?_append, Option.mem_def.mp hb, Option.some_or]
      rfl
  · rintro ⟨before, after, rfl, rfl, hrun⟩
    refine ⟨front ++ before, after, by simp, List.length_append, hrun.isWord, fun b hb => ?_,
      hrun.stops⟩
    cases hbefore : before.getLast? with
    | some c =>
      rw [List.getLast?_append, hbefore] at hb
      exact hrun.starts b (hbefore.trans hb)
    | none =>
      obtain rfl := List.getLast?_eq_none_iff.mp hbefore
      rw [List.append_nil] at hb
      refine hpart.elim (fun h => h b hb) fun h => ?_
      obtain ⟨c, word, rfl⟩ := List.exists_cons_of_ne_nil hrun.isWord.ne_nil
      exact absurd List.mem_cons_self (hrun.isWord.notMem (h c rfl))

/-- The runs of a string, some of which end before white space and the others start behind it. -/
theorem Runs.append {runs : List (Nat × Bytes)} (h : Runs s runs) (front : Bytes)
    (firsts : List (Nat × Bytes))
    (hpart : (∀ b ∈ front.getLast?, isSpace b = true) ∨ ∀ b ∈ s.head?, isSpace b = true)
    (horder : firsts.Pairwise (·.1 < ·.1)) (hlt : ∀ run ∈ firsts, run.1 < front.length)
    (hmem : ∀ i < front.length, ∀ word, (i, word) ∈ firsts ↔ RunAt (front ++ s) i word) :
    Runs (front ++ s) (firsts ++ runs.map fun run => (front.length + run.1, run.2)) := by
  refine ⟨?_, fun i word => ?_⟩
  · refine List.pairwise_append.mpr ⟨horder, ?_, ?_⟩
    · refine h.inOrder.map _ fun _ _ hlt => Nat.add_lt_add_left hlt _
    · intro run hrun behind hbehind
      obtain ⟨other, -, rfl⟩ := List.mem_map.mp hbehind
      exact Nat.lt_of_lt_of_le (hlt run hrun) (Nat.le_add_right ..)
  · rw [List.mem_append]
    by_cases hi : i < front.length
    · rw [← hmem i hi, or_iff_left]
      intro hbehind
      obtain ⟨other, -, hother⟩ := List.mem_map.mp hbehind
      have : front.length + other.1 = i := congrArg Prod.fst hother
      omega
    · obtain ⟨j, rfl⟩ := Nat.exists_eq_add_of_le (Nat.le_of_not_lt hi)
      rw [runAt_append_iff hpart, ← h.mem_iff, or_iff_right fun hfirst => hi (hlt _ hfirst)]
      simp

theorem not_runAt_zero (hb : isSpace b = true) : ¬ RunAt (b :: s) 0 word := by
  rintro ⟨before, after, heq, hlength, hrun⟩
  obtain rfl := List.eq_nil_of_length_eq_zero hlength
  obtain ⟨c, word, rfl⟩ := List.exists_cons_of_ne_nil hrun.isWord.ne_nil
  obtain ⟨rfl, -⟩ := List.cons.inj heq
  exact hrun.isWord.notMem hb List.mem_cons_self

/-- A word in front of white space is one run. -/
theorem runAt_front_iff (hfront : Word front) (hs : ∀ b ∈ s.head?, isSpace b = true)
    (hi : i < front.length) : RunAt (front ++ s) i word ↔ i = 0 ∧ word = front := by
  constructor
  · rintro ⟨before, after, heq, rfl, hrun⟩
    have hbefore : before <+: front ++ s := by
      rw [heq, List.append_assoc]
      exact List.prefix_append ..
    have hstart : before <+: front :=
      List.prefix_of_prefix_length_le hbefore (List.prefix_append front s) hi.le
    -- the byte before a run is white space, and the word has none
    have hnil : before = [] := by
      cases hlast : before.getLast? with
      | none => exact List.getLast?_eq_none_iff.mp hlast
      | some b =>
        have hmem : b ∈ front := hstart.subset (List.mem_of_getLast? hlast)
        exact absurd hmem (hfront.notMem (hrun.starts b hlast))
    subst hnil
    have hrunWhile : ∀ {word rest : Bytes}, Word word → (∀ b ∈ rest.head?, isSpace b = true) →
        (word ++ rest).takeWhile (!isSpace ·) = word := by
      intro word rest hword hrest
      refine takeWhile_append_stop (fun b hb => ?_) fun b hb => ?_
      · rw [hword.solid b hb]
        rfl
      · rw [hrest b hb]
        rfl
    refine ⟨rfl, ?_⟩
    rw [← hrunWhile hrun.isWord hrun.stops, ← hrunWhile hfront hs, heq, List.nil_append]
  · rintro ⟨rfl, rfl⟩
    exact ⟨[], s, rfl, rfl, hfront, (fun _ h => nomatch h), hs⟩

end Runs

theorem exists_word (hb : isSpace b = false) (s : Bytes) :
    ∃ word rest, b :: s = word ++ rest ∧ Word word ∧ ∀ c ∈ rest.head?, isSpace c = true := by
  refine ⟨(b :: s).takeWhile (!isSpace ·), (b :: s).dropWhile (!isSpace ·),
    List.takeWhile_append_dropWhile.symm, ⟨?_, fun c hc => ?_⟩, fun c hc => ?_⟩
  · simp [hb]
  · simpa using List.mem_takeWhile_imp hc
  · have hstop := List.head?_dropWhile_not (!isSpace ·) (b :: s)
    rw [Option.mem_def.mp hc] at hstop
    simpa using hstop

/-- **The words of a string are its maximal runs**, from left to right. -/
theorem exists_runs (s : Bytes) : ∃ runs, Runs s runs ∧ runs.map Prod.snd = words s := by
  induction hn : s.length using Nat.strongRecOn generalizing s with
  | _ n ih =>
    cases s with
    | nil =>
      refine ⟨[], ⟨List.Pairwise.nil, fun i word => ?_⟩, rfl⟩
      refine iff_of_false List.not_mem_nil ?_
      rintro ⟨before, after, heq, -, hrun⟩
      have hword := List.append_eq_nil_iff.mp (List.append_eq_nil_iff.mp heq.symm).1
      exact hrun.isWord.ne_nil hword.2
    | cons b s =>
      cases hb : isSpace b with
      | true =>
        obtain ⟨runs, hruns, hwords⟩ := ih s.length (by rw [← hn]; exact Nat.lt_succ_self _) s rfl
        refine ⟨_, hruns.append [b] [] (.inl ?_) List.Pairwise.nil (fun _ h => nomatch h)
          fun i hi word => ?_, ?_⟩
        · rintro c ⟨⟩
          exact hb
        · obtain rfl : i = 0 := Nat.lt_one_iff.mp hi
          exact iff_of_false List.not_mem_nil (not_runAt_zero hb)
        · rw [words_cons hb, ← hwords]
          simp
      | false =>
        obtain ⟨front, rest, heq, hfront, hrest⟩ := exists_word hb s
        have hlength : rest.length < n := by
          have hpos := List.length_pos_iff.mpr hfront.ne_nil
          rw [← hn, heq, List.length_append]
          omega
        obtain ⟨runs, hruns, hwords⟩ := ih rest.length hlength rest rfl
        rw [heq]
        refine ⟨_, hruns.append front [(0, front)] (.inr hrest) (List.pairwise_singleton ..) ?_
          fun i hi word => ?_, ?_⟩
        · rintro run (_ | ⟨_, ⟨⟩⟩)
          exact List.length_pos_iff.mpr hfront.ne_nil
        · rw [runAt_front_iff hfront hrest hi, List.mem_singleton, Prod.mk.injEq]
        · rw [words_word_append hfront hrest, ← hwords]
          simp

theorem word_of_mem_words : ∀ word ∈ words s, Word word := by
  obtain ⟨runs, hruns, hwords⟩ := exists_runs s
  intro word hword
  rw [← hwords] at hword
  obtain ⟨⟨i, _⟩, hmem, rfl⟩ := List.mem_map.mp hword
  obtain ⟨before, after, -, -, hrun⟩ := (hruns.mem_iff i _).mp hmem
  exact hrun.isWord

/-! ## Trimming -/

/-- A string that starts and ends with a byte that is no white space. -/
structure Framed (s : Bytes) : Prop where
  starts : ∃ b ∈ s.head?, isSpace b = false
  ends : ∃ b ∈ s.getLast?, isSpace b = false

/-- The longest piece of a string that starts and ends with a byte that is no white space; nothing if
there is none. -/
structure Trims (s t : Bytes) : Prop where
  isInfix : t <:+: s
  framed : t = [] ∨ Framed t
  longest : ∀ piece, piece <:+: s → Framed piece → piece = t ∨ piece.length < t.length

theorem trim_eq (s : Bytes) : trim s = (s.rdropWhile isSpace).dropWhile isSpace := rfl

theorem exists_trim (s : Bytes) :
    ∃ before after, Blank before ∧ Blank after ∧ s = before ++ trim s ++ after := by
  refine ⟨(s.rdropWhile isSpace).takeWhile isSpace, s.rtakeWhile isSpace,
    fun _ => List.mem_takeWhile_imp, fun _ => List.mem_rtakeWhile_imp, ?_⟩
  rw [trim_eq, List.takeWhile_append_dropWhile, List.rdropWhile_append_rtakeWhile]

/-- What trimming leaves starts and ends with no white space. -/
theorem framed_trim (s : Bytes) : trim s = [] ∨ Framed (trim s) := by
  by_cases hne : trim s = []
  · exact .inl hne
  · have hparts : (s.rdropWhile isSpace).takeWhile isSpace ++ trim s = s.rdropWhile isSpace :=
      List.takeWhile_append_dropWhile
    have hkept : s.rdropWhile isSpace ≠ [] := by
      rw [← hparts]
      exact List.append_ne_nil_of_right_ne_nil _ hne
    refine .inr ⟨⟨(trim s).head hne, List.head?_eq_some_head hne, ?_⟩,
      ⟨(s.rdropWhile isSpace).getLast hkept, ?_, ?_⟩⟩
    · have hstart := List.head?_dropWhile_not isSpace (s.rdropWhile isSpace)
      rw [← trim_eq, List.head?_eq_some_head hne] at hstart
      exact hstart
    · rw [← List.getLast?_append_of_ne_nil _ hne, hparts]
      exact List.getLast?_eq_some_getLast hkept
    · exact Bool.eq_false_iff.mpr (List.rdropWhile_last_not isSpace s hkept)

theorem infix_of_blank_append (hbefore : Blank before) (ht : ∃ b ∈ t.head?, isSpace b = false)
    (h : t <:+: before ++ s) : t <:+: s := by
  induction before with
  | nil => exact h
  | cons b before ih =>
    obtain ⟨hb, hbefore⟩ := List.forall_mem_cons.mp hbefore
    obtain ⟨rest, hrest⟩ | h := List.infix_cons_iff.mp h
    · obtain ⟨c, hc, hstart⟩ := ht
      have hhead := congrArg List.head? hrest
      rw [List.head?_append, Option.mem_def.mp hc] at hhead
      obtain rfl : c = b := Option.some.inj hhead
      exact absurd (hstart.symm.trans hb) Bool.false_ne_true
    · exact ih hbefore h

/-- What starts and ends with no white space does not reach into the white space around a string. -/
theorem Framed.infix_of_blank (ht : Framed t) (hbefore : Blank before) (hafter : Blank after)
    (h : t <:+: before ++ s ++ after) : t <:+: s := by
  rw [List.append_assoc] at h
  have hbehind := List.reverse_infix.mpr (infix_of_blank_append hbefore ht.starts h)
  -- what holds at the start holds at the end of the string read backwards
  rw [List.reverse_append] at hbehind
  have hreverse : Blank after.reverse := fun b hb => hafter b (List.mem_reverse.mp hb)
  have hends : ∃ b ∈ t.reverse.head?, isSpace b = false := by
    rw [List.head?_reverse]
    exact ht.ends
  exact List.reverse_infix.mp (infix_of_blank_append hreverse hends hbehind)

/-- **Trimming leaves the longest piece** that starts and ends with no white space. -/
theorem trims_trim (s : Bytes) : Trims s (trim s) := by
  obtain ⟨before, after, hbefore, hafter, hs⟩ := exists_trim s
  refine ⟨⟨before, after, hs.symm⟩, framed_trim s, fun piece hpiece hframed => ?_⟩
  rw [hs] at hpiece
  have hwithin := hframed.infix_of_blank hbefore hafter hpiece
  rcases Nat.eq_or_lt_of_le hwithin.length_le with heq | hlt
  · exact .inl (hwithin.eq_of_length heq)
  · exact .inr hlt

theorem trim_of_framed (h : Framed s) : trim s = s := by
  have htrims := trims_trim s
  rcases htrims.longest s List.infix_rfl h with heq | hlt
  · exact heq.symm
  · exact absurd htrims.isInfix.length_le (Nat.not_le_of_lt hlt)

theorem trim_trim (s : Bytes) : trim (trim s) = trim s := by
  rcases framed_trim s with hnil | h
  · rw [hnil]
    rfl
  · exact trim_of_framed h

theorem words_trim (s : Bytes) : words (trim s) = words s := by
  obtain ⟨before, after, hbefore, hafter, hs⟩ := exists_trim s
  conv_rhs => rw [hs, words_append_right hafter, words_append_left hbefore]

/-! ## Words with one space between neighbours -/

/-- Words apart by single spaces: no other white space, no two spaces next to each other, and none at
the ends. -/
structure Spaced (s : Bytes) : Prop where
  onlySpaces : ∀ b ∈ s, isSpace b = true → b = space
  single : ¬ [space, space] <:+: s
  starts : s.head? ≠ some space
  ends : s.getLast? ≠ some space

theorem Word.framed (h : Word word) : Framed word :=
  ⟨⟨word.head h.ne_nil, List.head?_eq_some_head h.ne_nil, h.solid _ (List.head_mem _)⟩,
    ⟨word.getLast h.ne_nil, List.getLast?_eq_some_getLast h.ne_nil, h.solid _ (List.getLast_mem _)⟩⟩

theorem Framed.append (hs : Framed s) (ht : Framed t) (between : Bytes) :
    Framed (s ++ between ++ t) := by
  obtain ⟨⟨b, hb, hstart⟩, -⟩ := hs
  obtain ⟨-, ⟨c, hc, hend⟩⟩ := ht
  refine ⟨⟨b, ?_, hstart⟩, ⟨c, ?_, hend⟩⟩
  · rw [List.append_assoc, List.head?_append, Option.mem_def.mp hb]
    rfl
  · rw [List.getLast?_append, Option.mem_def.mp hc]
    rfl

section Joined

variable {list : List Bytes}

theorem framed_intercalate (hne : list ≠ []) (h : ∀ word ∈ list, Word word) :
    Framed (List.intercalate [space] list) := by
  induction list with
  | nil => exact absurd rfl hne
  | cons word list ih =>
    obtain ⟨hword, hlist⟩ := List.forall_mem_cons.mp h
    cases list with
    | nil =>
      rw [List.intercalate_singleton]
      exact hword.framed
    | cons next list =>
      rw [List.intercalate_cons_cons]
      exact hword.framed.append (ih (List.cons_ne_nil _ _) hlist) [space]

/-- **Words that are joined by spaces are found again.** -/
theorem words_intercalate (h : ∀ word ∈ list, Word word) :
    words (List.intercalate [space] list) = list := by
  induction list with
  | nil => rfl
  | cons word list ih =>
    obtain ⟨hword, hlist⟩ := List.forall_mem_cons.mp h
    cases list with
    | nil => rw [List.intercalate_singleton, words_of_word hword]
    | cons next list =>
      rw [List.intercalate_cons_cons, List.append_assoc, List.singleton_append,
        words_append_cons (by decide), words_of_word hword, ih hlist]
      rfl

theorem split_intercalate (hne : list ≠ []) (h : ∀ word ∈ list, Word word) :
    split (List.intercalate [space] list) space = list :=
  List.splitOn_intercalate space (fun word hword => (h word hword).notMem (by decide)) hne

theorem eq_space_of_mem_intercalate (h : ∀ word ∈ list, Word word)
    (hmem : b ∈ List.intercalate [space] list) (hb : isSpace b = true) : b = space := by
  induction list with
  | nil => cases hmem
  | cons word list ih =>
    obtain ⟨hword, hlist⟩ := List.forall_mem_cons.mp h
    cases list with
    | nil =>
      rw [List.intercalate_singleton] at hmem
      exact absurd hmem (hword.notMem hb)
    | cons next list =>
      rw [List.intercalate_cons_cons, List.append_assoc, List.mem_append,
        or_iff_right (hword.notMem hb), List.singleton_append, List.mem_cons] at hmem
      exact hmem.elim id (ih hlist)

theorem nil_mem_split {d : UInt8} (h : [d, d] <:+: s) : [] ∈ split s d := by
  obtain ⟨u, v, rfl⟩ := h
  rw [List.append_assoc, show u ++ ([d, d] ++ v) = u ++ d :: ([] ++ d :: v) from rfl, split,
    List.splitOn_append_cons_self, List.splitOn_append_cons_self]
  exact List.mem_append_right _ List.mem_cons_self

theorem spaced_intercalate (h : ∀ word ∈ list, Word word) :
    Spaced (List.intercalate [space] list) := by
  by_cases hne : list = []
  · rw [hne, List.intercalate_nil]
    exact ⟨fun _ h => (nomatch h), fun h => (nomatch List.infix_nil.mp h), (nomatch ·), (nomatch ·)⟩
  · obtain ⟨⟨b, hb, hstart⟩, ⟨c, hc, hend⟩⟩ := framed_intercalate hne h
    have hother : ∀ {b}, isSpace b = false → b ≠ space := by
      rintro _ h rfl
      exact absurd h (by decide)
    refine ⟨fun b => eq_space_of_mem_intercalate h, fun hwithin => ?_, fun heq => ?_, fun heq => ?_⟩
    · have hnil := nil_mem_split hwithin
      rw [split_intercalate hne h] at hnil
      exact (h [] hnil).ne_nil rfl
    · exact hother hstart (Option.some.inj (hb.symm.trans heq))
    · exact hother hend (Option.some.inj (hc.symm.trans heq))

end Joined

theorem words_normalizeSpaces (s : Bytes) : words (normalizeSpaces s) = words s :=
  words_intercalate word_of_mem_words

theorem trim_normalizeSpaces (s : Bytes) : trim (normalizeSpaces s) = normalizeSpaces s := by
  by_cases hne : words s = []
  · rw [normalizeSpaces, hne]
    rfl
  · exact trim_of_framed (framed_intercalate hne word_of_mem_words)

theorem intercalate_append {separator : Bytes} {first behind : List Bytes} (hfirst : first ≠ [])
    (hbehind : behind ≠ []) : List.intercalate separator (first ++ behind) =
      List.intercalate separator first ++ separator ++ List.intercalate separator behind := by
  induction first with
  | nil => exact absurd rfl hfirst
  | cons word first ih =>
    cases first with
    | nil =>
      rw [List.intercalate_singleton, List.singleton_append,
        List.intercalate_cons_of_ne_nil hbehind]
    | cons next first =>
      have hne : next :: first ++ behind ≠ [] := List.cons_ne_nil _ _
      rw [List.cons_append, List.intercalate_cons_of_ne_nil hne, ih (List.cons_ne_nil _ _),
        List.intercalate_cons_cons]
      simp only [List.append_assoc]

/-- White space between two strings that have words is one space between what is left of them. -/
theorem normalizeSpaces_append (hs : ¬ Blank s) (ht : ¬ Blank t) {between : Bytes}
    (hne : between ≠ []) (hbetween : Blank between) :
    normalizeSpaces (s ++ between ++ t) = normalizeSpaces s ++ [space] ++ normalizeSpaces t := by
  obtain ⟨b, between, rfl⟩ := List.exists_cons_of_ne_nil hne
  obtain ⟨hb, hbetween⟩ := List.forall_mem_cons.mp hbetween
  have hwords : words (s ++ b :: between ++ t) = words s ++ words t := by
    rw [List.append_assoc, List.cons_append, words_append_cons hb, words_append_left hbetween]
  rw [normalizeSpaces, hwords, intercalate_append (mt words_eq_nil_iff.mp hs)
    (mt words_eq_nil_iff.mp ht)]
  rfl

/-- **What normalizing and trimming leave.** Normalizing leaves the maximal runs of a string without
white space, in order and with one space between neighbours; trimming leaves the longest piece that
starts and ends with no white space. Neither changes what either has left, and white space between two
strings with words becomes one space. -/
theorem normalizeSpaces_runs (s : Bytes) :
    Spaced (normalizeSpaces s) ∧
    (∃ runs, Runs s runs ∧ normalizeSpaces s = join (runs.map Prod.snd) space ∧
      (runs ≠ [] → split (normalizeSpaces s) space = runs.map Prod.snd)) ∧
    normalizeSpaces (normalizeSpaces s) = normalizeSpaces s ∧
    normalizeSpaces (trim s) = normalizeSpaces s ∧ trim (normalizeSpaces s) = normalizeSpaces s ∧
    Trims s (trim s) ∧ trim (trim s) = trim s ∧
    ∀ a w b : Bytes, (∃ x ∈ a, isSpace x = false) → (∃ x ∈ b, isSpace x = false) → w ≠ [] → Blank w →
      normalizeSpaces (a ++ w ++ b) = normalizeSpaces a ++ [space] ++ normalizeSpaces b := by
  have hword : ∀ {s : Bytes}, (∃ x ∈ s, isSpace x = false) → ¬ Blank s := by
    rintro s ⟨x, hx, hsolid⟩ hblank
    exact Bool.false_ne_true (hsolid.symm.trans (hblank x hx))
  obtain ⟨runs, hruns, hwords⟩ := exists_runs s
  refine ⟨spaced_intercalate word_of_mem_words, ⟨runs, hruns, ?_, fun hne => ?_⟩, ?_, ?_,
    trim_normalizeSpaces s, trims_trim s, trim_trim s,
    fun a w b ha hb hne hw => normalizeSpaces_append (hword ha) (hword hb) hne hw⟩
  · rw [hwords]
    rfl
  · rw [hwords]
    refine split_intercalate ?_ word_of_mem_words
    rw [← hwords]
    simpa using hne
  · rw [normalizeSpaces, words_normalizeSpaces]
    rfl
  · rw [normalizeSpaces, words_trim]
    rfl

/-- White space of all kinds between two strings that have some of their own at the ends. -/
theorem normalizeSpaces_runs_between :
    (∃ x ∈ ascii " a\tb ", isSpace x = false) ∧ (∃ x ∈ ascii "\nc", isSpace x = false) ∧
    ascii "\r\n \t" ≠ [] ∧ Blank (ascii "\r\n \t") ∧
    normalizeSpaces (ascii " a\tb " ++ ascii "\r\n \t" ++ ascii "\nc") =
      normalizeSpaces (ascii " a\tb ") ++ [space] ++ normalizeSpaces (ascii "\nc") ∧
    normalizeSpaces (ascii " a\tb ") ++ [space] ++ normalizeSpaces (ascii "\nc") = ascii "a b c" := by
  have ha : ∃ x ∈ ascii " a\tb ", isSpace x = false := by decide
  have hb : ∃ x ∈ ascii "\nc", isSpace x = false := by decide
  have hne : ascii "\r\n \t" ≠ [] := by decide
  have hw : Blank (ascii "\r\n \t") := List.all_eq_true.mp (by decide)
  obtain ⟨-, -, -, -, -, -, -, hbetween⟩ := normalizeSpaces_runs (ascii " a\tb ")
  exact ⟨ha, hb, hne, hw, hbetween _ _ _ ha hb hne hw, by decide⟩

end Bytework.Bytes
