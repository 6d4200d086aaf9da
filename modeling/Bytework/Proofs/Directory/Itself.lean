import Bytework.Proofs.Directory.Removed
import Bytework.Proofs.Volume.Resolved

/-!
# Copies onto themselves

What copying leaves of a tree whose own place is where it is copied to. A directory is refused if the text of
the paths tells it; a copy that is made truncates each file before it reads it, and takes a link away before
it reads where it leads.

* `Worn`: all is there, but some files are empty; `Lacks`: and a link is gone; `Drained`: every file is empty.
* `ends_copyEntry_itself`: an entry copied onto itself.
* **`copyRecursive_itself`**: what is refused, and what is lost if it is not.
-/

namespace Bytework

open Bytework.Action Directory

namespace Path

variable {p : Path}

theorem names_trimmed (p : Path) : p.trimmed.names = p.names := by
  rw [trimmed, names_ofSegments fun s hs => notMem_of_mem_segments s (mem_of_mem_trimSegments s hs),
    filter_trimSegments, names]

theorem isAbsolute_trimmed (p : Path) : p.trimmed.isAbsolute = p.isAbsolute := by
  rw [trimmed]
  cases ha : p.isAbsolute with
  | true => rfl
  | false =>
    cases p with
    | nil => rfl
    | cons c p => exact (opens_segments ha (List.cons_ne_nil c p)).trimSegments.isAbsolute_ofSegments

theorem trimmed_eq_nil : p.trimmed = [] ↔ p = [] := by
  refine ⟨fun h => ?_, fun h => by rw [h]; rfl⟩
  by_contra hne
  cases ha : p.isAbsolute with
  | true => simp [trimmed, ofSegments, ha] at h
  | false =>
    -- a relative path that is not empty starts with a segment that is not, and this one stays
    have hopens := opens_segments ha hne
    cases hs : p.segments with
    | nil => exact absurd hs (List.splitOn_ne_nil _ _)
    | cons s ss =>
      obtain ⟨c, t, rfl, -⟩ := hopens s (by rw [hs]; rfl)
      rw [trimmed, ha, hs, trimSegments] at h
      cases hrest : (ss.reverse.dropWhile isIdle).reverse <;> simp [ofSegments, hrest, List.intercalate] at h

theorem asksDirectory_trimmed (p : Path) : p.trimmed.asksDirectory = false :=
  asksDirectory_ofSegments_trimSegments notMem_of_mem_segments (isAbsolute_trimmed p)

theorem startsWith_self (p : Path) : p.startsWith p :=
  List.isPrefixOf_iff_prefix.mpr (List.prefix_refl _)

end Path

namespace Volume

variable {v v' v'' : Volume} {place goal w : Place} {object : Object} {p q target : Path} {follow : Bool} {bytes : Nat}
  {change : Object → Object}

theorem asks_trimmed (p : Path) : v.asks p.trimmed = false := by
  rw [asks, Path.asksDirectory_trimmed, Bool.and_false]

theorem isEmpty_trimmed (p : Path) : p.trimmed.isEmpty = p.isEmpty := by
  rw [Bool.eq_iff_iff, List.isEmpty_iff, List.isEmpty_iff, Path.trimmed_eq_nil]

/-- All that stands in a volume stands in another one, but some files at or below a place are empty. -/
structure Worn (v : Volume) (place : Place) (v' : Volume) : Prop where
  sound : v.Sound → v'.Sound
  cwd : v'.cwd = v.cwd
  rules : v'.rules = v.rules
  number : ∀ w, v'.number? w = v.number? w
  object : ∀ w object, v.object? w = some object → v'.object? w = some object ∨
    object.content.type = .file ∧ (∃ w', place <+: w' ∧ v.number? w' = v.number? w) ∧
      (v'.object? w).map (·.content) = some (.file [])

/-- Some files at or below a place are empty, and a link there is gone. -/
def Lacks (v : Volume) (place : Place) (v' : Volume) : Prop :=
  ∃ v₁ link target, v.Worn place v₁ ∧ place <+: link ∧ v.Links link target ∧ v' = v₁.drop link

/-- At a place and below stands no link, and every file there has come to be empty. -/
def Drained (v : Volume) (place : Place) (v' : Volume) : Prop :=
  ∀ w object, place <+: w → v.object? w = some object → (∀ target, object.content ≠ .symlink target) ∧
    (object.content.type = .file → (v'.object? w).map (·.content) = some (.file []))

namespace Worn

theorem refl (v : Volume) (place : Place) : v.Worn place v := ⟨id, rfl, rfl, fun _ => rfl, fun _ _ => .inl⟩

/-- What stood at a place is seen there still, apart from the data of a file. -/
theorem exists_object? (h : v.Worn place v') (ho : v.object? w = some object) :
    ∃ object', v'.object? w = some object' ∧ object'.content.outline = object.content.outline := by
  rcases h.object w object ho with ho' | ⟨hfile, -, hempty⟩
  · exact ⟨object, ho', rfl⟩
  · obtain ⟨object', ho', hc⟩ := Option.map_eq_some_iff.mp hempty
    refine ⟨object', ho', ?_⟩
    rw [hc]
    cases hcontent : object.content with
    | file => rfl
    | _ => rw [hcontent] at hfile; exact absurd hfile (by simp [Content.type])

theorem trans (h : v.Worn place v') (h' : v'.Worn place v'') : v.Worn place v'' where
  sound := h'.sound ∘ h.sound
  cwd := h'.cwd.trans h.cwd
  rules := h'.rules.trans h.rules
  number w := (h'.number w).trans (h.number w)
  object w object ho := by
    rcases h.object w object ho with ho' | ⟨hfile, hwithin, hempty⟩
    · refine (h'.object w object ho').imp_right fun ⟨hfile, ⟨w', hw', hn⟩, hempty⟩ =>
        ⟨hfile, ⟨w', hw', ?_⟩, hempty⟩
      rwa [h.number, h.number] at hn
    · obtain ⟨object', ho', hc⟩ := Option.map_eq_some_iff.mp hempty
      refine .inr ⟨hfile, hwithin, ?_⟩
      rcases h'.object w object' ho' with ho'' | ⟨-, -, hempty'⟩
      · rw [ho'', Option.map_some, hc]
      · exact hempty'

theorem mono (h : v.Worn w v') (hw : place <+: w) : v.Worn place v' :=
  ⟨h.sound, h.cwd, h.rules, h.number, fun w' object ho => (h.object w' object ho).imp_right
    fun ⟨hfile, ⟨below, hb, hn⟩, hempty⟩ => ⟨hfile, ⟨below, hw.trans hb, hn⟩, hempty⟩⟩

theorem links (h : v.Worn place v') (hs : v.Sound) (hl : v'.Links w target) : v.Links w target := by
  obtain ⟨object', ho', hc⟩ := hl
  obtain ⟨number, hn, -⟩ := object?_eq_some.mp ho'
  have hstands : (v.number? w).isSome := by rw [← h.number, hn]; rfl
  obtain ⟨object, ho⟩ := hs.isSome_object? hstands
  obtain ⟨object'', ho'', hout⟩ := h.exists_object? ho
  obtain rfl := Option.some.inj (ho'.symm.trans ho'')
  rw [hc] at hout
  exact ⟨object, ho, Content.outline_eq_symlink.mp hout.symm⟩

theorem agrees (h : v.Worn place v') (hs : v.Sound) : Agrees (fun _ => False) v v' where
  cwd := h.cwd
  rules := h.rules
  seen w _ hstands := by
    obtain ⟨object, ho⟩ := hs.isSome_object? (Option.isSome_iff_ne_none.mpr hstands)
    obtain ⟨object', ho', hout⟩ := h.exists_object? ho
    rw [seen_of_object? ho, seen_of_object? ho']
    exact congrArg some hout

theorem reach (h : v.Worn place v') (hs : v.Sound) (hr : v.reach follow p = .ok goal) (hstands : ¬ v.Vacant goal) :
    v'.reach follow p = .ok goal :=
  reach_agrees (h.agrees hs) hs (h.sound hs) (fun _ => id) id id hstands
    ((leads_of_reach hs hr).mono fun _ => False.elim) hr

theorem content_eq_empty (h : v.Worn place v') (he : (v.object? w).map (·.content) = some (.file [])) :
    (v'.object? w).map (·.content) = some (.file []) := by
  obtain ⟨object, ho, hc⟩ := Option.map_eq_some_iff.mp he
  rcases h.object w object ho with ho' | ⟨-, -, hempty⟩
  · rw [ho', Option.map_some, hc]
  · exact hempty

end Worn

namespace Drained

theorem worn (h : v.Drained w v') (hw : v'.Worn place v'') : v.Drained w v'' := fun w' object hw' ho =>
  (h w' object hw' ho).imp_right fun hfile ht => hw.content_eq_empty (hfile ht)

theorem of_worn (hw : v.Worn place v') (h : v'.Drained w v'') : v.Drained w v'' := by
  intro w' object hw' ho
  obtain ⟨object', ho', hout⟩ := hw.exists_object? ho
  refine (h w' object' hw' ho').imp (fun hlink target hc => hlink target ?_) fun hfile ht => hfile ?_
  · rw [hc] at hout
    exact Content.outline_eq_symlink.mp hout
  · rw [← Content.type_outline, hout, Content.type_outline, ht]

/-- What is no directory has nothing below it. -/
theorem of_leaf (hs : v.Sound) (ho : v.object? place = some object) (hd : object.content ≠ .directory)
    (hl : ∀ target, object.content ≠ .symlink target)
    (he : object.content.type = .file → (v'.object? place).map (·.content) = some (.file [])) :
    v.Drained place v' := by
  rintro _ object' ⟨below, rfl⟩ ho'
  obtain rfl : below = [] := by
    by_contra hne
    have hdir := hs.isDirectory_of_append hne (Option.isSome_iff_ne_none.mpr (not_vacant_of_object? ho'))
    exact hd (passable_of_isDirectory hdir object ho)
  rw [List.append_nil] at ho' ⊢
  obtain rfl := Option.some.inj (ho.symm.trans ho')
  exact ⟨hl, he⟩

/-- A directory is drained with all that is in it. -/
theorem of_names (hd : v.isDirectory place) (h : ∀ name ∈ v.names place, v.Drained (place ++ [name]) v') :
    v.Drained place v' := by
  rintro _ object ⟨below, rfl⟩ ho
  rcases below with _ | ⟨name, below⟩
  · rw [List.append_nil] at ho
    have hc := passable_of_isDirectory hd object ho
    exact ⟨by simp [hc], by simp [hc, Content.type]⟩
  · have hpre : place ++ [name] <+: place ++ name :: below := ⟨below, by simp⟩
    have hstands := Option.isSome_iff_ne_none.mpr (not_vacant_of_object? ho)
    exact h name (mem_names.mpr (isSome_number?_of_isPrefix hpre hstands)) _ object hpre ho

end Drained

/-- A file that is made empty. -/
theorem worn_alter (ho : v.object? place = some object) (hfile : object.content.type = .file)
    (hout : ∀ object, (change object).content.outline = object.content.outline)
    (hempty : (change object).content = .file []) : v.Worn place (v.alter place change) where
  sound hs := hs.alter hout
  cwd := by
    unfold alter
    split <;> rfl
  rules := rules_alter v place change
  number w := number?_alter v place change w
  object w other how := by
    obtain ⟨number, hn, hobject⟩ := object?_eq_some.mp ho
    obtain ⟨number', hn', hother⟩ := object?_eq_some.mp how
    rw [Volume.object?, number?_alter, hn', Option.bind_some, getElem?_alter hn]
    split
    case isTrue he =>
      rw [he] at hn' hother ⊢
      obtain rfl := Option.some.inj (hobject.symm.trans hother)
      refine .inr ⟨hfile, ⟨place, List.prefix_refl _, hn⟩, ?_⟩
      rw [hother, Option.map_some, Option.map_some, hempty]
    case isFalse => exact .inl hother

/-- A file is truncated before it is read, so it is empty when it has been copied onto itself. -/
theorem worn_of_copyFile (hs : v.Sound) (hp : v.reach true p = .ok place) (hq : v.reach true q = .ok place)
    (ho : v.object? place = some object) (hfile : object.content.type = .file)
    (h : v.copyFile p q = .ok (bytes, v')) :
    v.Worn place v' ∧ (v'.object? place).map (·.content) = some (.file []) := by
  obtain ⟨⟨source, object₁⟩, hf, h⟩ := exists_of_bind_eq_ok h
  obtain ⟨hr, ho₁⟩ := find_eq_ok.mp hf
  obtain rfl := Except.ok.inj (hp.symm.trans hr)
  obtain rfl := Option.some.inj (ho.symm.trans ho₁)
  simp only [hfile, ne_eq, not_true, if_false] at h
  obtain ⟨place', hplace, h⟩ := exists_of_bind_eq_ok h
  obtain rfl := Except.ok.inj (hq.symm.trans (reach_of_destination hs hplace))
  obtain ⟨v₁, ht, h⟩ := exists_of_bind_eq_ok h
  have hd : object.content ≠ .directory := fun hc => by simp [hc, Content.type] at hfile
  have hsocket : (object.content == .special .socket) = false :=
    beq_eq_false_iff_ne.mpr fun hc => by simp [hc, Content.type] at hfile
  rw [truncate, ho] at ht
  simp only [hd, hsocket, Bool.and_false, Bool.false_eq_true, if_false] at ht
  obtain rfl := Except.ok.inj ht
  obtain ⟨-, rfl⟩ := Prod.mk.inj (Except.ok.inj h)
  have hfilled : object.content.filled [] = .file [] := by
    cases hcontent : object.content <;> simp_all [Content.filled, Content.type]
  set v₁ := v.alter place fun object => { object with content := object.content.filled [] } with hv₁
  have hworn : v.Worn place v₁ := worn_alter ho hfile (fun _ => Content.outline_filled _ _) hfilled
  have hcopy : v₁.object? place = some { object with content := .file [] } := by
    rw [hv₁, object?_alter_self, ho, Option.map_some, hfilled]
  have hrewrites : v₁.rewrites { object with content := .file [] } := by simp [rewrites, Content.type]
  rw [hcopy, Option.getD_some]
  refine ⟨hworn.trans (worn_alter hcopy rfl (fun old => ?_) ?_), ?_⟩
  · split
    · exact Content.outline_filled _ _
    · rfl
  · rw [if_pos hrewrites]
    rfl
  · rw [object?_alter_self, hcopy, Option.map_some, Option.map_some, if_pos hrewrites]
    rfl

end Volume

namespace Directory

open Volume

variable {v v' : Volume} {place goal : Place} {object : Object} {p source target : Path} {entry : Entry} {levels : Nat}

/-! ## Calls that find what is there -/

theorem apply_isSymlink (hr : v.reach false p = .ok place) (ho : v.object? place = some object) :
    (isSymlink platform p).apply v = (.ok (object.entry p).isSymlink, v) := by
  rw [isSymlink, Action.succeeds, apply_bind_ok (apply_outcome (apply_lstat hr ho))]
  rfl

theorem apply_unlinkSymlink (hr : v.reach false p = .ok place) (ho : v.object? place = some object)
    (hl : ∀ target, ¬ v.Links place target) : (unlinkSymlink platform p).apply v = (.ok (), v) := by
  have hlinked : (object.entry p).isSymlink = false := by
    rw [Bool.eq_false_iff]
    exact fun h => ((exists_links_iff ho rfl).mpr h).elim hl
  rw [unlinkSymlink, apply_bind_ok (apply_isSymlink hr ho), hlinked]
  rfl

theorem apply_stat_directory (hr : v.reach true p = .ok place) (hd : v.isDirectory place) :
    ∃ entry : Entry, entry.isDirectory ∧ (platform.stat p).apply v = (.ok entry, v) := by
  obtain ⟨object, ho, hc⟩ := isDirectory_iff.mp hd
  refine ⟨object.entry p, (isDirectory_of_type rfl).mpr hc, ?_⟩
  rw [apply_stat, stat_eq_ok.mpr ⟨place, object, hr, ho, rfl⟩]
  rfl

/-- At a directory nothing is missing. -/
theorem apply_missing (hr : v.reach true p = .ok place) (hd : v.isDirectory place) (n : Nat) :
    (missing platform n p).apply v = (.ok [], v) := by
  obtain ⟨entry, hdir, hstat⟩ := apply_stat_directory hr hd
  have hempty := isEmpty_of_reach hr
  cases n with
  | zero => rfl
  | succ n =>
    rw [missing, hempty, if_neg Bool.false_ne_true, apply_bind_ok (apply_outcome hstat)]
    simp only [hdir, if_true]
    rfl

theorem apply_create (hr : v.reach true p = .ok place) (hd : v.isDirectory place) :
    (create platform p).apply v = (.ok (), v) := by
  have hempty := isEmpty_of_reach hr
  rw [create, hempty, if_neg Bool.false_ne_true, apply_bind_ok (apply_missing hr hd _)]
  rfl

/-! ## Entries -/

/-- What a copy of something onto itself leaves: all but the data of its files. At a link it ends early, and
without the link. -/
theorem ends_copyEntry_itself (hs : v.Sound) (hsource : v.reach false entry.path = .ok place)
    (htarget : v.reach false p = .ok place) (ho : v.object? place = some object)
    (ht : entry.type = object.content.type) :
    (copyEntry platform levels entry p).Ends v (fun _ v' => v.Worn place v' ∧ v.Drained place v')
      fun _ v' => v.Worn place v' ∨ v.Lacks place v' := by
  induction levels generalizing v entry p place object with
  | zero => exact Ends.throw (.inl (.refl v place))
  | succ levels ih =>
    have hstands := not_vacant_of_object? ho
    have hunlinked (hne : ∀ target, object.content ≠ .symlink target) (target : Path) :
        ¬ v.Links place target := by
      rintro ⟨object', ho', hc⟩
      obtain rfl := Option.some.inj (ho.symm.trans ho')
      exact hne target hc
    rw [copyEntry]
    cases hc : object.content with
    | directory =>
      have hl := hunlinked (by simp [hc])
      have hd : v.isDirectory place := isDirectory_iff.mpr ⟨object, ho, hc⟩
      have hsource' := reach_followed hs hsource hl
      have htarget' := reach_followed hs htarget hl
      refine Ends.after (apply_unlinkSymlink htarget ho hl) ?_
      simp only [ht, hc, Content.type]
      refine Ends.after (apply_create htarget' hd) ?_
      refine (ends_children falters_platform hs).andThen (fun _ v' hstill => ?_) ?_
      · obtain rfl : v' = v := hstill.1
        exact .inl (.refl _ place)
      rintro entries v₁ ⟨hstill, directory, hreach, -, hall⟩
      obtain rfl : v₁ = v := hstill.1
      obtain rfl := Except.ok.inj (hsource'.symm.trans hreach)
      refine (Ends.forM₂ (fun done v' => v₁.Worn place v' ∧ ∀ name ∈ done, v₁.Drained (place ++ [name]) v')
        hall ⟨.refl v₁ place, by simp⟩ ?_).mono (fun _ _ hend => ⟨hend.1, .of_names hd hend.2⟩)
        fun _ _ hend => hend
      rintro done child name rest v' - hchild ⟨hworn, hdone⟩
      obtain ⟨object', ho', ht'⟩ := hchild.object
      have hchildStands := not_vacant_of_object? ho'
      obtain ⟨object'', ho'', hout⟩ := hworn.exists_object? ho'
      have ht'' : child.type = object''.content.type := by
        rw [ht', ← Content.type_outline, ← hout, Content.type_outline]
      have hreach' := hworn.reach hs (reach_join hs hsource' hd ho') hchildStands
      have hreach'' := hworn.reach hs (reach_join hs htarget' hd ho') hchildStands
      rw [hchild.childOf]
      rw [← hchild.path] at hreach'
      have hbelow : place <+: place ++ [name] := List.prefix_append _ _
      refine (ih (hworn.sound hs) hreach' hreach'' ho'' ht'').mono (fun _ v'' hend => ?_) fun _ v'' hend => ?_
      · have hworn' := hend.1.mono hbelow
        refine ⟨hworn.trans hworn', ?_⟩
        rw [List.forall_mem_append, List.forall_mem_singleton]
        exact ⟨fun name hname => (hdone name hname).worn hworn', .of_worn hworn hend.2⟩
      · refine hend.imp (fun hend => hworn.trans (hend.mono hbelow)) ?_
        rintro ⟨v₂, link, target, hworn', hlink, hl', rfl⟩
        exact ⟨v₂, link, target, hworn.trans (hworn'.mono hbelow), hbelow.trans hlink, hworn.links hs hl', rfl⟩
    | symlink target =>
      have hl : v.Links place target := ⟨object, ho, hc⟩
      have hne : place ≠ [] := by
        rintro rfl
        exact hl.not_passable (passable_of_isDirectory hs.root)
      have hunlink : (unlinkSymlink platform p).Ends v (fun _ v' => v' = v.drop place) fun _ v' => v' = v := by
        refine Ends.after (apply_isSymlink htarget ho) ?_
        rw [(exists_links_iff ho rfl).mp ⟨target, hl⟩]
        refine (ends_update _ _ v).mono (fun _ v' hun => ?_) fun _ _ he => he
        obtain ⟨goal, hreach, -, -, rfl⟩ := removes_of_unlink hs hun
        rw [Except.ok.inj (htarget.symm.trans hreach)]
      refine hunlink.andThen (fun _ v' he => ?_) ?_
      · subst he
        exact .inl (.refl _ place)
      rintro - v₁ hdrop
      simp only [ht, hc, Content.type]
      -- the link is gone by the time at which it is read
      obtain ⟨hbounded, hthin, hvacant⟩ :
          Bounded (place <+: ·) (fun _ => False) v v₁ ∧ Thinned v v₁ ∧ v₁.Vacant place := by
        rw [hdrop]
        exact bounded_drop_of_ne_nil hne
      refine (ends_ask _ _ v₁).andThen (fun _ v₂ he => ?_) ?_
      · rw [he.1]
        exact .inr ⟨v, place, target, .refl v place, List.prefix_refl _, hl, hdrop⟩
      rintro destination v₂ ⟨-, hread⟩
      obtain ⟨goal, hreach, hl'⟩ := readlink_eq_ok hread
      obtain ⟨object', ho', -⟩ := hl'
      have hgoal := hthin.leads (hbounded.sound hs) hbounded.cwd hbounded.rules hreach (not_vacant_of_object? ho')
      obtain rfl := (leads_of_reach hs hsource).unique hgoal
      exact absurd hvacant (not_vacant_of_object? ho')
    | file data =>
      have hl := hunlinked (by simp [hc])
      refine Ends.after (apply_unlinkSymlink htarget ho hl) ?_
      simp only [ht, hc, Content.type]
      refine Ends.bind ((ends_perform _ _ v).mono (fun _ v' hcopy => ?_) fun _ v' he => ?_)
        fun _ _ hend => Ends.pure hend
      · obtain ⟨hworn, hempty⟩ := worn_of_copyFile hs (reach_followed hs hsource hl) (reach_followed hs htarget hl) ho
          (by rw [hc, Content.type]) hcopy
        exact ⟨hworn, .of_leaf hs ho (by simp [hc]) (by simp [hc]) fun _ => hempty⟩
      · exact .inl (he ▸ .refl v place)
    | special kind =>
      refine Ends.after (apply_unlinkSymlink htarget ho (hunlinked (by simp [hc]))) ?_
      simp only [ht, hc, Content.type]
      exact Ends.pure ⟨.refl v place, .of_leaf hs ho (by simp [hc]) (by simp [hc]) (by simp [hc, Content.type])⟩

/-! ## What a path names -/

/-- Whether the text of a path places it at or below another one. -/
def liesWithin (v : Volume) (p top : Path) : Bool :=
  (v.cwd.join p).normalize.startsWith (v.cwd.join top).normalize

theorem liesWithin_self (v : Volume) (p : Path) : liesWithin v p p := Path.startsWith_self _

theorem apply_isWithin (v : Volume) (p top : Path) :
    (isWithin platform p top).apply v = (.ok (liesWithin v p top), v) := rfl

theorem apply_copyRecursive_liesWithin (hr : v.reach false source = .ok place) (hd : v.isDirectory place)
    (hw : liesWithin v target source) :
    (copyRecursive platform source target).apply v = (.error (.intoItself source target), v) := by
  obtain ⟨object, ho, hc⟩ := isDirectory_iff.mp hd
  have hdir : (object.entry source).isDirectory := (isDirectory_of_type rfl).mpr hc
  rw [copyRecursive, apply_bind_ok (apply_lstat hr ho), if_pos hdir, apply_bind_ok (apply_isWithin v target source), hw]
  rfl

theorem ends_copyRecursive_itself (hs : v.Sound) (hsource : v.reach false source = .ok place)
    (htarget : v.reach false target = .ok place) (hstands : ¬ v.Vacant place) :
    (copyRecursive platform source target).Ends v (fun _ v' => v.Worn place v' ∧ v.Drained place v')
      fun _ v' => v.Worn place v' ∨ v.Lacks place v' := by
  obtain ⟨object, ho⟩ := hs.isSome_object? (Option.isSome_iff_ne_none.mpr hstands)
  refine ends_copyRecursive_of falters_platform (fun _ v' hstill => ?_) fun entry v' levels hstill hstat => ?_
  · obtain rfl : v' = v := hstill.1
    exact .inl (.refl v' place)
  · obtain rfl : v' = v := hstill.1
    obtain ⟨goal, object', hr, ho', rfl⟩ := stat_eq_ok.mp hstat
    obtain rfl := Except.ok.inj (hsource.symm.trans hr)
    exact ends_copyEntry_itself hs hsource htarget ho' rfl

/-- What copying something onto itself comes to, and a backup without a suffix. A directory is refused if the text
of the paths places the copy in it, and then nothing is done. Otherwise every entry stays, and of what stands there
only the data of files is lost: a copy that succeeds has emptied every file at the place and below, and has met no
link; one that fails may have taken a link away. A backup takes its path without slashes at the end, and so may
name a link to what the path names. -/
theorem copyRecursive_itself (hs : v.Sound) (hsource : v.reach false source = .ok place)
    (htarget : v.reach false target = .ok place) (hstands : ¬ v.Vacant place) :
    (v.isDirectory place → liesWithin v target source →
      (copyRecursive platform source target).apply v = (.error (.intoItself source target), v)) ∧
    (copyRecursive platform source target).Ends v (fun _ v' => v.Worn place v' ∧ v.Drained place v')
      (fun _ v' => v.Worn place v' ∨ v.Lacks place v') ∧
    ∃ named, v.reach false source.trimmed = .ok named ∧ ¬ v.Vacant named ∧
      (v.isDirectory named →
        (backup platform source []).apply v = (.error (.intoItself source.trimmed source.trimmed), v)) ∧
      (backup platform source []).Ends v (fun _ v' => v.Worn named v' ∧ v.Drained named v')
        (fun _ v' => v.Worn named v' ∨ v.Lacks named v') := by
  obtain ⟨named, hnamed, hstands'⟩ := exists_reach_of_names hs (Path.names_trimmed source)
    (Path.isAbsolute_trimmed source) (isEmpty_trimmed source) (asks_trimmed source) hsource hstands
  have hbackup : backup platform source [] = (do
      copyRecursive platform source.trimmed source.trimmed
      return source.trimmed) := by
    rw [backup, isEmpty_of_reach hnamed, if_neg Bool.false_ne_true, List.append_nil]
  refine ⟨fun hd hw => apply_copyRecursive_liesWithin hsource hd hw,
    ends_copyRecursive_itself hs hsource htarget hstands, named, hnamed, hstands', fun hd => ?_, ?_⟩
  · rw [hbackup]
    exact apply_bind_error (apply_copyRecursive_liesWithin hnamed hd (liesWithin_self v _))
  · rw [hbackup]
    exact (ends_copyRecursive_itself hs hnamed hnamed hstands').bind fun _ _ hend => Ends.pure hend

/-- A file, a link, and a directory with a file and a link in it, which a link to the root gives a second path. -/
def looped : Volume :=
  grown [(placeOf ["f"], .file [0x78]), (placeOf ["k"], .symlink "/".toList), (placeOf ["l"], .symlink "/x".toList),
    (placeOf ["src"], .directory), (placeOf ["src", "f"], .file [0x79]), (placeOf ["src", "l"], .symlink "f".toList)]

theorem sound_looped : looped.Sound := sound_grown (by decide +kernel)

theorem copyRecursive_itself_looped :
    (looped.Sound ∧ looped.reach false "/src".toList = .ok (placeOf ["src"]) ∧
      looped.reach false "/k/src".toList = .ok (placeOf ["src"]) ∧ ¬ looped.Vacant (placeOf ["src"])) ∧
    (looped.isDirectory (placeOf ["src"]) → liesWithin looped "/k/src".toList "/src".toList →
      (copyRecursive platform "/src".toList "/k/src".toList).apply looped =
        (.error (.intoItself "/src".toList "/k/src".toList), looped)) ∧
    (copyRecursive platform "/src".toList "/k/src".toList).Ends looped (fun _ v' =>
        looped.Worn (placeOf ["src"]) v' ∧ looped.Drained (placeOf ["src"]) v')
      (fun _ v' => looped.Worn (placeOf ["src"]) v' ∨ looped.Lacks (placeOf ["src"]) v') ∧
    ∃ named, looped.reach false "/src".toList = .ok named ∧ ¬ looped.Vacant named ∧
      (looped.isDirectory named → (backup platform "/src".toList []).apply looped =
        (.error (.intoItself "/src".toList "/src".toList), looped)) ∧
      (backup platform "/src".toList []).Ends looped (fun _ v' => looped.Worn named v' ∧ looped.Drained named v')
        (fun _ v' => looped.Worn named v' ∨ looped.Lacks named v') := by
  have hsource : looped.reach false "/src".toList = .ok (placeOf ["src"]) := by decide +kernel
  have htarget : looped.reach false "/k/src".toList = .ok (placeOf ["src"]) := by decide +kernel
  have hstands : ¬ looped.Vacant (placeOf ["src"]) :=
    not_vacant_of_isDirectory (by decide +kernel)
  exact ⟨⟨sound_looped, hsource, htarget, hstands⟩, copyRecursive_itself sound_looped hsource htarget hstands⟩

/-- A file copied onto itself is empty, and a link is gone, also in a directory whose second path has another
text, and by a backup without a suffix. -/
theorem copyRecursive_itself_loses :
    (looped.object? (placeOf ["f"]) = some (.new (.file [0x78]) 0o755) ∧
      ((copyRecursive platform "/f".toList "/f".toList).apply looped).1 = .ok () ∧
      ((copyRecursive platform "/f".toList "/f".toList).apply looped).2.object? (placeOf ["f"]) =
        some (.new (.file []) 0o755)) ∧
    (looped.object? (placeOf ["l"]) = some (.new (.symlink "/x".toList) 0o755) ∧
      ((copyRecursive platform "/l".toList "/l".toList).apply looped).1 =
        .error (.system (.readlink "/l".toList) .noEntry) ∧
      ((copyRecursive platform "/l".toList "/l".toList).apply looped).2.object? (placeOf ["l"]) = none) ∧
    (looped.reach false "/k/src".toList = looped.reach false "/src".toList ∧
      ((copyRecursive platform "/src".toList "/k/src".toList).apply looped).2.object? (placeOf ["src", "f"]) =
        some (.new (.file []) 0o755) ∧
      ((copyRecursive platform "/src".toList "/k/src".toList).apply looped).2.object? (placeOf ["src", "l"]) = none) ∧
    ((backup platform "/f".toList []).apply looped).1 = .ok "/f".toList ∧
      ((backup platform "/f".toList []).apply looped).2.object? (placeOf ["f"]) = some (.new (.file []) 0o755) := by
  decide +kernel

end Directory

end Bytework
