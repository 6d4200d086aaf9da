import Bytework.Proofs.Directory.Finite
import Bytework.Proofs.Volume.Grown
import Bytework.Proofs.Volume.Tethered

/-!
# Directories that do not feed each other

When `sync` comes to an end. The second directory is made before the first one is read, so a tree is read that may
grow while it is copied; and a link that is copied may change where the paths lead.

* `Steady`: two directories, the second one not in the first, whose paths stay the same; `steady_of_names`.
* `Working`: what holds all the time below two such directories.
* `ends_copyEntry_leaf`, **`ends_syncTree_working`**: work on a name, and on a tree.
* **`sync_ne_endless`**: bringing a directory up to date comes to an end.
-/

namespace Bytework

open Bytework.Action Directory

namespace Volume

variable {v v' : Volume} {within : Place → Prop} {origin top below rest : Place} {height : Nat}
  {source target p q : Path} {name : Name}

/-- Two directories of which the second one is not below the first. Neither path passes what is below the second one,
except that the first path may go down to the first directory. If that is below the second one, it has no links in it.
-/
structure Steady (v : Volume) (source : Path) (origin : Place) (target : Path) (top : Place) : Prop where
  sourceLeads : v.Leads (fun w => Beneath top w ∧ ¬ w <+: origin) true source origin
  targetLeads : v.Leads (Beneath top) true target top
  notBelow : origin <+: top → top = origin
  clean : top <+: origin → top ≠ origin → ∀ below target, ¬ v.Links (origin ++ below) target

/-- Two directories under the paths of their places. -/
theorem steady_of_names {inner inner' : Place} {name name' : Name} (hs : v.Sound)
    (hd : v.isDirectory (inner ++ [name])) (hsource : source.isAbsolute ∧ source.names = inner ++ [name])
    (hd' : v.isDirectory (inner' ++ [name'])) (htarget : target.isAbsolute ∧ target.names = inner' ++ [name'])
    (hup : ∀ n ∈ (inner ++ [name]) ++ (inner' ++ [name']), n ≠ Path.up)
    (hback : inner ++ [name] <+: inner' ++ [name'] → inner' ++ [name'] = inner ++ [name])
    (hclean : inner' ++ [name'] <+: inner ++ [name] → inner' ++ [name'] ≠ inner ++ [name] →
      ∀ object ∈ v.objects.toList, object.content.type ≠ .symlink) :
    v.Steady source (inner ++ [name]) target (inner' ++ [name']) := by
  have hinner := hs.enclosed (isSome_number?_of_isDirectory hd)
  have hinner' := hs.enclosed (isSome_number?_of_isDirectory hd')
  refine ⟨Leads.followed ?_ fun _ hl => hl.not_passable (passable_of_isDirectory hd),
    Leads.followed ?_ fun _ hl => hl.not_passable (passable_of_isDirectory hd'), hback, ?_⟩
  · refine leads_of_names hs hinner hsource.1 (fun _ => hd) hsource.2 (fun n hn => hup n (List.mem_append_left _ hn)) ?_
    exact fun w hw hshut => hshut.2 (hw.trans (List.prefix_append _ _))
  · refine leads_of_names hs hinner' htarget.1 (fun _ => hd') htarget.2
      (fun n hn => hup n (List.mem_append_right _ hn)) ?_
    exact fun w hw hshut => not_concat_isPrefix inner' name' (hshut.1.trans hw)
  · rintro hpre hne below target ⟨object, ho, hc⟩
    have hother := hclean hpre hne object (mem_objects ho)
    rw [hc] at hother
    exact hother rfl

/-- A link at or below one place has no place for its copy near that place, apart from its own. -/
def Tame (v : Volume) (origin top : Place) : Prop :=
  ∀ below target, v.Links (origin ++ below) target → Near origin (top ++ below) → top = origin

theorem Tame.of_contained (h : v.Tame origin top) (hc : Contained origin height within v v') : v'.Tame origin top :=
  fun below target hl => h below target (hc.links _ target (.inr (List.prefix_append _ _)) hl)

theorem Steady.tame (h : v.Steady source origin target top) (hl : ∀ w t, v'.Links w t → v.Links w t) :
    v'.Tame origin top := by
  intro below t hlink hnear
  have hside : origin <+: top ∨ top <+: origin := by
    rcases hnear with hpre | hpre
    · exact .inr ((List.prefix_append top below).trans hpre)
    · exact List.prefix_or_prefix_of_prefix hpre (List.prefix_append top below)
  rcases hside with hpre | hpre
  · exact h.notBelow hpre
  · by_contra hne
    exact h.clean hpre hne below t (hl _ _ hlink)

/-- What is copied to below a place from which it comes does not come to stand deeper there. -/
theorem length_le_of_append_eq (hback : origin <+: top → top = origin) (h : origin ++ rest = top ++ below) :
    rest.length ≤ below.length := by
  have hlength := congrArg List.length h
  rw [List.length_append, List.length_append] at hlength
  have hle : top.length ≤ origin.length := by
    rcases List.prefix_or_prefix_of_prefix (h ▸ List.prefix_append origin rest) (List.prefix_append top below) with
      hpre | hpre
    · rw [hback hpre]
    · exact hpre.length_le
  omega

/-- What holds while a tree is brought up to date: the path of the directory that is read leads nowhere else, and
what is below the first directory does not grow too deep. -/
structure Working (v : Volume) (origin : Place) (height : Nat) (top : Place) (q : Path) (below : Place) : Prop where
  sound : v.Sound
  tethered : v.Tethered origin height top q (origin ++ below)
  tame : v.Tame origin top
  shallow : v.Shallow origin height

namespace Working

theorem of_contained (h : v.Working origin height top q below) (hc : Contained origin height (Beneath top) v v') :
    v'.Working origin height top q below :=
  ⟨hc.bounded.sound h.sound, h.tethered.of_contained hc, h.tame.of_contained hc, hc.shallow h.shallow⟩

theorem child (h : v.Working origin height top q below) (hd : v.isDirectory (origin ++ (below ++ [name])))
    (hn : Path.IsPlain name) : v.Working origin height top (q.join name) (below ++ [name]) := by
  refine ⟨h.sound, ?_, h.tame, h.shallow⟩
  rw [← List.append_assoc] at hd ⊢
  exact h.tethered.join h.sound (List.prefix_append _ _) hd hn

theorem links_of_readlink (h : v.Working origin height top q below) (hn : Path.IsPlain name)
    (hr : v.readlink (q.join name) = .ok target) (hnear : Near origin (top ++ (below ++ [name]))) :
    v.Links (top ++ (below ++ [name])) target := by
  obtain ⟨goal, hreach, hlink⟩ := readlink_eq_ok hr
  obtain rfl := h.tethered.eq_of_reach_join h.sound hn hreach
  rw [List.append_assoc] at hlink
  rwa [h.tame _ target hlink hnear]

end Working

theorem beneath_of_append {w : Place} (hbelow : below ≠ []) (h : top ++ below <+: w) : Beneath top w := by
  refine ⟨(List.prefix_append _ _).trans h, ?_⟩
  rintro rfl
  have hlength := h.length_le
  rw [List.length_append] at hlength
  exact hbelow (List.eq_nil_of_length_eq_zero (by omega))

theorem beneath_top {w : Place} (h : Beneath (top ++ below) w) : Beneath top w := by
  rcases List.eq_nil_or_concat below with rfl | ⟨_, _, hb⟩
  · rwa [List.append_nil] at h
  · exact beneath_of_append (by simp [hb]) h.1

end Volume

namespace Directory

open Volume

variable {v v' : Volume} {origin top below place : Place} {height levels n : Nat} {source target p q : Path}
  {entry : Entry} {name : Name} {entries : List Entry}

/-! ## Targets -/

theorem watched_reading (v : Volume) (p : Path) (place : Place) : Watched reading v p place :=
  fun _ _ _ => False.elim

theorem target_of_grounded (h : v.Grounded p place) (hs : v.Sound) (hn : Path.IsPlain name) :
    Target reading v (fun _ => False) (p.join name) (place ++ [name]) :=
  ⟨hs, h.foothold hs hn, fun _ _ => h.foothold hs hn, watched_reading _ _ _⟩

/-! ## Entries without a tree -/

/-- A copy of what is no directory comes to an end, and brings at most the link that it has read. -/
theorem ends_copyEntry_leaf (ht : Target reading v (fun _ => False) p place) (hd : entry.type ≠ .directory)
    (hheight : ∀ rest, origin ++ rest = place → rest.length ≤ height)
    (hlink : ∀ v', Contained origin height (place <+: ·) v v' → ∀ target, v'.readlink entry.path = .ok target →
      Near origin place → v.Links place target) :
    (copyEntry platform (levels + 1) entry p).Ends v (fun _ v' => Contained origin height (place <+: ·) v v')
      fun e _ => e ≠ .endless := by
  rw [copyEntry]
  refine Ends.bind ((finishes_unlinkSymlink p v).ends (ht.ends_unlinkSymlink falters_platform)) ?_
  rintro - v₁ ⟨hc₁, hthin₁, hr₁⟩
  have h₁ : Contained origin height (place <+: ·) v v₁ := .of_thinned hc₁.downward.bounded hthin₁
  have hs₁ := h₁.bounded.sound ht.sound
  cases he : entry.type with
  | directory => exact absurd he hd
  | symlink =>
    have hread : Finishes (platform.readlink entry.path) v₁ := finishes_ask _ _ _
    refine Ends.bind (hread.ends (falters_platform.readlink v₁ entry.path)) ?_
    rintro destination v₂ ⟨hstill, hdestination⟩
    obtain rfl : v₂ = v₁ := hstill.1
    have hremove := finishes_removeRecursive hs₁ hr₁.foothold.leads
    refine Ends.bind (hremove.ends (ends_removeRecursive falters_platform hs₁ hr₁.foothold)) ?_
    rintro - v₃ ⟨hremoves, -⟩
    have h₃ := h₁.trans (.of_thinned hremoves.bounded hremoves.thinned)
    have hs₃ := h₃.bounded.sound ht.sound
    have hf₃ := hr₁.foothold.of_bounded hs₁ hremoves.bounded (fun _ hw => hw) fun _ => hremoves.thinned.links
    have hsymlink : Finishes (platform.symlink destination p) v₃ := finishes_update _ _ _
    refine (hsymlink.ends (falters_platform.symlink v₃ destination p)).mono (fun _ v₄ hmade => ?_)
      fun _ _ hend => hend
    obtain ⟨_, hmade, rfl, -⟩ := hmade
    obtain ⟨object, hc, hcreates⟩ := creates_of_symlink hs₃ hmade
    obtain ⟨goal, hreach, -, ho⟩ := hcreates.object? hs₃
    obtain rfl := hf₃.eq_of_reach hs₃ hreach
    have hb : Bounded (· = goal) (fun _ => False) v₃ v₄ :=
      hcreates.bounded hs₃ fun goal' hreach' _ => .inl (hf₃.eq_of_reach hs₃ hreach')
    refine h₃.spot (List.prefix_refl _) hs₃ hb (fun t hnear hl => ?_) hheight
    obtain rfl := hl.unique ⟨object, ho, hc⟩
    exact hlink _ h₁ _ hdestination hnear
  | file =>
    have hcopy : Finishes (platform.copyFile entry.path p) v₁ := finishes_perform _ _ _
    refine Ends.bind ((hcopy.ends (falters_platform.copyFile v₁ entry.path p)).mono (fun _ v₂ hcopied => ?_)
      fun _ _ hend => hend) fun _ _ hend => Ends.pure hend
    obtain ⟨_, hcopied, rfl, -⟩ := hcopied
    obtain ⟨_, data, goal, -, -, hreach, hcopies⟩ := copies_of_copyFile hs₁ hcopied
    obtain rfl := hr₁.eq_of_reach hs₁ hreach
    refine h₁.spot (List.prefix_refl _) hs₁ (hcopies.bounded rfl) (fun t _ hl => ?_) hheight
    obtain ⟨object, ho, hc⟩ := hl
    exact absurd hc ((hcopies.writable object ho).2 t)
  | special => exact Ends.pure h₁

/-! ## Trees -/

section Trees

variable (hback : origin <+: top → top = origin)

include hback

/-- The names in a directory are brought up to date one after the other. -/
theorem ends_forM_working (hw : v.Working origin height top q below) (hg : v.Grounded p (top ++ below))
    (hall : List.Forall₂ (IsChild v q (origin ++ below)) entries (v.names (origin ++ below)))
    (htree : ∀ v' name, v'.Working origin height top (q.join name) (below ++ [name]) →
      Target reading v' (fun _ => False) (p.join name) (top ++ (below ++ [name])) →
      Unlinked v' (p.join name) (top ++ (below ++ [name])) → (below ++ [name]).length ≤ height →
      (syncTree platform levels (q.join name) (p.join name)).Ends v'
        (fun _ v'' => Contained origin height (top ++ (below ++ [name]) <+: ·) v' v'')
        fun e _ => e ≠ Failure.endless) :
    (entries.forM fun child => do
      let place := childOf p child
      let inTheWay ← namesSuch platform place fun e => e.isDirectory != child.isDirectory
      if inTheWay then removeRecursive platform place
      if child.isDirectory then syncTree platform levels child.path place
      else withLevels platform place fun levels => copyEntry platform levels child place).Ends v
      (fun _ v' => Contained origin height (Beneath (top ++ below)) v v') fun e _ => e ≠ Failure.endless := by
  refine Ends.forM₂ (fun _ v' => Contained origin height (Beneath (top ++ below)) v v') hall (.refl v) ?_
  rintro done child name rest v₁ - hchild hc
  have hs₁ := hc.bounded.sound hw.sound
  have ht₁ := target_of_grounded (hg.of_bounded hw.sound hc.bounded) hs₁ hchild.plain
  obtain ⟨object, hobject, htype⟩ := hchild.object
  have hlength := hw.shallow (below ++ [name]) (by
    rw [← List.append_assoc]
    exact not_vacant_of_object? hobject)
  have hisDirectory := hchild.isDirectory_iff
  rw [List.append_assoc] at ht₁ hisDirectory
  dsimp only
  rw [hchild.childOf, hchild.path]
  have hup {v₂ v₃ : Volume} (h₂ : Contained origin height (Beneath (top ++ below)) v v₂)
      (h₃ : Contained origin height (top ++ (below ++ [name]) <+: ·) v₂ v₃) :
      Contained origin height (Beneath (top ++ below)) v v₃ := by
    refine h₂.trans (h₃.mono fun w hpre => ?_)
    rw [← List.append_assoc] at hpre
    exact beneath_of_name hpre
  have hcopy {v₂ : Volume} (h₂ : Contained origin height (Beneath (top ++ below)) v v₂)
      (ht₂ : Target reading v₂ (fun _ => False) (p.join name) (top ++ (below ++ [name])))
      (hu₂ : child.isDirectory → Unlinked v₂ (p.join name) (top ++ (below ++ [name]))) :
      (if child.isDirectory then syncTree platform levels (q.join name) (p.join name)
        else withLevels platform (p.join name) fun levels => copyEntry platform levels child (p.join name)).Ends v₂
        (fun _ v₃ => Contained origin height (Beneath (top ++ below)) v v₃) fun e _ => e ≠ .endless := by
    have hw₂ := hw.of_contained (h₂.mono fun _ => beneath_top)
    split
    case isTrue hd =>
      have hdown := (hw.child (hisDirectory.mp hd) hchild.plain).of_contained (h₂.mono fun _ => beneath_top)
      exact (htree v₂ name hdown ht₂ (hu₂ hd) hlength).mono (fun _ _ => hup h₂) fun _ _ hend => hend
    case isFalse hd =>
      have hleaf : child.type ≠ .directory := fun hc => hd (by rw [Entry.isDirectory, hc]; rfl)
      refine ends_withLevels_of ?_
      obtain ⟨k, hk⟩ := Nat.exists_eq_add_of_lt (size_add_length_lt_levels (p.join name) v₂)
      rw [hk]
      refine (ends_copyEntry_leaf ht₂ hleaf (fun rest he => ?_) ?_).mono (fun _ _ => hup h₂) fun _ _ hend => hend
      · exact (length_le_of_append_eq hback he).trans hlength
      · intro v₃ h₃ target hread hnear
        rw [hchild.path] at hread
        have hw₃ := hw.of_contained ((hup h₂ h₃).mono fun _ => beneath_top)
        exact h₃.links _ target hnear (hw₃.links_of_readlink hchild.plain hread hnear)
  refine Ends.bind (ends_namesSuch falters_platform ht₁ child.isDirectory) ?_
  rintro inTheWay v₂ ⟨hstill, hway⟩
  obtain rfl : v₂ = v₁ := hstill.1
  split
  case isTrue =>
    have hremove := finishes_removeRecursive hs₁ ht₁.foothold.leads
    refine Ends.bind (hremove.ends (ht₁.ends_removeRecursive falters_platform)) ?_
    rintro - v₃ ⟨hremoves, hu₃⟩
    exact hcopy (hup hc (.of_thinned hremoves.bounded hremoves.thinned)) (ht₁.of_removes hremoves) fun _ => hu₃
  case isFalse hnot =>
    rw [if_neg hnot] at hway
    exact hcopy hc ht₁ hway

/-- A tree is brought up to date within as many levels as there can be below the first directory. -/
theorem ends_syncTree_working (hw : v.Working origin height top q below) (hbelow : below ≠ [])
    (ht : Target reading v (fun _ => False) p (top ++ below)) (hu : Unlinked v p (top ++ below))
    (hlength : below.length ≤ height) (hlevels : height < below.length + levels) :
    (syncTree platform levels q p).Ends v (fun _ v' => Contained origin height (top ++ below <+: ·) v v')
      fun e _ => e ≠ .endless := by
  induction levels generalizing v q p below with
  | zero => exact absurd hlevels (Nat.not_lt.mpr hlength)
  | succ levels ih =>
    rw [syncTree]
    have hcreate := (ends_create falters_platform ht.sound (ht.ready hu)).and (ends_create_any (p := p) falters_platform
      ht.sound)
    refine Ends.bind ((finishes_create p v).ends hcreate) ?_
    rintro - v₁ ⟨⟨hc₁, hd₁, hf₁⟩, -, w, hadmits⟩
    have hno : ∀ t, ¬ v₁.Links (top ++ below) t := fun _ hl => hl.not_passable (passable_of_isDirectory hd₁)
    have h₁ : Contained origin height (top ++ below <+: ·) v v₁ :=
      (Contained.refl v).spot (List.prefix_refl _) hw.sound hc₁.bounded (fun t _ hl => absurd hl (hno t))
        fun rest he => (length_le_of_append_eq hback he).trans hlength
    have hg₁ : v₁.Grounded p (top ++ below) :=
      .of_leads hd₁ ((hf₁.leads.followed hno).mono fun _ hb => hb.1) hadmits.leads
    have hw₁ := hw.of_contained (h₁.mono fun _ => beneath_of_append hbelow)
    have hs₁ := hw₁.sound
    refine Ends.bind ((finishes_children hs₁ q).ends (ends_children falters_platform hs₁)) ?_
    rintro entries v₂ ⟨hstill, directory, hreach, -, hall⟩
    obtain rfl : v₂ = v₁ := hstill.1
    obtain rfl := hw₁.tethered.eq_of_reach hs₁ hreach
    refine (ends_forM_working hback hw₁ hg₁ hall fun v' name hw' ht' hu' hlength' => ?_).mono
      (fun _ v₃ h₃ => h₁.trans (h₃.mono fun _ hb => hb.1)) fun _ _ hend => hend
    refine ih hw' (List.concat_ne_nil _ _) ht' hu' hlength' ?_
    rw [List.length_append, List.length_singleton]
    omega

end Trees

/-! ## Making the first directory -/

theorem depth_of_creates {object : Object} (h : v.Creates p object v') (hdepth : Depth v n) : Depth v' (n + 1) := by
  obtain ⟨directory, name, -, hd, hv, -, rfl⟩ := h
  have hs := isSome_number?_of_isDirectory hd
  intro w hw
  rw [Vacant, number?_create hs hv] at hw
  split at hw
  case isTrue he =>
    have hlength := hdepth directory (Option.isSome_iff_ne_none.mp hs)
    rw [he, List.length_append, List.length_singleton]
    omega
  case isFalse => exact Nat.le_succ_of_le (hdepth w hw)

theorem ends_makeOne_depth (hs : v.Sound) (hdepth : Depth v n) :
    (makeOne platform p).Ends v (fun _ v' => v'.Sound ∧ Depth v' (n + 1)) fun _ _ => True := by
  refine Ends.bind_outcome (falters_platform.mkdir v p directoryMode) ?_ fun e v' hstill => ?_
  · rintro - v' ⟨_, hmk, rfl, -⟩
    obtain ⟨_, -, hcreates⟩ := creates_of_mkdir hs hmk
    have hb : Bounded (fun _ => True) (fun _ => False) v v' := hcreates.bounded hs fun _ _ _ => .inl trivial
    exact Ends.pure ⟨hb.sound hs, depth_of_creates hcreates hdepth⟩
  · obtain rfl : v' = v := hstill.1
    refine (ends_isDirectory falters_platform v' p).bind ?_
    rintro is v'' ⟨hstill', -⟩
    obtain rfl : v'' = v' := hstill'.1
    split
    · exact Ends.throw trivial
    · exact Ends.pure ⟨hs, fun w hw => Nat.le_succ_of_le (hdepth w hw)⟩

/-- Each directory that is made lies at most one level deeper than what was there. -/
theorem ends_makeAll_depth {ps : List Path} (hs : v.Sound) (hdepth : Depth v n) :
    (makeAll platform ps).Ends v (fun _ v' => Depth v' (n + ps.length)) fun _ _ => True := by
  induction ps generalizing v n with
  | nil => exact Ends.pure hdepth
  | cons p ps ih =>
    refine Ends.bind (ends_makeOne_depth hs hdepth) ?_
    rintro - v' ⟨hs', hdepth'⟩
    refine (ih hs' hdepth').mono (fun _ v'' hend => ?_) fun _ _ hend => hend
    rw [List.length_cons]
    rwa [Nat.add_assoc, Nat.add_comm 1] at hend

theorem ends_missing_length (n : Nat) (p : Path) (v : Volume) :
    (missing platform n p).Ends v (fun ps v' => v' = v ∧ ps.length ≤ n) fun _ _ => True := by
  induction n generalizing p v with
  | zero => exact Ends.pure ⟨rfl, Nat.le_refl _⟩
  | succ n ih =>
    rw [missing]
    split
    · exact Ends.pure ⟨rfl, Nat.zero_le _⟩
    · refine Ends.bind_outcome (falters_platform.stat v p) (fun entry v' hend => ?_) fun e v' hstill => ?_
      · obtain rfl : v' = v := hend.1.1
        dsimp only
        split
        · exact Ends.pure ⟨rfl, Nat.zero_le _⟩
        · exact Ends.throw trivial
      · obtain rfl : v' = v := hstill.1
        dsimp only
        split
        · exact Ends.pure ⟨rfl, Nat.succ_le_succ (Nat.zero_le n)⟩
        · refine (ih _ v').bind ?_
          rintro ps v'' ⟨rfl, hlength⟩
          exact Ends.pure ⟨rfl, Nat.succ_le_succ hlength⟩

theorem ends_create_depth (hs : v.Sound) (hdepth : Depth v n) :
    (create platform p).Ends v (fun _ v' => Depth v' (n + p.length)) fun _ _ => True := by
  rw [create]
  split
  · exact Ends.throw trivial
  · refine (ends_missing_length p.length p v).bind ?_
    rintro ps v' ⟨rfl, hlength⟩
    refine (ends_makeAll_depth hs hdepth).mono (fun _ v'' hend w hw => (hend w hw).trans ?_) fun _ _ hend => hend
    rw [List.length_reverse]
    omega

/-! ## Whole directories -/

/-- The first part of `sync` comes to an end, and leaves the second directory where its path leads. -/
theorem ends_syncTree_steady (hs : v.Sound) (hd : v.isDirectory origin)
    (hsteady : ∀ top, v.Leads (fun _ => False) true target top → v.Steady source origin target top) :
    (withLevels platform target fun levels => syncTree platform levels source target).Ends v
      (fun _ v' => v'.Sound ∧ ∃ top, v'.Grounded target top) fun e _ => e ≠ .endless := by
  refine ends_withLevels_of ?_
  have hlevels := size_add_length_lt_levels target v
  obtain ⟨k, hk⟩ := Nat.exists_eq_add_of_lt hlevels
  rw [hk, syncTree]
  have hcreate := (ends_create_any (p := target) falters_platform hs).and (ends_create_depth hs (depth_size v))
  refine Ends.bind ((finishes_create target v).ends hcreate) ?_
  rintro - v₁ ⟨⟨hc₁, top, hadmits⟩, hdepth⟩
  have hb₁ : Bounded (fun _ => False) (fun _ => True) v v₁ := hc₁.bounded
  have hs₁ := hb₁.sound hs
  have hst := hsteady top (hb₁.leads_of_leads hs (hadmits.leads.mono fun _ => False.elim))
  have hgoal : ∀ w t, v₁.Links w t → v.Links w t := fun _ _ => hb₁.links_of_links hs id
  have hg₁ : v₁.Grounded target top :=
    .of_leads hadmits.directory (hb₁.leads hs (fun _ => False.elim) (hgoal top) hst.targetLeads) hadmits.leads
  have hw₁ : v₁.Working origin (v.entries.size + target.length) top source [] := by
    refine ⟨hs₁, ?_, hst.tame hgoal, fun below hv => ?_⟩
    · rw [List.append_nil]
      exact tethered_of_leads hs₁ (hb₁.isDirectory id hd)
        (hb₁.leads hs (fun _ => False.elim) (hgoal origin) hst.sourceLeads)
    · have hlength := hdepth _ hv
      rw [List.length_append] at hlength
      omega
  refine Ends.bind ((finishes_children hs₁ source).ends (ends_children falters_platform hs₁)) ?_
  rintro entries v₂ ⟨hstill, directory, hreach, -, hall⟩
  obtain rfl : v₂ = v₁ := hstill.1
  obtain rfl := hw₁.tethered.eq_of_reach hs₁ hreach
  rw [← List.append_nil top] at hg₁
  refine (ends_forM_working hst.notBelow hw₁ hg₁ hall fun v' name hw' ht' hu' hlength' => ?_).mono
    (fun _ v₃ h₃ => ⟨h₃.bounded.sound hs₁, _, hg₁.of_bounded hs₁ h₃.bounded⟩) fun _ _ hend => hend
  refine (ends_syncTree_working hst.notBelow hw' (List.concat_ne_nil _ _) ht' hu' hlength' ?_)
  rw [List.length_append, List.length_singleton]
  omega

/-- Bringing a directory up to date comes to an end if the second directory is not below the first one, and if
what is copied does not change where their paths lead. -/
theorem sync_ne_endless (hs : v.Sound) (source target : Path)
    (hsteady : ∀ origin top, v.Leads (fun _ => False) true source origin →
      v.Leads (fun _ => False) true target top → v.Steady source origin target top) (deleteExtraneous : Bool) :
    ((sync platform source target deleteExtraneous).apply v).1 ≠ .error .endless := by
  have hends : Finishes (sync platform source target deleteExtraneous) v := by
    refine Ends.bind ((finishes_requireDirectory source v).ends (ends_requireDirectory falters_platform v source)) ?_
    rintro - v₀ ⟨hstill, origin, hreach, hd⟩
    obtain rfl : v₀ = v := hstill.1
    have hsource : v₀.Leads (fun _ => False) true source origin := (leads_of_reach hs hreach).mono fun _ => False.elim
    refine Ends.bind (ends_syncTree_steady hs hd fun top => hsteady origin top hsource) ?_
    rintro - v₁ ⟨hs₁, top, hg₁⟩
    split
    · have hlevels := size_add_length_lt_levels target v₁
      refine Finishes.of_ends (ends_withLevels_of (ends_prune_finite hs₁ (.refl v₁)
        (hg₁.leads.mono fun _ => False.elim) (depth_size v₁) (by omega) (by omega)))
    · exact finishes_pure _ _
  exact fun he => hends.error he rfl

/-! ## A directory that is copied above itself -/

/-- A directory in a directory of the same name, and a file in it. -/
def nested : Volume :=
  grown [(placeOf ["a"], .directory), (placeOf ["a", "b"], .directory), (placeOf ["a", "b", "b"], .directory),
    (placeOf ["a", "b", "b", "c"], .file [0x78])]

theorem sound_nested : nested.Sound := sound_grown (by decide +kernel)

/-- What is copied goes into the directory that is read, and the work ends. -/
theorem sync_ne_endless_nested :
    (nested.Sound ∧ ∀ origin top, nested.Leads (fun _ => False) true "/a/b".toList origin →
      nested.Leads (fun _ => False) true "/a".toList top → nested.Steady "/a/b".toList origin "/a".toList top) ∧
    ((sync platform "/a/b".toList "/a".toList true).apply nested).1 ≠ .error .endless := by
  have hsteady : nested.Steady "/a/b".toList (placeOf ["a"] ++ ["b".toList]) "/a".toList ([] ++ ["a".toList]) :=
    steady_of_names sound_nested (by decide +kernel) (by decide +kernel) (by decide +kernel) (by decide +kernel)
      (by decide) (by decide) fun _ _ => by decide +kernel
  have hall : ∀ origin top, nested.Leads (fun _ => False) true "/a/b".toList origin →
      nested.Leads (fun _ => False) true "/a".toList top → nested.Steady "/a/b".toList origin "/a".toList top := by
    intro origin top hsource htarget
    obtain rfl := hsteady.sourceLeads.unique hsource
    obtain rfl := hsteady.targetLeads.unique htarget
    exact hsteady
  exact ⟨⟨sound_nested, hall⟩, sync_ne_endless sound_nested "/a/b".toList "/a".toList hall true⟩

end Directory

end Bytework
