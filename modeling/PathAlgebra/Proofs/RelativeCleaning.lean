import PathAlgebra.Proofs.RelativeSearch

/-!
# Where relative paths are cleaned

The path from a base to a target is put together from `..` elements and the runs that are left of
the cleaned target (`rel_eq_partsLeft`); it is not cleaned again. These runs are those of a cleaned
path from some place on (`TargetForm`), and on their own or below `..` elements they may not be
cleaned any more (`Unclean`):

* A target `.` stands for no element, but it is a run. Below a `..` it is left over, and so is the
  `.` that guards a Windows target.
* A guard that was put in front of the device root is left over without the root.
* A drive that comes to the front takes what follows it as a path on that drive.

Everywhere else the runs are resolved elements, and so is the way up in front of them. So a relative
path is cleaned unless it is put together in one of these ways (`clean_rel_iff`). Under the POSIX
dialect that leaves only the way from another directory to `.` (`clean_rel_posix_iff`).
-/

set_option autoImplicit false

namespace PathAlgebra

namespace Dialect

variable {d : Dialect} {base target r t e x : Text} {n : Nat} {es cs bs cs' ts : List Text}

/-! ## What is left behind the shared names -/

/-- Two lists of names behind those that both start with. -/
def behindShared (d : Dialect) : List Text → List Text → List Text × List Text
  | b :: bs, t :: ts => if d.sameWord t b then d.behindShared bs ts else (b :: bs, t :: ts)
  | bs, ts => (bs, ts)

/-- The runs that are left of a base and a target behind the names that both start with. -/
def partsLeft (d : Dialect) (base target : Text) : List Text × List Text :=
  d.behindShared (d.runs (d.relativeBase base)) (d.runs (d.relativeTarget target))

theorem Parting.behindShared_eq (h : d.Parting cs bs cs' ts) :
    d.behindShared (cs ++ bs) (cs' ++ ts) = (bs, ts) := by
  induction cs generalizing cs' with
  | nil =>
      have hcs' : cs' = [] := List.map_eq_nil_iff.1 h.shared.symm
      subst hcs'
      cases bs with
      | nil => rfl
      | cons b bs =>
          cases ts with
          | nil => rfl
          | cons t ts =>
              have hdiffer : ¬ d.sameWord t b = true := by
                rw [sameWord_iff]
                intro hkey
                exact List.cons_ne_nil b bs (h.parts (congrArg some hkey.symm)).1
              exact if_neg hdiffer
  | cons c cs ih =>
      cases cs' with
      | nil => exact absurd h.shared (by simp)
      | cons c' cs' =>
          obtain ⟨hkey, hshared⟩ := List.cons.inj h.shared
          exact (if_pos (sameWord_iff.2 hkey.symm)).trans (ih ⟨hshared, h.parts⟩)

theorem TargetForm.of_append (h : TargetForm d (cs ++ ts)) : TargetForm d ts := by
  generalize hes : cs ++ ts = es at h
  cases h with
  | elements helements hresolved =>
      subst hes
      exact .elements (fun e he => helements e (List.mem_append_right _ he))
        hresolved.of_append_right
  | dot =>
      rcases List.append_eq_singleton_iff.1 hes with ⟨-, rfl⟩ | ⟨-, rfl⟩
      · exact .dot
      · exact .elements (by simp) (resolved_nil false)
  | guarded hd helements hparent =>
      rcases List.append_eq_cons_iff.1 hes with ⟨-, rfl⟩ | ⟨cs, -, heq⟩
      · exact .guarded hd helements hparent
      -- Behind the guard there are elements only.
      · rw [heq] at helements hparent
        exact .elements (fun f hf => helements f (List.mem_append_right _ hf))
          (resolved_of_notMem fun hm => hparent (List.mem_append_right _ hm))

/-- Between different paths the answer is the way along what is left. -/
theorem rel_eq_partsLeft (h : d.rel base target = .ok r)
    (hdiffer : d.sameWord (d.clean target) (d.clean base) = false) :
    TargetForm d (d.partsLeft base target).2 ∧
      r = d.way (d.partsLeft base target).1.length (d.partsLeft base target).2 := by
  obtain ⟨cs, bs, cs', ts, hbase, htarget, hparting, -, rfl⟩ := rel_eq_way h hdiffer
  have hleft : d.partsLeft base target = (bs, ts) := by
    rw [partsLeft, hbase, htarget, hparting.behindShared_eq]
  obtain ⟨rooted, es, hspell, hform⟩ := exists_targetForm d target
  rw [hspell, runs_spell hform.isRun] at htarget
  rw [hleft]
  exact ⟨(htarget ▸ hform).of_append, rfl⟩

/-! ## Texts that are cleaned -/

/-- A normal form has a `.` among its runs only if it is nothing else. -/
theorem runs_eq_of_dot_mem (h : d.normalForm t = t) (hdot : ['.'] ∈ d.runs t) :
    d.runs t = [['.']] := by
  have hes : ∀ e ∈ d.resolvedElements t, IsElement d e :=
    fun _ he => isElement_of_mem_resolvedElements he
  have hruns : d.runs t = targetRuns (d.isRooted t) (d.resolvedElements t) := by
    conv_lhs => rw [← h, normalForm_eq, writeElements_eq_runs hes]
    exact runs_spell (noSep_targetRuns _ hes)
  rw [hruns] at hdot ⊢
  unfold targetRuns at hdot ⊢
  split
  · rfl
  · next hne =>
    rw [if_neg hne] at hdot
    exact absurd rfl (hes _ hdot).ne_dot

/-- A relative Windows path without a volume is cleaned when it is its own normal form, or the guard
for a colon in front of it. -/
theorem clean_eq_self_iff (hvol : windows.volume t = .none) (hroot : windows.isRooted t = false) :
    windows.clean t = t ↔ windows.normalForm t = t ∨
      windows.ColonFirst t ∧ t = ['.', windows.sep] ++ windows.normalForm t := by
  constructor
  · intro h
    rcases clean_of_none hvol with hclean | ⟨hg, hclean⟩
    · exact .inl (hclean.symm.trans h)
    · rcases guardFor_cases windows t with ⟨hguard, -⟩ | ⟨hguard, hcolon⟩ | ⟨-, hdevice⟩
      · exact absurd hguard hg
      · rw [h, hguard] at hclean
        exact .inr ⟨hcolon, hclean⟩
      · rw [isRooted_of_deviceFirst hdevice] at hroot
        cases hroot
  · rintro (h | ⟨hcolon, ht⟩)
    · exact clean_of_normal hvol h
    · rcases guardFor_cases windows t with ⟨-, hnone, -⟩ | ⟨hguard, -⟩ | ⟨-, hdevice⟩
      · exact absurd hcolon hnone
      · have hclean := clean_guarded (t := t) (by rw [hguard]; exact List.cons_ne_nil _ _)
        rwa [hguard, ← ht] at hclean
      · rw [isRooted_of_deviceFirst hdevice] at hroot
        cases hroot

/-- A path on a drive is cleaned when what follows the drive is its own normal form. -/
theorem clean_drive_eq_self_iff (hvol : windows.volume t = .drive) :
    windows.clean t = t ↔ windows.normalForm (windows.tail t) = windows.tail t := by
  obtain ⟨c, rest, rfl, hc⟩ := volume_eq_drive_iff.1 hvol
  rw [clean_drive hc, tail_drive hc, List.cons_inj_right, List.cons_inj_right]

/-! ## Ways that are cleaned -/

/-- A way up and down that is not cleaned: a `.` below a `..`, a `.` in front that guards no colon,
or a drive in front that is alone or has a `.` to drop. -/
inductive Unclean (d : Dialect) : Nat → List Text → Prop where
  | dotBelow {n : Nat} {ts : List Text} : Unclean d (n + 1) (['.'] :: ts)
  | dotInFront {e : Text} {ts : List Text} : ':' ∉ e → Unclean d 0 (['.'] :: e :: ts)
  | driveAlone {e : Text} : d.volume e = .drive → d.tail e = [] → Unclean d 0 [e]
  | dotBehindDrive {e f : Text} {ts : List Text} : d.volume e = .drive → d.tail e = ['.'] →
      Unclean d 0 (e :: f :: ts)

/-- A way along resolved elements is its own normal form. -/
theorem normalForm_way (hes : ∀ e ∈ ts, IsElement d e) (hresolved : Resolved false ts)
    (hne : ¬ (n = 0 ∧ ts = [])) : d.normalForm (d.way n ts) = d.way n ts := by
  have hups : ∀ e ∈ List.replicate n parentElement, IsElement d e := fun e he => by
    rw [List.eq_of_mem_replicate he]
    exact isElement_parent d
  exact normalForm_intercalate (List.forall_mem_append.2 ⟨hups, hes⟩) (by simpa using hne)
    (hresolved.replicate_append n)

theorem runs_way (h : ∀ e ∈ ts, IsRun d e) :
    d.runs (d.way n ts) = List.replicate n parentElement ++ ts :=
  runs_intercalate (noSep_way n h)

/-- The volume of a way is that of its first run, none or a drive. -/
theorem volume_way (h : ∀ f ∈ e :: es, IsRun windows f) :
    windows.volume (windows.way 0 (e :: es)) = windows.volume e ∧
      (windows.volume e = .none ∨ windows.volume e = .drive) :=
  volume_intercalate h

theorem volume_way_succ (h : ∀ f ∈ ts, IsRun windows f) :
    windows.volume (windows.way (n + 1) ts) = .none :=
  (volume_intercalate (noSep_way (n + 1) h)).1

theorem clean_way_dotBelow (h : ∀ e ∈ ['.'] :: ts, IsRun d e) :
    d.clean (d.way (n + 1) (['.'] :: ts)) ≠ d.way (n + 1) (['.'] :: ts) := by
  have hruns := runs_way (n := n + 1) h
  rw [List.replicate_succ, List.cons_append] at hruns
  have hnormal : d.normalForm (d.way (n + 1) (['.'] :: ts)) ≠ d.way (n + 1) (['.'] :: ts) := by
    intro hnormal
    have hdot := runs_eq_of_dot_mem hnormal (by rw [hruns]; simp)
    rw [hruns] at hdot
    exact absurd (List.cons.inj hdot).1 (by decide)
  cases d with
  | posix =>
      rw [clean_posix]
      exact hnormal
  | windows =>
      rw [Ne, clean_eq_self_iff (volume_way_succ h) (isRooted_way _ h)]
      rintro (heq | ⟨-, hguard⟩)
      · exact hnormal heq
      -- The way starts with a `..`, not with a guard.
      · have hfirst := congrArg windows.runs hguard
        rw [hruns] at hfirst
        have hsep := runs_append_sep (d := .windows) ['.']
          (windows.normalForm (windows.way (n + 1) (['.'] :: ts)))
        rw [runs_of_isRun (isRun_dot windows)] at hsep
        exact absurd (List.cons.inj (hfirst.trans hsep)).1 (by decide)

/-- A `.` in front of elements is cleaned exactly where it guards a colon. -/
theorem clean_way_guarded_iff (hes : ∀ f ∈ e :: es, IsElement windows f)
    (hparent : parentElement ∉ e :: es) :
    windows.clean (windows.way 0 (['.'] :: e :: es)) = windows.way 0 (['.'] :: e :: es) ↔
      ':' ∈ e := by
  have hruns : ∀ f ∈ ['.'] :: e :: es, IsRun windows f :=
    (TargetForm.guarded rfl hes hparent).isRun
  have hroot := isRooted_way 0 hruns
  have helements : windows.resolvedElements (windows.way 0 (['.'] :: e :: es)) = e :: es := by
    have hfilter : (['.'] :: e :: es).filter (fun f => f ≠ [] ∧ f ≠ ['.']) = e :: es := by
      rw [List.filter_cons_of_neg (by simp), filter_isElement hes]
    rw [resolvedElements, elements_way 0 hruns, hroot, hfilter]
    exact (resolved_of_notMem hparent).resolve_eq
  have hnormal : windows.normalForm (windows.way 0 (['.'] :: e :: es)) =
      windows.way 0 (e :: es) := by
    rw [normalForm_eq, hroot, helements, writeElements_unrooted hes (List.cons_ne_nil e es)]
    rfl
  rw [clean_eq_self_iff (volume_way hruns).1 hroot]
  constructor
  · rintro (hself | ⟨⟨-, f, fs, heq, hcolon⟩, -⟩)
    · have hdot := runs_eq_of_dot_mem hself (by rw [runs_way hruns]; simp)
      rw [runs_way hruns] at hdot
      cases hdot
    · rw [helements] at heq
      rw [(List.cons.inj heq).1]
      exact hcolon
  · intro hcolon
    refine .inr ⟨⟨hroot, e, es, helements, hcolon⟩, ?_⟩
    rw [hnormal, way, way, List.replicate_zero, List.nil_append, List.nil_append,
      List.intercalate_cons_of_ne_nil (List.cons_ne_nil e es)]
    rfl

/-- What follows a drive is its first run, which may be missing or a `.`, and elements. It is its
own normal form unless it is nothing at all or a `.` with elements behind it. -/
theorem normalForm_intercalate_iff (hx : ∀ c ∈ x, d.isSep c = false)
    (hes : ∀ f ∈ es, IsElement d f) (hparent : parentElement ∉ es) :
    d.normalForm ([d.sep].intercalate (x :: es)) = [d.sep].intercalate (x :: es) ↔
      ¬ (x = [] ∧ es = [] ∨ x = ['.'] ∧ es ≠ []) := by
  by_cases hnil : x = []
  · subst hnil
    by_cases hes' : es = []
    · refine iff_of_false ?_ fun h => h (.inl ⟨rfl, hes'⟩)
      rw [hes', List.intercalate_singleton]
      exact normalForm_ne_nil d []
    -- A missing first run makes the elements rooted.
    · have hroot : [d.sep].intercalate ([] :: es) = d.writeElements true es := by
        rw [List.intercalate_cons_of_ne_nil hes', writeElements_of_ne_nil (by simp [spell])]
        rfl
      rw [hroot, normalForm_writeElements hes (resolved_of_notMem hparent)]
      simp [hes']
  by_cases hdot : x = ['.']
  · subst hdot
    by_cases hes' : es = []
    · refine iff_of_true ?_ (by simp [hes'])
      rw [hes', List.intercalate_singleton]
      cases d <;> decide
    · refine iff_of_false (fun hnormal => hes' ?_) fun h => h (.inr ⟨rfl, hes'⟩)
      have hruns : d.runs ([d.sep].intercalate (['.'] :: es)) = ['.'] :: es :=
        runs_intercalate (List.forall_mem_cons.2 ⟨isRun_dot d, fun f hf => (hes f hf).isRun⟩)
      have hall := runs_eq_of_dot_mem hnormal (by rw [hruns]; exact List.mem_cons_self)
      rw [hruns] at hall
      exact (List.cons.inj hall).2
  · have hall : ∀ f ∈ x :: es, IsElement d f := List.forall_mem_cons.2 ⟨⟨hnil, hdot, hx⟩, hes⟩
    refine iff_of_true ?_ (by simp [hnil, hdot])
    exact normalForm_intercalate hall (List.cons_ne_nil x es) (resolved_cons hparent x)

/-- Behind a drive in front either nothing is left, or elements with a `.` to drop before them. -/
theorem unclean_drive_iff {c : Char} (hc : c.isAlpha = true) :
    windows.Unclean 0 ((c :: ':' :: x) :: es) ↔ x = [] ∧ es = [] ∨ x = ['.'] ∧ es ≠ [] := by
  have hdrive := volume_drive hc x
  have hbehind := tail_drive hc x
  constructor
  · intro h
    cases h with
    | driveAlone _ hnil => exact .inl ⟨hbehind.symm.trans hnil, rfl⟩
    | dotBehindDrive _ hdot => exact .inr ⟨hbehind.symm.trans hdot, List.cons_ne_nil _ _⟩
  · rintro (⟨hnil, rfl⟩ | ⟨hdot, hne⟩)
    · exact .driveAlone hdrive (hbehind.trans hnil)
    · obtain ⟨f, fs, rfl⟩ := List.exists_cons_of_ne_nil hne
      exact .dotBehindDrive hdrive (hbehind.trans hdot)

theorem clean_way_drive_iff (hes : ∀ f ∈ e :: es, IsElement windows f)
    (hresolved : Resolved false (e :: es)) (hdrive : windows.volume e = .drive) :
    windows.clean (windows.way 0 (e :: es)) = windows.way 0 (e :: es) ↔
      ¬ windows.Unclean 0 (e :: es) := by
  have hvol := (volume_way fun f hf => (hes f hf).isRun).1.trans hdrive
  obtain ⟨c, x, rfl, hc⟩ := volume_eq_drive_iff.1 hdrive
  have hparent : parentElement ∉ es := fun hm =>
    hresolved.notMem_cons (by simp [parentElement]) (List.mem_cons_of_mem _ hm)
  have hx : ∀ a ∈ x, windows.isSep a = false := fun a ha =>
    (hes _ List.mem_cons_self).no_sep a (List.mem_cons_of_mem _ (List.mem_cons_of_mem _ ha))
  have htail : windows.tail (windows.way 0 ((c :: ':' :: x) :: es)) =
      [windows.sep].intercalate (x :: es) := by
    rw [way, List.replicate_zero, List.nil_append, List.intercalate_cons_cons_left,
      List.intercalate_cons_cons_left, tail_drive hc]
  rw [clean_drive_eq_self_iff hvol, htail, unclean_drive_iff hc]
  exact normalForm_intercalate_iff hx (fun f hf => hes f (List.mem_cons_of_mem _ hf)) hparent

/-- A way along elements without a drive in front is cleaned. -/
theorem clean_way_elements (hes : ∀ e ∈ ts, IsElement d e) (hresolved : Resolved false ts)
    (hne : ¬ (n = 0 ∧ ts = [])) (hdrive : ∀ e es, n = 0 → ts = e :: es → d.volume e ≠ .drive) :
    d.clean (d.way n ts) = d.way n ts := by
  have hnormal := normalForm_way hes hresolved hne
  cases d with
  | posix => rw [clean_posix, hnormal]
  | windows =>
      have hruns : ∀ e ∈ ts, IsRun windows e := fun e he => (hes e he).isRun
      have hvol : windows.volume (windows.way n ts) = .none := by
        cases n with
        | succ n => exact volume_way_succ hruns
        | zero =>
            cases ts with
            | nil => exact absurd ⟨rfl, rfl⟩ hne
            | cons e es =>
                obtain ⟨hvol, hcases⟩ := volume_way hruns
                exact hvol.trans (hcases.resolve_right (hdrive e es rfl rfl))
      exact clean_of_normal hvol hnormal

/-- A way along the runs of a cleaned path, from some place on, is cleaned unless it is put together
in one of the ways above. -/
theorem clean_way_iff (h : TargetForm d ts) (hne : ¬ (n = 0 ∧ ts = [])) :
    d.clean (d.way n ts) = d.way n ts ↔ ¬ d.Unclean n ts := by
  cases h with
  | elements hes hresolved =>
      by_cases hdrive : ∃ e es, n = 0 ∧ ts = e :: es ∧ d.volume e = .drive
      · obtain ⟨e, es, rfl, rfl, hdrive⟩ := hdrive
        cases d with
        | posix => cases hdrive
        | windows => exact clean_way_drive_iff hes hresolved hdrive
      · refine iff_of_true (clean_way_elements hes hresolved hne ?_) fun hunclean => ?_
        · exact fun e es hn hts hvol => hdrive ⟨e, es, hn, hts, hvol⟩
        · cases hunclean with
          | dotBelow => exact (hes _ List.mem_cons_self).ne_dot rfl
          | dotInFront _ => exact (hes _ List.mem_cons_self).ne_dot rfl
          | driveAlone hvol _ => exact hdrive ⟨_, _, rfl, rfl, hvol⟩
          | dotBehindDrive hvol _ => exact hdrive ⟨_, _, rfl, rfl, hvol⟩
  | dot =>
      cases n with
      | zero =>
          refine iff_of_true (by cases d <;> decide) fun hunclean => ?_
          cases hunclean with
          | driveAlone hvol _ => cases d <;> cases hvol
      | succ n => exact iff_of_false (clean_way_dotBelow TargetForm.dot.isRun) fun h => h .dotBelow
  | guarded hd hes hparent =>
      subst hd
      cases n with
      | zero =>
          rw [clean_way_guarded_iff hes hparent, ← not_iff_not, not_not]
          constructor
          · exact .dotInFront
          · intro hunclean
            cases hunclean with
            | dotInFront hcolon => exact hcolon
            | dotBehindDrive hvol _ => cases hvol
      | succ n =>
          exact iff_of_false (clean_way_dotBelow (TargetForm.guarded rfl hes hparent).isRun)
            fun h => h .dotBelow

/-! ## Relative paths that are cleaned -/

/-- A POSIX path is cleaned to `.` when it has no root and resolving leaves no element. -/
theorem clean_posix_eq_dot_iff {p : Text} : posix.clean p = ['.'] ↔
    posix.isRooted p = false ∧ posix.resolvedElements p = [] := by
  have hdot : posix.normalForm [] = ['.'] := by decide
  rw [clean_posix, ← hdot, normalForm_eq_iff]
  exact Iff.rfl

/-- Under the POSIX dialect the way to a target `.` is all that is not cleaned. -/
theorem clean_rel_posix_iff (h : posix.rel base target = .ok r) :
    posix.clean r = r ↔ posix.clean target = posix.clean base ∨ posix.clean target ≠ ['.'] := by
  by_cases hclean : posix.clean target = posix.clean base
  · rw [rel_of_sameWord (sameWord_posix_iff.2 hclean)] at h
    rw [← Except.ok.inj h]
    exact iff_of_true (by decide) (.inl hclean)
  rw [or_iff_right hclean, Ne, clean_posix_eq_dot_iff]
  have hrooted : posix.isRooted base = posix.isRooted target := by
    by_contra hne
    rw [rel_posix_of_rooted_ne hne] at h
    cases h
  obtain ⟨cs, bs, ts, hcb, hct, -, hends, hrel⟩ := rel_posix_eq hclean hrooted
  have hway : r = posix.way bs.length ts := by
    rw [hrel] at h
    split at h
    · cases h
    · exact (Except.ok.inj h).symm
  rw [hway]
  by_cases hnil : posix.isRooted target = false ∧ posix.resolvedElements target = []
  · refine iff_of_false ?_ fun h => h hnil
    rw [targetRuns, if_pos hnil, List.singleton_eq_append_iff] at hct
    rcases hct with ⟨rfl, rfl⟩ | ⟨rfl, rfl⟩
    -- The base has names left, or it would be cleaned to a `.` as well.
    · have hne : bs.length ≠ 0 := by
        intro hlength
        rw [List.length_eq_zero_iff.1 hlength] at hcb
        exact hclean ((clean_posix_eq_dot_iff.2 hnil).trans
          (clean_posix_eq_dot_iff.2 ⟨hrooted.trans hnil.1, hcb⟩).symm)
      obtain ⟨n, hn⟩ := Nat.exists_eq_succ_of_ne_zero hne
      rw [hn]
      exact clean_way_dotBelow TargetForm.dot.isRun
    · have hdot : ['.'] ∈ posix.resolvedElements base := by
        rw [hcb]
        exact List.mem_cons_self
      exact absurd rfl (isElement_of_mem_resolvedElements hdot).ne_dot
  · refine iff_of_true ?_ hnil
    rw [targetRuns, if_neg hnil] at hct
    have hresolved := resolvedElements_resolved posix target
    rw [hct] at hresolved
    rw [clean_posix]
    refine normalForm_way (fun e he => isElement_of_mem_resolvedElements (t := target) ?_)
      hresolved.of_append_right fun hne => hends ⟨List.length_eq_zero_iff.1 hne.1, hne.2⟩
    rw [hct]
    exact List.mem_append_right _ he

/-- The path from a base to a target is cleaned, unless the two differ and the way along what is
left of them is not. -/
theorem clean_rel_iff (h : d.rel base target = .ok r) :
    d.clean r = r ↔ d.sameWord (d.clean target) (d.clean base) = true ∨
      ¬ d.Unclean (d.partsLeft base target).1.length (d.partsLeft base target).2 := by
  by_cases hsame : d.sameWord (d.clean target) (d.clean base) = true
  · have hdot : r = ['.'] := by
      rw [rel_of_sameWord hsame] at h
      exact (Except.ok.inj h).symm
    rw [hdot]
    exact iff_of_true (by cases d <;> decide) (.inl hsame)
  · rw [or_iff_right hsame]
    obtain ⟨hform, hway⟩ := rel_eq_partsLeft h (Bool.eq_false_iff.2 hsame)
    rw [hway]
    refine clean_way_iff hform ?_
    rintro ⟨hup, hdown⟩
    rw [hup, hdown] at hway
    exact rel_ne_nil h hway

/-- The guard of a target is kept where nothing stands in front of it. -/
theorem clean_rel_iff_guarded :
    windows.rel ['.'] ".\\c:\\x".toList = .ok ".\\c:\\x".toList ∧
      windows.clean ".\\c:\\x".toList = ".\\c:\\x".toList := by
  have hrel : windows.rel ['.'] ".\\c:\\x".toList = .ok ".\\c:\\x".toList := by
    have hbase : windows.relativeBase ['.'] = windows.spell false ([] ++ []) := by decide
    have htarget : windows.relativeTarget ".\\c:\\x".toList =
        windows.spell false ([] ++ [['.'], ['c', ':'], ['x']]) := by decide +kernel
    rw [rel_eq hbase htarget (by decide) (by decide) ⟨rfl, by decide⟩]
    decide +kernel
  refine ⟨hrel, (clean_rel_iff hrel).2 (.inr ?_)⟩
  have hleft : windows.partsLeft ['.'] ".\\c:\\x".toList = ([], [['.'], ['c', ':'], ['x']]) := by
    decide +kernel
  rw [hleft]
  intro hunclean
  cases hunclean with
  | dotInFront hcolon => exact hcolon (by decide)
  | dotBehindDrive hvol _ => cases hvol

/-- From a directory to the one it is in. -/
theorem rel_not_cleaned :
    posix.rel ['a'] ['.'] = .ok "../.".toList ∧ posix.clean "../.".toList = "..".toList := by
  have hbase : posix.relativeBase ['a'] = posix.spell false ([] ++ [['a']]) := by decide
  have htarget : posix.relativeTarget ['.'] = posix.spell false ([] ++ [['.']]) := by decide
  refine ⟨?_, by decide⟩
  rw [rel_eq hbase htarget (by decide) (by decide) ⟨rfl, by decide⟩]
  decide

end Dialect

end PathAlgebra
