import Mathlib.Data.Nat.Find
import Mathlib.Logic.Function.Iterate
import PathAlgebra.Proofs.RelativeAnswers
import PathAlgebra.Proofs.RelativePosix
import PathAlgebra.Proofs.RelativeWindows

/-!
# Where the search for a difference ends

The path from a base to a target is found by comparing both one element at a time. A round compares
the first elements of what is left of them and drops these elements (`nextRest`); the first round
with different names ends the search. Nothing is left of either path after as many rounds as they
have characters (`exists_iterate_nextRest`), and from then on nothing is compared with nothing. So
the search has an answer exactly when some round has different names
(`firstDifference_eq_none_iff`).

The search is only made for paths that differ as a whole (`Compared`). If no round tells them apart,
what is compared of both is the same name by name (`exists_spell_of_not_reaches`). For POSIX paths
that makes them the same path. For ASCII Windows paths it leaves one case: a bare share is compared
as its root, so it is not told apart from the share with its root separator behind it
(`difference_reached`).
-/

set_option autoImplicit false

namespace PathAlgebra

namespace Dialect

variable {d : Dialect} {p base target : Text} {q r : Text × Text}

/-! ## Rounds -/

/-- What is left of a base and a target for the next round. -/
def nextRest (d : Dialect) (q : Text × Text) : Text × Text :=
  ((d.afterFirst q.1).tail, (d.afterFirst q.2).tail)

/-- What is left of a base and a target starts with different names. -/
def Differ (d : Dialect) (q : Text × Text) : Prop :=
  d.sameWord (d.firstElement q.2) (d.firstElement q.1) = false

instance (d : Dialect) (q : Text × Text) : Decidable (d.Differ q) :=
  inferInstanceAs (Decidable (_ = _))

@[simp] theorem nextRest_nil (d : Dialect) : d.nextRest ([], []) = ([], []) := rfl

@[simp] theorem iterate_nextRest_nil (d : Dialect) (n : Nat) : d.nextRest^[n] ([], []) = ([], []) :=
  Function.iterate_fixed (nextRest_nil d) n

theorem not_differ_nil (d : Dialect) : ¬ d.Differ ([], []) := by
  rw [Differ, Bool.not_eq_false]
  exact sameWord_self d []

theorem length_tail_afterFirst_le (d : Dialect) (t : Text) :
    (d.afterFirst t).tail.length ≤ t.length - 1 := by
  rw [List.length_tail]
  exact Nat.sub_le_sub_right (d.afterFirst_length_le t) 1

/-- Each round takes a character off what is left, if there is one. -/
theorem length_iterate_nextRest_le (d : Dialect) (q : Text × Text) (n : Nat) :
    (d.nextRest^[n] q).1.length ≤ q.1.length - n ∧
      (d.nextRest^[n] q).2.length ≤ q.2.length - n := by
  induction n with
  | zero => exact ⟨le_rfl, le_rfl⟩
  | succ n ih =>
      rw [Function.iterate_succ_apply']
      have hbase := d.length_tail_afterFirst_le (d.nextRest^[n] q).1
      have htarget := d.length_tail_afterFirst_le (d.nextRest^[n] q).2
      simp only [nextRest]
      omega

theorem exists_iterate_nextRest (d : Dialect) (q : Text × Text) :
    ∃ n, d.nextRest^[n] q = ([], []) := by
  refine ⟨q.1.length + q.2.length, ?_⟩
  obtain ⟨hbase, htarget⟩ := d.length_iterate_nextRest_le q (q.1.length + q.2.length)
  exact Prod.ext (List.length_eq_zero_iff.1 (by omega)) (List.length_eq_zero_iff.1 (by omega))

/-! ## The answer of the search -/

/-- A round with the same names changes nothing in the answer. -/
theorem firstDifference_nextRest (h : ¬ d.Differ q) :
    d.firstDifference q.1 q.2 = d.firstDifference (d.nextRest q).1 (d.nextRest q).2 := by
  have hsame : d.sameWord (d.firstElement q.2) (d.firstElement q.1) = true :=
    Bool.of_not_eq_false h
  by_cases hends : d.afterFirst q.1 = [] ∧ d.afterFirst q.2 = []
  · have hnext : d.nextRest q = ([], []) := by rw [nextRest, hends.1, hends.2]; rfl
    rw [hnext, firstDifference_of_ends hsame hends.1 hends.2,
      firstDifference_of_ends (sameWord_self d []) rfl rfl]
  · exact firstDifference_of_eq hsame (not_and_or.1 hends)

/-- Neither do any number of them. -/
theorem firstDifference_iterate (n : Nat) (h : ∀ m < n, ¬ d.Differ (d.nextRest^[m] q)) :
    d.firstDifference q.1 q.2 =
      d.firstDifference (d.nextRest^[n] q).1 (d.nextRest^[n] q).2 := by
  induction n with
  | zero => rfl
  | succ n ih =>
      rw [ih fun m hm => h m (hm.trans (Nat.lt_succ_self n)), Function.iterate_succ_apply']
      exact firstDifference_nextRest (h n (Nat.lt_succ_self n))

/-- The answer is what is left when the first round with different names begins. -/
theorem exists_firstDifference (h : ∃ n, d.Differ (d.nextRest^[n] q)) :
    ∃ n, d.firstDifference q.1 q.2 = some (d.nextRest^[n] q) ∧ d.Differ (d.nextRest^[n] q) := by
  refine ⟨Nat.find h, ?_, Nat.find_spec h⟩
  rw [firstDifference_iterate (Nat.find h) fun m hm => Nat.find_min h hm]
  exact firstDifference_of_ne (Nat.find_spec h)

/-- There is no answer exactly when no round has different names. -/
theorem firstDifference_eq_none_iff :
    d.firstDifference q.1 q.2 = none ↔ ∀ n, ¬ d.Differ (d.nextRest^[n] q) := by
  constructor
  · intro hnone
    by_contra! hdiffer
    obtain ⟨n, hanswer, -⟩ := exists_firstDifference hdiffer
    rw [hnone] at hanswer
    cases hanswer
  · intro h
    obtain ⟨n, hn⟩ := d.exists_iterate_nextRest q
    rw [firstDifference_iterate n fun m _ => h m, hn]
    exact firstDifference_of_ends (sameWord_self d []) rfl rfl

/-- The answer starts with different names. -/
theorem differ_of_firstDifference (h : d.firstDifference q.1 q.2 = some r) : d.Differ r := by
  have hreached : ∃ n, d.Differ (d.nextRest^[n] q) := by
    by_contra! hnone
    rw [firstDifference_eq_none_iff.2 hnone] at h
    cases h
  obtain ⟨n, hanswer, hdiffer⟩ := exists_firstDifference hreached
  rw [h] at hanswer
  rw [Option.some.inj hanswer]
  exact hdiffer

/-- A relative path is a `.` between paths that are the same, and else it goes on from the first
difference. -/
theorem rel_cases (h : d.rel base target = .ok p) :
    p = ['.'] ∨ ∃ q, d.firstDifference (d.relativeBase base) (d.relativeTarget target) = some q ∧
      p = d.ascend q.1 q.2 := by
  rw [rel] at h
  split at h
  · exact .inl (Except.ok.inj h).symm
  · simp only at h
    split at h
    · cases h
    · split at h
      · cases h
      · next b t hanswer =>
        split at h
        · cases h
        · exact .inr ⟨(b, t), hanswer, (Except.ok.inj h).symm⟩

/-- Without an answer the reason names the two paths. -/
theorem rel_error_cases {reason : RelativeError} (h : d.rel base target = .error reason) :
    reason = .unrelated base target ∨ reason = .noDifference base target := by
  rw [rel] at h
  split at h
  · cases h
  · simp only at h
    split at h
    · exact .inl (Except.error.inj h).symm
    · split at h
      · exact .inr (Except.error.inj h).symm
      · split at h
        · exact .inl (Except.error.inj h).symm
        · cases h

theorem rel_ne_nil (h : d.rel base target = .ok p) : p ≠ [] := by
  rcases rel_cases h with rfl | ⟨⟨b, t⟩, hanswer, rfl⟩
  · exact List.cons_ne_nil _ _
  · cases b with
    | cons c b => exact List.cons_ne_nil _ _
    | nil =>
        -- With nothing left of both, nothing would be told from nothing.
        rintro rfl
        exact not_differ_nil d (differ_of_firstDifference
          (q := (d.relativeBase base, d.relativeTarget target)) hanswer)

/-! ## The search between two paths -/

/-- A base and a target that a difference is looked for between: they are not the same path, and
neither their roots nor their volumes tell them apart. -/
structure Compared (d : Dialect) (base target : Text) : Prop where
  differ : d.sameWord (d.clean target) (d.clean base) = false
  roots : ((d.relativeBase base).head? == some d.sep) =
    ((d.relativeTarget target).head? == some d.sep)
  volumes : d.sameWord (d.volumeName base) (d.volumeName target) = true

/-- What is left of a base and a target after a number of rounds. -/
def rests (d : Dialect) (base target : Text) (n : Nat) : Text × Text :=
  d.nextRest^[n] (d.relativeBase base, d.relativeTarget target)

/-- Some round has different names. -/
def ReachesDifference (d : Dialect) (base target : Text) : Prop :=
  ∃ n, d.Differ (d.rests base target n)

/-- Both paths are used up, and no round has different names. -/
structure UsedUp (d : Dialect) (base target : Text) : Prop where
  ends : ∃ n, ∀ m ≥ n, d.rests base target m = ([], [])
  same : ∀ n, ¬ d.Differ (d.rests base target n)

/-- Every search that reaches no difference uses both paths up. -/
theorem usedUp_iff : d.UsedUp base target ↔ ¬ d.ReachesDifference base target := by
  constructor
  · rintro h ⟨n, hn⟩
    exact h.same n hn
  · intro h
    refine ⟨?_, fun n hn => h ⟨n, hn⟩⟩
    obtain ⟨n, hn⟩ := d.exists_iterate_nextRest (d.relativeBase base, d.relativeTarget target)
    refine ⟨n, fun m hm => ?_⟩
    rw [rests, ← Nat.sub_add_cancel hm, Function.iterate_add_apply, hn, iterate_nextRest_nil]

theorem not_reachesDifference_iff : ¬ d.ReachesDifference base target ↔
    d.firstDifference (d.relativeBase base) (d.relativeTarget target) = none := by
  rw [ReachesDifference, not_exists]
  exact (firstDifference_eq_none_iff (q := (d.relativeBase base, d.relativeTarget target))).symm

theorem rel_eq_noDifference_iff : d.rel base target = .error (.noDifference base target) ↔
    d.Compared base target ∧ ¬ d.ReachesDifference base target := by
  rw [not_reachesDifference_iff, rel]
  constructor
  · intro h
    split at h
    · cases h
    · next hdiffer =>
      simp only at h
      split at h
      · cases h
      · next hunrelated =>
        rw [Bool.not_eq_true, Bool.or_eq_false_iff, bne_eq_false_iff_eq, Bool.not_eq_false']
          at hunrelated
        split at h
        · next hsearch => exact ⟨⟨Bool.eq_false_iff.2 hdiffer, hunrelated.1, hunrelated.2⟩, hsearch⟩
        · split at h <;> cases h
  · rintro ⟨⟨hdiffer, hroots, hvolumes⟩, hsearch⟩
    rw [hdiffer, if_neg Bool.false_ne_true]
    simp [hroots, hvolumes, hsearch]

/-- If no round has different names, the base and the target are compared as the same names behind
the same root. -/
theorem exists_spell_of_not_reaches (h : d.Compared base target)
    (hnone : ¬ d.ReachesDifference base target) :
    ∃ rooted cs cs', d.relativeBase base = d.spell rooted cs ∧
      d.relativeTarget target = d.spell rooted cs' ∧ cs.map d.nameKey = cs'.map d.nameKey := by
  obtain ⟨rb, es, hbase, hes⟩ := spelledFromRuns_base d base
  obtain ⟨rt, fs, htarget, hfs⟩ := spelledFromRuns_target d target
  have hroots := h.roots
  rw [hbase, htarget, head_beq_sep_spell hes, head_beq_sep_spell hfs] at hroots
  subst hroots
  obtain ⟨cs, bs, cs', ts, rfl, rfl, hparting⟩ := exists_parting d es fs
  rw [not_reachesDifference_iff, hbase, htarget, firstDifference_spell hparting hes hfs] at hnone
  -- Names left of either would be a difference.
  by_cases hends : bs = [] ∧ ts = []
  · refine ⟨rb, cs, cs', ?_, ?_, hparting.shared⟩
    · rw [hbase, hends.1, List.append_nil]
    · rw [htarget, hends.2, List.append_nil]
  · rw [if_neg hends] at hnone
    cases hnone

/-- What is compared of a base is what follows its volume once it is cleaned, but nothing for a `.`
and the root for a bare share. -/
theorem relativeBase_cases (d : Dialect) (p : Text) :
    (d.relativeTarget p = ['.'] ∧ d.relativeBase p = []) ∨
      (d.relativeTarget p = [] ∧ (d.volume p).isShare = true ∧ d.relativeBase p = [d.sep]) ∨
      d.relativeBase p = d.relativeTarget p := by
  rw [relativeBase, ← relativeTarget]
  split
  · next h => exact .inl ⟨h, rfl⟩
  · next h =>
    cases hshare : (d.volume p).isShare with
    | true => exact .inr (.inl ⟨h, rfl, rfl⟩)
    | false => exact .inr (.inr h.symm)
  · exact .inr (.inr rfl)

/-! ## POSIX paths -/

theorem reachesDifference_posix (h : posix.Compared base target) :
    posix.ReachesDifference base target := by
  by_contra hnone
  obtain ⟨rooted, cs, cs', hbase, htarget, hkeys⟩ := exists_spell_of_not_reaches h hnone
  have hkey : posix.nameKey = id := rfl
  rw [hkey, List.map_id, List.map_id] at hkeys
  have hsame : posix.relativeBase base = posix.relativeTarget target := by
    rw [hbase, htarget, hkeys]
  have hclean (p : Text) : posix.relativeTarget p = posix.clean p := List.drop_zero
  rcases relativeBase_cases posix base with ⟨-, hnil⟩ | ⟨-, hshare, -⟩ | heq
  · rw [hsame, hclean, clean_posix] at hnil
    exact normalForm_ne_nil posix target hnil
  · cases hshare
  · have hdiffer := h.differ
    rw [← hclean, ← hclean, ← hsame, heq, sameWord_self] at hdiffer
    cases hdiffer

/-! ## Windows paths -/

/-- The cleaned base is a bare share, and the cleaned target is this share in some letter case with
its root separator behind it. -/
structure ShareAndRoot (base target : Text) : Prop where
  share : IsBareShare (windows.clean base)
  root : ∃ s, windows.clean target = s ++ [windows.sep] ∧
    s.map Char.toLower = (windows.clean base).map Char.toLower

theorem tail_clean (p : Text) : windows.tail (windows.clean p) = windows.relativeTarget p := by
  rw [tail, (cleanForm p).volumeLength_eq, relativeTarget]

theorem clean_eq_volumeName_append (p : Text) :
    windows.clean p = windows.volumeName p ++ windows.relativeTarget p := by
  rw [← (cleanForm p).take_eq, relativeTarget, List.take_append_drop]

/-- Nothing follows the volume of a cleaned path only behind a bare share. -/
theorem isShare_of_relativeTarget_eq_nil (h : windows.relativeTarget p = []) :
    (windows.volume p).isShare = true := by
  have hform := cleanForm p
  have htail := tail_clean p
  rw [h] at htail
  generalize windows.clean p = q at hform htail
  have hvolume := hform.volume_eq
  -- Without a volume there would be nothing at all.
  have hsome : windows.volume p ≠ .none := by
    intro hnone
    rw [tail_eq_self (hvolume.trans hnone)] at htail
    exact hform.ne_nil htail
  cases hform with
  | share hvol _ =>
      rw [hvol]
      rfl
  | behind _ _ =>
      exact absurd ((volumeName_append hvolume).2.symm.trans htail) (normalForm_ne_nil windows _)
  | plain hvol _ => exact absurd hvol hsome
  | guarded hvol _ => exact absurd hvol hsome

theorem isBareShare_clean_iff :
    IsBareShare (windows.clean p) ↔ windows.relativeTarget p = [] := by
  rw [IsBareShare, (cleanForm p).volume_eq, tail_clean]
  exact ⟨And.right, fun h => ⟨isShare_of_relativeTarget_eq_nil h, h⟩⟩

/-- A bare share is compared as its root. -/
theorem relativeBase_of_bareShare (h : windows.relativeTarget p = []) :
    windows.relativeBase p = [windows.sep] := by
  rw [relativeBase, ← relativeTarget, h, isShare_of_relativeTarget_eq_nil h]
  rfl

/-- ASCII names are the same when they differ in letter case only. -/
theorem sameWord_iff_toLower {t u : Text} (ht : IsAscii t) (hu : IsAscii u) :
    windows.sameWord t u = true ↔ t.map Char.toLower = u.map Char.toLower := by
  rw [sameWord_iff]
  exact lowerCase_eq_iff ht hu

/-- Volumes in other letter case are the same kind of volume. -/
theorem volume_eq_of_toLower
    (h : (windows.volumeName base).map Char.toLower =
      (windows.volumeName target).map Char.toLower) :
    windows.volume base = windows.volume target := by
  rw [← volume_volumeName base, ← volume_volumeName target, volume_congr_toLower h]

/-- In terms of what is compared: the volumes are the same, nothing follows that of the base, and
the root follows that of the target. -/
theorem shareAndRoot_iff : ShareAndRoot base target ↔
    windows.relativeTarget base = [] ∧ windows.relativeTarget target = [windows.sep] ∧
      (windows.volumeName base).map Char.toLower =
        (windows.volumeName target).map Char.toLower := by
  have hclean (hbare : windows.relativeTarget base = []) :
      windows.clean base = windows.volumeName base := by
    rw [clean_eq_volumeName_append, hbare, List.append_nil]
  constructor
  · rintro ⟨hshare, s, htarget, hlower⟩
    have hbare := isBareShare_clean_iff.1 hshare
    rw [hclean hbare] at hlower
    -- The separator ends the share, so all in front of it is the volume.
    have hvolume : windows.volume target = windows.volume base := by
      rw [← (cleanForm target).volume_eq, htarget, ← keepsVolumes_toLower.volume_map,
        List.map_append, hlower, ← List.map_append, keepsVolumes_toLower.volume_map]
      exact volume_volumeName_append (fun _ => rfl) fun _ => .inr rfl
    have hlength : windows.volumeLength target = s.length := by
      rw [volumeLength, hvolume, ← volumeLength, ← volumeName_length,
        ← List.length_map Char.toLower, ← hlower, List.length_map]
    refine ⟨hbare, ?_, ?_⟩
    · rw [relativeTarget, htarget, hlength, List.drop_left]
    · rw [← hlower, ← (cleanForm target).take_eq, htarget, hlength, List.take_left]
  · rintro ⟨hbare, hroot, hlower⟩
    refine ⟨isBareShare_clean_iff.2 hbare, windows.volumeName target, ?_, ?_⟩
    · rw [← hroot, ← clean_eq_volumeName_append]
    · rw [hclean hbare, hlower]

theorem isAscii_relativeTarget (h : IsAscii p) : IsAscii (windows.relativeTarget p) :=
  fun c hc => isAscii_clean h c ((List.drop_sublist _ _).subset hc)

theorem isAscii_relativeBase (h : IsAscii p) : IsAscii (windows.relativeBase p) := by
  rcases relativeBase_cases windows p with ⟨-, heq⟩ | ⟨-, -, heq⟩ | heq
  · rw [heq]
    decide
  · rw [heq]
    decide
  · rw [heq]
    exact isAscii_relativeTarget h

/-- Names that are spelled in an ASCII text are ASCII. -/
theorem isAscii_of_mem_spell {rooted : Bool} {es : List Text}
    (h : IsAscii (windows.spell rooted es)) : ∀ e ∈ es, IsAscii e :=
  fun _ he c hc => h c (List.mem_append_right _ (mem_intercalate_of_mem he hc))

theorem shareAndRoot_of_not_reaches (hbaseAscii : IsAscii base) (htargetAscii : IsAscii target)
    (h : windows.Compared base target) (hnone : ¬ windows.ReachesDifference base target) :
    ShareAndRoot base target := by
  obtain ⟨rooted, cs, cs', hbase, htarget, hkeys⟩ := exists_spell_of_not_reaches h hnone
  have hsame : (windows.relativeBase base).map Char.toLower =
      (windows.relativeTarget target).map Char.toLower := by
    have hnames := map_toLower_of_nameKey hkeys
      (isAscii_of_mem_spell (hbase ▸ isAscii_relativeBase hbaseAscii))
      (isAscii_of_mem_spell (htarget ▸ isAscii_relativeTarget htargetAscii))
    rw [hbase, htarget, ← spell_toLower, ← spell_toLower, hnames]
  have hvolume : (windows.volumeName base).map Char.toLower =
      (windows.volumeName target).map Char.toLower :=
    (sameWord_iff_toLower (isAscii_volumeName hbaseAscii) (isAscii_volumeName htargetAscii)).1
      h.volumes
  rcases relativeBase_cases windows base with ⟨hdot, hnil⟩ | ⟨hbare, -, hsep⟩ | heq
  -- A bare share as the target, but as the base something follows the share that is no root.
  · rw [hnil, List.map_nil, eq_comm, List.map_eq_nil_iff] at hsame
    have hshare := isShare_of_relativeTarget_eq_nil hsame
    rw [← volume_eq_of_toLower hvolume, ← (cleanForm base).volume_eq] at hshare
    rcases isRooted_tail_of_share hshare with htail | htail
    · rw [tail_clean, hdot] at htail
      cases htail
    · rw [tail_clean, hdot] at htail
      cases htail
  -- The root of a bare share and the root behind it.
  · refine shareAndRoot_iff.2 ⟨hbare, ?_, hvolume⟩
    have hroots := h.roots
    rw [hsep] at hroots hsame
    obtain ⟨c, ht, -⟩ := List.map_eq_singleton_iff.1 hsame.symm
    rw [ht] at hroots ⊢
    simpa using hroots
  -- Otherwise the two paths would be the same.
  · have hclean : (windows.clean target).map Char.toLower =
        (windows.clean base).map Char.toLower := by
      rw [clean_eq_volumeName_append, clean_eq_volumeName_append base, List.map_append,
        List.map_append, hvolume, ← heq, hsame]
    have hdiffer := h.differ
    rw [(sameWord_iff_toLower (isAscii_clean htargetAscii) (isAscii_clean hbaseAscii)).2 hclean]
      at hdiffer
    cases hdiffer

theorem ShareAndRoot.compared (h : ShareAndRoot base target) (hbaseAscii : IsAscii base)
    (htargetAscii : IsAscii target) : windows.Compared base target := by
  obtain ⟨hbare, hroot, hvolume⟩ := shareAndRoot_iff.1 h
  refine ⟨?_, ?_, ?_⟩
  -- The cleaned target is longer by the separator.
  · rw [Bool.eq_false_iff, Ne,
      sameWord_iff_toLower (isAscii_clean htargetAscii) (isAscii_clean hbaseAscii)]
    intro hlower
    rw [clean_eq_volumeName_append, clean_eq_volumeName_append base, hbare, hroot,
      List.append_nil, List.map_append, hvolume, List.append_right_eq_self] at hlower
    cases hlower
  · rw [relativeBase_of_bareShare hbare, hroot]
  · exact (sameWord_iff_toLower (isAscii_volumeName hbaseAscii)
      (isAscii_volumeName htargetAscii)).2 hvolume

theorem ShareAndRoot.usedUp (h : ShareAndRoot base target) : windows.UsedUp base target := by
  obtain ⟨hbare, hroot, -⟩ := shareAndRoot_iff.1 h
  rw [usedUp_iff, not_reachesDifference_iff, relativeBase_of_bareShare hbare, hroot,
    firstDifference_sep_cons]
  exact firstDifference_of_ends (sameWord_self windows []) rfl rfl

/-- A relative path is missing for want of a difference exactly when a search is made that reaches
none. Between two POSIX paths every search reaches one. Between two ASCII Windows paths it does so
unless the base is a bare share and the target the same share with its root separator; then a search
is made, and both are used up without a difference. -/
theorem difference_reached (base target : Text) :
    (∀ d : Dialect, d.rel base target = .error (.noDifference base target) ↔
      d.Compared base target ∧ ¬ d.ReachesDifference base target) ∧
      (posix.Compared base target → posix.ReachesDifference base target) ∧
      (IsAscii base → IsAscii target →
        (windows.Compared base target →
          (windows.ReachesDifference base target ↔ ¬ ShareAndRoot base target)) ∧
        (ShareAndRoot base target →
          windows.Compared base target ∧ windows.UsedUp base target)) := by
  refine ⟨fun d => rel_eq_noDifference_iff, reachesDifference_posix,
    fun hbase htarget => ⟨fun h => ⟨?_, ?_⟩, fun h => ⟨?_, ?_⟩⟩⟩
  · exact fun hreached hroot => usedUp_iff.1 hroot.usedUp hreached
  · intro hroot
    by_contra hnone
    exact hroot (shareAndRoot_of_not_reaches hbase htarget h hnone)
  · exact h.compared hbase htarget
  · exact h.usedUp

/-- Between siblings, on a drive that is written in other letter case, and from a bare share to its
root. -/
theorem difference_reached_cases :
    posix.ReachesDifference ['a'] ['b'] ∧
      windows.ReachesDifference "C:\\a".toList "c:\\b".toList ∧
      windows.Compared "\\\\h\\s".toList "//H/S/".toList ∧
      windows.UsedUp "\\\\h\\s".toList "//H/S/".toList := by
  have hposix : posix.Compared ['a'] ['b'] := ⟨by decide, by decide, by decide⟩
  have hdrive : windows.Compared "C:\\a".toList "c:\\b".toList := ⟨by decide, by decide, by decide⟩
  have hroot : ShareAndRoot "\\\\h\\s".toList "//H/S/".toList :=
    ⟨by decide, "\\\\H\\S".toList, by decide, by decide⟩
  refine ⟨(difference_reached _ _).2.1 hposix, ?_, ?_⟩
  · refine (((difference_reached _ _).2.2 (by decide) (by decide)).1 hdrive).2 fun h => ?_
    exact absurd h.share (by decide)
  · exact ((difference_reached _ _).2.2 (by decide) (by decide)).2 hroot

end Dialect

end PathAlgebra
