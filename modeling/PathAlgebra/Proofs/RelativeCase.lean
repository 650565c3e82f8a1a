import PathAlgebra.Proofs.RelativeCleaning

/-!
# Relative paths and the letter case of the base

Windows names are compared without letter case, so the answer should not depend on the case in which
the base is written. It depends on it through the guard of the cleaned base only
(`rel_letter_case_iff`). A guard is put in front where the overlay has diverged from the path as
written, and that comparison is exact: erasing leads from `:a/../:a` back to its own beginning, and
from `:A/../:a` to another text. The guard counts as an element of the base (`baseRuns`), which is
climbed like any other.

Two spellings with the same guard have the same runs up to letter case, so the same names are shared
and the same way is left (`rel_congr_base`). With a guard in one of them only, the bases have runs
of different parity, and an answer gives the parity away (`length_runs_of_rel`): it has the runs of
both paths but for those they share, which are left out twice.
-/

set_option autoImplicit false

namespace PathAlgebra

/-- The same answer: the same path, or none for the same reason. -/
inductive SameAnswer : Except RelativeError Text → Except RelativeError Text → Prop where
  | found (r : Text) : SameAnswer (.ok r) (.ok r)
  | unrelated (base target base' target' : Text) :
      SameAnswer (.error (.unrelated base target)) (.error (.unrelated base' target'))
  | noDifference (base target base' target' : Text) :
      SameAnswer (.error (.noDifference base target)) (.error (.noDifference base' target'))

namespace Dialect

variable {d : Dialect} {base base' target p q r t : Text} {es : List Text}

/-! ## Runs of a base -/

/-- The runs that a Windows base is compared by: its resolved elements, behind a `.` if it is
guarded. -/
def baseRuns (p : Text) : List Text :=
  (if IsGuarded p then [['.']] else []) ++ windows.resolvedElements (windows.tail p)

theorem startsAtRoot_of_none (h : windows.volume p = .none) :
    startsAtRoot p = windows.isRooted p := by
  rw [startsAtRoot, h, tail_eq_self h]
  exact Bool.or_false _

theorem isRun_of_mem_guarded {e : Text} (he : e ∈ ['.'] :: windows.resolvedElements p) :
    IsRun windows e := by
  rcases List.mem_cons.1 he with rfl | he
  · exact isRun_dot windows
  · exact (isElement_of_mem_resolvedElements he).isRun

theorem clean_of_guarded (h : IsGuarded p) :
    windows.clean p = windows.spell (windows.isRooted p) (['.'] :: windows.resolvedElements p) :=
  h.clean_eq.trans (guarded_eq_spell h.guardFor_ne_nil)

theorem relativeBase_of_guarded (h : IsGuarded p) :
    windows.relativeBase p =
      windows.spell (windows.isRooted p) (['.'] :: windows.resolvedElements p) := by
  have htarget : windows.relativeTarget p =
      windows.spell (windows.isRooted p) (['.'] :: windows.resolvedElements p) := by
    rw [← clean_of_guarded h, relativeTarget, volumeLength_eq_zero_iff.2 h.1, List.drop_zero]
  rcases relativeBase_cases windows p with ⟨hdot, -⟩ | ⟨-, hshare, -⟩ | heq
  -- Behind the guard there are elements.
  · obtain ⟨e, es, helements, -⟩ := exists_cons_of_guard h.guardFor_ne_nil
    have hruns := congrArg windows.runs (htarget.symm.trans hdot)
    rw [runs_spell fun e he => isRun_of_mem_guarded he, runs_of_isRun (isRun_dot windows),
      helements] at hruns
    exact absurd (List.cons.inj hruns).2 (List.cons_ne_nil e es)
  · rw [h.1] at hshare
    cases hshare
  · rw [heq, htarget]

theorem relativeBase_eq_spell (p : Text) :
    windows.relativeBase p = windows.spell (startsAtRoot p) (baseRuns p) := by
  by_cases h : IsGuarded p
  · rw [baseRuns, if_pos h, startsAtRoot_of_none h.1, tail_eq_self h.1]
    exact relativeBase_of_guarded h
  · rw [baseRuns, if_neg h]
    exact relativeBase_of_not_guarded h

theorem isRun_of_mem_baseRuns {e : Text} (he : e ∈ baseRuns p) : IsRun windows e := by
  rw [baseRuns] at he
  split at he
  · next h =>
    rw [tail_eq_self h.1] at he
    exact isRun_of_mem_guarded he
  · exact (isElement_of_mem_resolvedElements he).isRun

theorem runs_relativeBase (p : Text) : windows.runs (windows.relativeBase p) = baseRuns p := by
  rw [relativeBase_eq_spell]
  exact runs_spell fun e he => isRun_of_mem_baseRuns he

theorem isAscii_of_mem_baseRuns (h : IsAscii p) {e : Text} (he : e ∈ baseRuns p) : IsAscii e := by
  rcases List.mem_append.1 he with he | he
  · split at he
    · rw [List.mem_singleton.1 he]
      decide
    · cases he
  · exact isAscii_of_mem_resolvedElements h he

/-! ## Bases in another letter case -/

section OtherCase

variable (h : base.map Char.toLower = base'.map Char.toLower)

include h

theorem startsAtRoot_congr_toLower : startsAtRoot base = startsAtRoot base' := by
  rw [startsAtRoot, startsAtRoot, volume_congr_toLower h, isRooted_tail_congr_toLower h]

/-- With the same guard, or without one, the runs are the same up to letter case. -/
theorem baseRuns_congr_toLower (hguard : IsGuarded base ↔ IsGuarded base') :
    (baseRuns base).map (List.map Char.toLower) = (baseRuns base').map (List.map Char.toLower) := by
  rw [baseRuns, baseRuns, List.map_append, List.map_append, resolvedElements_congr_toLower h]
  simp only [hguard]

/-- And so is the cleaned path. -/
theorem clean_congr_toLower (hguard : IsGuarded base ↔ IsGuarded base') :
    (windows.clean base).map Char.toLower = (windows.clean base').map Char.toLower := by
  have hname := volumeName_congr_toLower h
  have hroot := isRooted_tail_congr_toLower h
  have helements := resolvedElements_congr_toLower h
  by_cases hg : IsGuarded base
  · have hg' := hguard.1 hg
    rw [tail_eq_self hg.1, tail_eq_self hg'.1] at hroot helements
    rw [clean_of_guarded hg, clean_of_guarded hg', ← spell_toLower, ← spell_toLower, hroot,
      List.map_cons, helements]
    rfl
  have hg' := mt hguard.2 hg
  by_cases hbare : IsBareShare base
  · rw [clean_of_bareShare hbare, clean_of_bareShare (isBareShare_of_toLower h hbare), hname]
  · have hbare' := mt (isBareShare_of_toLower h.symm) hbare
    rw [clean_of_not_guarded hg hbare, clean_of_not_guarded hg' hbare', List.map_append,
      List.map_append, hname, ← normalForm_toLower, ← normalForm_toLower, ← tail_toLower,
      ← tail_toLower, h]

end OtherCase

/-! ## The same guard -/

/-- Runs part from those of a target where runs with the same names do. -/
theorem Parting.exists_congr {cs bs cs' ts : List Text} (h : d.Parting cs bs cs' ts)
    (hkeys : es.map d.nameKey = (cs ++ bs).map d.nameKey) :
    ∃ as us, es = as ++ us ∧ us.map d.nameKey = bs.map d.nameKey ∧ d.Parting as us cs' ts := by
  rw [List.map_append] at hkeys
  obtain ⟨as, us, rfl, has, hus⟩ := List.map_eq_append_iff.1 hkeys
  refine ⟨as, us, rfl, hus, has.trans h.shared, ?_⟩
  rw [hus]
  intro hhead
  obtain ⟨hbs, hts⟩ := h.parts hhead
  rw [hbs, List.map_nil, List.map_eq_nil_iff] at hus
  exact ⟨hus, hts⟩

theorem head?_eq_parent_iff {bs us : List Text}
    (h : us.map (List.map Char.toLower) = bs.map (List.map Char.toLower)) :
    us.head? = some parentElement ↔ bs.head? = some parentElement := by
  have hhead := congrArg List.head? h
  rw [List.head?_map, List.head?_map] at hhead
  cases us with
  | nil =>
      cases bs with
      | nil => rfl
      | cons b bs => cases hhead
  | cons u us =>
      cases bs with
      | nil => cases hhead
      | cons b bs =>
          have hfirst : u.map Char.toLower = b.map Char.toLower := Option.some.inj hhead
          rw [List.head?_cons, List.head?_cons, Option.some_inj, Option.some_inj,
            ← map_toLower_eq_parent_iff u, hfirst, map_toLower_eq_parent_iff]

/-- Two spellings of a base with the same guard, or without one, have the same answers. -/
theorem rel_congr_base (hbase : IsAscii base) (hbase' : IsAscii base')
    (h : base.map Char.toLower = base'.map Char.toLower)
    (hguard : IsGuarded base ↔ IsGuarded base') :
    SameAnswer (windows.rel base target) (windows.rel base' target) := by
  obtain ⟨rt, fs, htarget, hfs⟩ := spelledFromRuns_target windows target
  obtain ⟨cs, bs, cs', ts, hcb, rfl, hparting⟩ := exists_parting windows (baseRuns base) fs
  have hascii : ∀ e ∈ cs ++ bs, IsAscii e := fun e he => isAscii_of_mem_baseRuns hbase (hcb ▸ he)
  have hascii' : ∀ e ∈ baseRuns base', IsAscii e := fun e he => isAscii_of_mem_baseRuns hbase' he
  have hkeys : (baseRuns base').map windows.nameKey = (cs ++ bs).map windows.nameKey := by
    rw [map_nameKey_of_isAscii hascii', map_nameKey_of_isAscii hascii, ← hcb,
      baseRuns_congr_toLower h hguard]
  obtain ⟨as, us, hau, hus, hparting'⟩ := hparting.exists_congr hkeys
  have hleft : us.map (List.map Char.toLower) = bs.map (List.map Char.toLower) :=
    map_toLower_of_nameKey hus (fun e he => hascii' e (hau ▸ List.mem_append_right _ he))
      fun e he => hascii e (List.mem_append_right _ he)
  have hlength : us.length = bs.length := by
    rw [← List.length_map (List.map Char.toLower), hleft, List.length_map]
  have hends : us = [] ∧ ts = [] ↔ bs = [] ∧ ts = [] := by
    rw [← List.length_eq_zero_iff, hlength, List.length_eq_zero_iff]
  have hparent := head?_eq_parent_iff hleft
  have hsame : windows.sameWord (windows.clean target) (windows.clean base') =
      windows.sameWord (windows.clean target) (windows.clean base) :=
    sameWord_congr rfl ((lowerCase_eq_iff (isAscii_clean hbase') (isAscii_clean hbase)).2
      (clean_congr_toLower h hguard).symm)
  have hvolume : windows.sameWord (windows.volumeName base') (windows.volumeName target) =
      windows.sameWord (windows.volumeName base) (windows.volumeName target) :=
    sameWord_congr ((lowerCase_eq_iff (isAscii_volumeName hbase') (isAscii_volumeName hbase)).2
      (volumeName_congr_toLower h).symm) rfl
  have hrel := rel_eq (hcb ▸ relativeBase_eq_spell base) htarget
    (fun e he => isRun_of_mem_baseRuns (hcb ▸ he)) hfs hparting
  have hrel' := rel_eq (hau ▸ relativeBase_eq_spell base') htarget
    (fun e he => isRun_of_mem_baseRuns (hau ▸ he)) hfs hparting'
  rw [hrel, hrel']
  simp only [hsame, hvolume, hends, hparent, hlength, startsAtRoot_congr_toLower h]
  split
  · exact .found _
  split
  · exact .unrelated _ _ _ _
  split
  · exact .noDifference _ _ _ _
  split
  · exact .unrelated _ _ _ _
  · exact .found _

/-! ## Different guards -/

/-- A path that can be guarded: it has no volume, and all its elements are names. -/
structure Guardable (p : Text) : Prop where
  no_volume : windows.volume p = .none
  ne_nil : windows.resolvedElements p ≠ []
  no_parent : parentElement ∉ windows.resolvedElements p

theorem IsGuarded.guardable (h : IsGuarded p) : Guardable p := by
  obtain ⟨e, es, helements, hparent⟩ := exists_cons_of_guard h.guardFor_ne_nil
  refine ⟨h.1, ?_, ?_⟩
  · rw [helements]
    exact List.cons_ne_nil e es
  · rw [helements]
    exact hparent

theorem Guardable.of_toLower (h : p.map Char.toLower = q.map Char.toLower) (hp : Guardable p) :
    Guardable q := by
  have hvol : windows.volume q = .none := (volume_congr_toLower h).symm.trans hp.no_volume
  have helements := resolvedElements_congr_toLower h
  rw [tail_eq_self hp.no_volume, tail_eq_self hvol] at helements
  refine ⟨hvol, ?_, ?_⟩
  · intro hnil
    rw [hnil, List.map_nil, List.map_eq_nil_iff] at helements
    exact hp.ne_nil helements
  · intro hm
    have hmem : parentElement ∈ (windows.resolvedElements p).map (List.map Char.toLower) := by
      rw [helements]
      exact List.mem_map.2 ⟨parentElement, hm, (map_toLower_eq_parent_iff _).2 rfl⟩
    obtain ⟨e, he, heq⟩ := List.mem_map.1 hmem
    rw [(map_toLower_eq_parent_iff e).1 heq] at he
    exact hp.no_parent he

/-- Spellings with different guards can both be guarded. -/
theorem guardable_of_differ (h : base.map Char.toLower = base'.map Char.toLower)
    (hguard : ¬ (IsGuarded base ↔ IsGuarded base')) : Guardable base ∧ Guardable base' := by
  by_cases hg : IsGuarded base
  · exact ⟨hg.guardable, hg.guardable.of_toLower h⟩
  · have hg' : IsGuarded base' := by
      by_contra hg'
      exact hguard (iff_of_false hg hg')
    exact ⟨hg'.guardable.of_toLower h.symm, hg'.guardable⟩

theorem Guardable.parent_notMem_baseRuns (h : Guardable p) : parentElement ∉ baseRuns p := by
  intro hm
  rw [baseRuns, tail_eq_self h.no_volume] at hm
  rcases List.mem_append.1 hm with hm | hm
  · split at hm
    · exact absurd (List.mem_singleton.1 hm) (by decide)
    · cases hm
  · exact h.no_parent hm

/-- What cleaned paths that are the same but for letter case have in common. -/
theorem root_and_volume_congr (h : (windows.clean p).map Char.toLower =
    (windows.clean q).map Char.toLower) :
    windows.isRooted (windows.tail p) = windows.isRooted (windows.tail q) ∧
      windows.volume p = windows.volume q := by
  have hroot := isRooted_tail_congr_toLower h
  have hvolume := volume_congr_toLower h
  rw [(cleanForm p).isRooted_tail_eq, (cleanForm q).isRooted_tail_eq] at hroot
  rw [(cleanForm p).volume_eq, (cleanForm q).volume_eq] at hvolume
  exact ⟨hroot, hvolume⟩

/-- From a base that can be guarded there is no path exactly to a target with a volume or another
root. -/
theorem Guardable.rel_unrelated_iff (h : Guardable base) (hbase : IsAscii base)
    (htarget : IsAscii target) :
    windows.rel base target = .error (.unrelated base target) ↔
      windows.isRooted base ≠ windows.isRooted (windows.tail target) ∨
        windows.volume target ≠ .none := by
  obtain ⟨rt, fs, hspell, hform⟩ := exists_targetForm windows target
  have hroot : rt = windows.isRooted (windows.tail target) := by
    rw [← (cleanForm target).isRooted_tail_eq, tail_clean, hspell,
      isRooted_spell_of_isRun hform.isRun]
  obtain ⟨cs, bs, cs', ts, hcb, rfl, hparting⟩ := exists_parting windows (baseRuns base) fs
  have hparent : bs.head? ≠ some parentElement := by
    intro hhead
    apply h.parent_notMem_baseRuns
    rw [hcb]
    exact List.mem_append_right _ (List.mem_of_mem_head? hhead)
  have hvolume : windows.sameWord (windows.volumeName base) (windows.volumeName target) = false ↔
      windows.volume target ≠ .none := by
    have hnil : windows.nameKey [] = [] := nameKey_eq_nil_iff.2 rfl
    rw [volumeName_eq_nil h.no_volume, ← Bool.not_eq_true, sameWord_iff, hnil, eq_comm,
      nameKey_eq_nil_iff, ← List.length_eq_zero_iff, volumeName_length, volumeLength_eq_zero_iff]
  rw [rel_eq (hcb ▸ relativeBase_eq_spell base) hspell
    (fun e he => isRun_of_mem_baseRuns (hcb ▸ he)) hform.isRun hparting]
  simp only [hvolume, hroot, startsAtRoot_of_none h.no_volume]
  by_cases hsame : windows.sameWord (windows.clean target) (windows.clean base) = true
  -- Paths that are the same have the same root, and neither has a volume.
  · obtain ⟨hroots, hvolumes⟩ := root_and_volume_congr
      ((sameWord_iff_toLower (isAscii_clean htarget) (isAscii_clean hbase)).1 hsame)
    rw [tail_eq_self h.no_volume] at hroots
    rw [if_pos hsame]
    refine iff_of_false (by simp) ?_
    rintro (hne | hne)
    · exact hne hroots.symm
    · exact hne (hvolumes.trans h.no_volume)
  · rw [if_neg hsame]
    by_cases hrelated : windows.isRooted base ≠ windows.isRooted (windows.tail target) ∨
        windows.volume target ≠ .none
    · rw [if_pos hrelated]
      exact iff_of_true rfl hrelated
    · rw [if_neg hrelated, if_neg hparent]
      refine iff_of_false ?_ hrelated
      split
      · simp
      · simp

/-- A search from a base that can be guarded is never without an answer. -/
theorem Guardable.rel_ne_noDifference (h : Guardable base) (hbase : IsAscii base)
    (htarget : IsAscii target) : windows.rel base target ≠ .error (.noDifference base target) := by
  intro hrel
  obtain ⟨hcompared, hnone⟩ := rel_eq_noDifference_iff.1 hrel
  have hshare := (shareAndRoot_of_not_reaches hbase htarget hcompared hnone).share.1
  rw [(cleanForm base).volume_eq, h.no_volume] at hshare
  cases hshare

/-! ## What an answer tells of the base -/

/-- An answer has the runs of both paths but for those that they share. -/
theorem length_runs_of_rel (h : d.rel base target = .ok r) (hdot : r ≠ ['.']) :
    ∃ n, (d.runs (d.relativeBase base)).length + (d.runs (d.relativeTarget target)).length =
      (d.runs r).length + 2 * n := by
  have hdiffer : d.sameWord (d.clean target) (d.clean base) = false := by
    rw [← Bool.not_eq_true]
    intro hsame
    rw [rel_of_sameWord hsame] at h
    exact hdot (Except.ok.inj h).symm
  obtain ⟨cs, bs, cs', ts, hbase, htarget, hparting, hts, rfl⟩ := rel_eq_way h hdiffer
  have hshared := congrArg List.length hparting.shared
  rw [List.length_map, List.length_map] at hshared
  refine ⟨cs.length, ?_⟩
  rw [hbase, htarget, runs_way hts, List.length_append, List.length_append, List.length_append,
    List.length_replicate]
  omega

/-- Only a target `.` ends with a run `.`. -/
theorem TargetForm.eq_nil_of_dot (h : TargetForm d (es ++ [['.']])) : es = [] := by
  generalize hfs : es ++ [['.']] = fs at h
  cases h with
  | elements helements _ =>
      exact absurd rfl (helements ['.'] (by rw [← hfs]; simp)).ne_dot
  | dot => simpa using hfs
  | guarded _ helements _ =>
      cases es with
      | nil => rfl
      | cons x es =>
          have hrest := (List.cons.inj hfs).2
          exact absurd rfl (helements ['.'] (by rw [← hrest]; simp)).ne_dot

/-- From a base with runs the answer is `.` only when both paths are the same. -/
theorem sameWord_of_rel_dot (h : d.rel base target = .ok ['.'])
    (hne : d.runs (d.relativeBase base) ≠ []) :
    d.sameWord (d.clean target) (d.clean base) = true := by
  by_contra hdiffer
  obtain ⟨cs, bs, cs', ts, hbase, htarget, hparting, hts, hway⟩ :=
    rel_eq_way h (Bool.eq_false_iff.2 hdiffer)
  -- The way has no `..`, so nothing is left of the base, and a `.` is left of the target.
  have hruns := congrArg d.runs hway
  rw [runs_of_isRun (isRun_dot d), runs_way hts] at hruns
  have hbs : bs = [] := by
    cases bs with
    | nil => rfl
    | cons b bs => exact absurd (List.cons.inj hruns).1 (by decide)
  rw [hbs, List.length_nil, List.replicate_zero, List.nil_append] at hruns
  obtain ⟨rooted, fs, hspell, hform⟩ := exists_targetForm d target
  rw [hspell, runs_spell hform.isRun, ← hruns] at htarget
  have hcs' := (htarget ▸ hform).eq_nil_of_dot
  have hcs := hparting.shared
  rw [hcs', List.map_nil, List.map_eq_nil_iff] at hcs
  rw [hbase, hbs, hcs] at hne
  exact hne rfl

/-- A path without a volume has a guard when it is cleaned to a longer text than its normal form. -/
theorem isGuarded_iff_length (hvol : windows.volume p = .none) :
    IsGuarded p ↔ (windows.clean p).length ≠ (windows.normalForm p).length := by
  constructor
  · intro h
    have hpos := List.length_pos_iff.2 h.guardFor_ne_nil
    rw [h.clean_eq, List.length_append]
    omega
  · exact fun h => ⟨hvol, fun heq => h (congrArg List.length heq)⟩

theorem length_baseRuns (p : Text) : (baseRuns p).length =
    (if IsGuarded p then 1 else 0) + (windows.resolvedElements (windows.tail p)).length := by
  rw [baseRuns, List.length_append]
  split
  · rfl
  · rfl

theorem Guardable.baseRuns_ne_nil (h : Guardable p) : baseRuns p ≠ [] := by
  rw [baseRuns, tail_eq_self h.no_volume]
  exact List.append_ne_nil_of_right_ne_nil _ h.ne_nil

/-- Spellings with the same answer have the same guard. -/
theorem isGuarded_iff_of_found (hbase : IsAscii base) (hbase' : IsAscii base')
    (htarget : IsAscii target) (h : base.map Char.toLower = base'.map Char.toLower)
    (hrel : windows.rel base target = .ok r) (hrel' : windows.rel base' target = .ok r) :
    IsGuarded base ↔ IsGuarded base' := by
  by_contra hguard
  obtain ⟨hb, hb'⟩ := guardable_of_differ h hguard
  by_cases hdot : r = ['.']
  -- Both are cleaned to the target but for letter case, and so to texts of the same length.
  · subst hdot
    have hclean {b : Text} (hascii : IsAscii b) (hb : Guardable b)
        (hrel : windows.rel b target = .ok ['.']) :
        (windows.clean b).length = (windows.clean target).length := by
      have hsame := sameWord_of_rel_dot hrel (by rw [runs_relativeBase]; exact hb.baseRuns_ne_nil)
      have hlower := (sameWord_iff_toLower (isAscii_clean htarget) (isAscii_clean hascii)).1 hsame
      simpa using (congrArg List.length hlower).symm
    have hnormal : (windows.normalForm base).length = (windows.normalForm base').length := by
      have hlower := congrArg windows.normalForm h
      rw [normalForm_toLower, normalForm_toLower] at hlower
      simpa using congrArg List.length hlower
    apply hguard
    rw [isGuarded_iff_length hb.no_volume, isGuarded_iff_length hb'.no_volume,
      hclean hbase hb hrel, hclean hbase' hb' hrel', hnormal]
  -- Otherwise the answer shows whether the number of runs is even.
  · obtain ⟨n, hn⟩ := length_runs_of_rel hrel hdot
    obtain ⟨n', hn'⟩ := length_runs_of_rel hrel' hdot
    have helements := congrArg List.length (resolvedElements_congr_toLower h)
    rw [List.length_map, List.length_map] at helements
    rw [runs_relativeBase, length_baseRuns] at hn hn'
    apply hguard
    by_cases hg : IsGuarded base
    · by_cases hg' : IsGuarded base'
      · exact iff_of_true hg hg'
      · rw [if_pos hg] at hn
        rw [if_neg hg'] at hn'
        omega
    · by_cases hg' : IsGuarded base'
      · rw [if_neg hg] at hn
        rw [if_pos hg'] at hn'
        omega
      · exact iff_of_false hg hg'

/-! ## Letter case -/

/-- Two ASCII bases that differ in letter case only have the same answers to an ASCII target exactly
when both of them are guarded or neither is, or when there is no path from them at all. -/
theorem rel_letter_case_iff (base base' target : Text) (hbase : IsAscii base)
    (hbase' : IsAscii base') (htarget : IsAscii target)
    (h : base.map Char.toLower = base'.map Char.toLower) :
    SameAnswer (windows.rel base target) (windows.rel base' target) ↔
      (IsGuarded base ↔ IsGuarded base') ∨
        windows.rel base target = .error (.unrelated base target) := by
  by_cases hguard : IsGuarded base ↔ IsGuarded base'
  · exact iff_of_true (rel_congr_base hbase hbase' h hguard) (.inl hguard)
  rw [or_iff_right hguard]
  obtain ⟨hb, hb'⟩ := guardable_of_differ h hguard
  constructor
  · intro hsame
    generalize hx : windows.rel base target = x at hsame
    generalize hy : windows.rel base' target = y at hsame
    cases hsame with
    | found r => exact absurd (isGuarded_iff_of_found hbase hbase' htarget h hx hy) hguard
    | unrelated b t b' t' =>
        rcases rel_error_cases hx with heq | heq
        · rw [heq]
        · cases heq
    | noDifference b t b' t' =>
        rcases rel_error_cases hx with heq | heq
        · cases heq
        · rw [heq] at hx
          exact absurd hx (hb.rel_ne_noDifference hbase htarget)
  · intro hunrelated
    have hroot : windows.isRooted base = windows.isRooted base' := by
      rw [← isRooted_toLower, h, isRooted_toLower]
    have hunrelated' := (hb.rel_unrelated_iff hbase htarget).1 hunrelated
    rw [hroot, ← hb'.rel_unrelated_iff hbase' htarget] at hunrelated'
    rw [hunrelated, hunrelated']
    exact .unrelated _ _ _ _

/-- A drive in capital letters is left by the same way. -/
theorem rel_letter_case_iff_drive :
    SameAnswer (windows.rel "C:\\A".toList "c:\\b".toList)
      (windows.rel "c:\\a".toList "c:\\b".toList) :=
  (rel_letter_case_iff _ _ _ (by decide) (by decide) (by decide) (by decide)).2 (.inl (by decide))

/-- Erasing leads back to the beginning of the second base only, so the first one is guarded. -/
theorem rel_differs_by_case :
    ":A/../:a".toList.map Char.toLower = ":a/../:a".toList.map Char.toLower ∧
      windows.rel ":A/../:a".toList ":a".toList = .ok "..\\..\\:a".toList ∧
      windows.rel ":a/../:a".toList ":a".toList = .ok ".".toList := by
  refine ⟨by decide, ?_, ?_⟩
  · have hbase : windows.relativeBase ":A/../:a".toList =
        windows.spell false ([] ++ [['.'], [':', 'a']]) := by decide +kernel
    have htarget : windows.relativeTarget ":a".toList = windows.spell false ([] ++ [[':', 'a']]) := by
      decide
    rw [rel_eq hbase htarget (by decide) (by decide) ⟨rfl, by decide⟩]
    decide +kernel
  · have hsame : windows.sameWord (windows.clean ":a".toList)
        (windows.clean ":a/../:a".toList) = true := by decide +kernel
    exact rel_of_sameWord hsame

end Dialect

end PathAlgebra
