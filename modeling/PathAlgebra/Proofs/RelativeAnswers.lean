import PathAlgebra.Proofs.DeviceNames
import PathAlgebra.Proofs.RelativeParts

/-!
# Where relative paths are relative

The path from a base to a target is the way up and down along the runs of both (`rel_eq_way`). The
runs of a cleaned path are its elements, with at most a `.` in front of them (`exists_targetForm`).
So the relative path starts with a `..`, or with a run from inside the target, and never with a
separator; it has no root and is no share. But a run from inside the target may be read in another
way once it stands first: a letter and a colon in front make it a drive, and a device name that
stands alone is the device (`Misread`). Cleaning shields a drive that comes to the front by a `.`
element; here nothing is put in front. So the relative path is relative and has no volume, except
under the Windows dialect where the target goes on behind the names of the base with runs that are
misread (`rel_relative_iff`).
-/

set_option autoImplicit false

namespace PathAlgebra

namespace Dialect

variable {d : Dialect} {base target p r t e rest : Text} {es : List Text}

/-! ## Runs of a text -/

/-- The runs of a text between separators. A `.` is a run like any other. -/
def runs (d : Dialect) (t : Text) : List Text := (t.splitOnP d.isSep).filter fun e => e ≠ []

@[simp] theorem runs_nil (d : Dialect) : d.runs [] = [] := by
  simp [runs]

theorem runs_append_sep (t u : Text) : d.runs (t ++ d.sep :: u) = d.runs t ++ d.runs u := by
  rw [runs, List.splitOnP_append_cons t u (isSep_sep d), List.filter_append]
  rfl

theorem runs_of_isRun (h : IsRun d e) : d.runs e = [e] := by
  rw [runs, List.splitOnP_eq_singleton h.2, List.filter_cons_of_pos (by simpa using h.1),
    List.filter_nil]

/-- Runs are read back from their spelling. -/
theorem runs_intercalate (h : ∀ e ∈ es, IsRun d e) : d.runs ([d.sep].intercalate es) = es := by
  induction es with
  | nil => exact runs_nil d
  | cons e es ih =>
      have he := runs_of_isRun (h e List.mem_cons_self)
      by_cases hes : es = []
      · rw [hes, List.intercalate_singleton, he]
      · rw [List.intercalate_cons_of_ne_nil hes, List.append_assoc, List.singleton_append,
          runs_append_sep, he, ih fun f hf => h f (List.mem_cons_of_mem _ hf)]
        rfl

theorem runs_spell {rooted : Bool} (h : ∀ e ∈ es, IsRun d e) : d.runs (d.spell rooted es) = es := by
  cases rooted with
  | false => exact runs_intercalate h
  | true =>
      have hsep := runs_append_sep (d := d) [] ([d.sep].intercalate es)
      rw [runs_nil, runs_intercalate h] at hsep
      exact hsep

/-! ## Runs of a cleaned path -/

theorem isRooted_of_deviceFirst (h : d.DeviceFirst (d.normalForm t)) : d.isRooted t = true := by
  obtain ⟨u, hu⟩ := h
  rw [← isRooted_normalForm, ← hu]
  exact isSep_sep d

/-- A guard stands in front of elements without `..`. -/
theorem exists_cons_of_guard (hg : windows.guardFor (windows.normalForm t) ≠ []) :
    ∃ e es, windows.resolvedElements t = e :: es ∧ parentElement ∉ e :: es := by
  have hresolved := resolvedElements_resolved windows t
  rcases guardFor_cases windows t with ⟨h, -⟩ | ⟨-, -, e, es, helements, hcolon⟩ | ⟨-, hdevice⟩
  · exact absurd h hg
  · refine ⟨e, es, helements, ?_⟩
    rw [helements] at hresolved
    refine hresolved.notMem_cons ?_
    rintro rfl
    exact absurd hcolon (by decide)
  · have hroot := isRooted_of_deviceFirst hdevice
    rw [hroot] at hresolved
    cases hes : windows.resolvedElements t with
    | nil =>
        -- The device root is more than a separator.
        have hlength := hdevice.length_le
        rw [normalForm_eq, hroot, hes] at hlength
        exact absurd hlength (by decide)
    | cons e es => exact ⟨e, es, rfl, hes ▸ hresolved.parentElement_notMem⟩

/-- A guard is one run more, in front of the elements. -/
theorem guarded_eq_spell (hg : windows.guardFor (windows.normalForm t) ≠ []) :
    windows.guardFor (windows.normalForm t) ++ windows.normalForm t =
      windows.spell (windows.isRooted t) (['.'] :: windows.resolvedElements t) := by
  have hne : windows.resolvedElements t ≠ [] := by
    obtain ⟨e, es, helements, -⟩ := exists_cons_of_guard hg
    rw [helements]
    exact List.cons_ne_nil e es
  have hes : ∀ e ∈ windows.resolvedElements t, IsElement windows e :=
    fun _ he => isElement_of_mem_resolvedElements he
  have hform : windows.normalForm t =
      windows.spell (windows.isRooted t) (windows.resolvedElements t) := by
    rw [normalForm_eq, writeElements_of_ne_nil fun hnil => hne ((spell_eq_nil_iff hes).1 hnil).2]
  have hcons : [windows.sep].intercalate (['.'] :: windows.resolvedElements t) =
      ['.', windows.sep] ++ [windows.sep].intercalate (windows.resolvedElements t) := by
    rw [List.intercalate_cons_of_ne_nil hne]
    rfl
  rcases guardFor_cases windows t with ⟨h, -⟩ | ⟨h, hroot, -⟩ | ⟨h, hdevice⟩
  · exact absurd h hg
  · rw [h, hform, spell, spell, hroot, hcons]
    rfl
  · rw [h, hform, spell, spell, isRooted_of_deviceFirst hdevice, hcons]
    rfl

/-- The runs of what follows the volume of a cleaned path: resolved elements, a `.` alone, or the
`.` of a guard in front of elements without `..`. -/
inductive TargetForm (d : Dialect) : List Text → Prop where
  | elements {es : List Text} : (∀ e ∈ es, IsElement d e) → Resolved false es → TargetForm d es
  | dot : TargetForm d [['.']]
  | guarded {e : Text} {es : List Text} : d = .windows → (∀ f ∈ e :: es, IsElement d f) →
      parentElement ∉ e :: es → TargetForm d (['.'] :: e :: es)

theorem TargetForm.isRun (h : TargetForm d es) : ∀ e ∈ es, IsRun d e := by
  cases h with
  | elements hes _ => exact fun e he => (hes e he).isRun
  | dot => exact List.forall_mem_singleton.2 (isRun_dot d)
  | guarded _ hes _ =>
      exact List.forall_mem_cons.2 ⟨isRun_dot d, fun e he => (hes e he).isRun⟩

theorem targetForm_targetRuns {rooted : Bool} (hes : ∀ e ∈ es, IsElement d e)
    (hresolved : Resolved rooted es) : TargetForm d (targetRuns rooted es) := by
  unfold targetRuns
  split
  · exact .dot
  · exact .elements hes hresolved.unrooted

/-- What follows the volume of a cleaned path is spelled from such runs. -/
theorem exists_targetForm (d : Dialect) (p : Text) :
    ∃ rooted es, d.relativeTarget p = d.spell rooted es ∧ TargetForm d es := by
  have hplain (h : d.clean p = d.volumeName p ++ d.normalForm (d.tail p)) :
      ∃ rooted es, d.relativeTarget p = d.spell rooted es ∧ TargetForm d es :=
    ⟨_, _, relativeTarget_of_clean h, targetForm_targetRuns
      (fun _ he => isElement_of_mem_resolvedElements he) (resolvedElements_resolved d (d.tail p))⟩
  cases d with
  | posix => exact hplain (clean_posix p)
  | windows =>
      have hform := cleanForm p
      generalize hq : windows.clean p = q at hform hplain
      have htarget : windows.relativeTarget p = q.drop (windows.volumeLength p) := by
        rw [relativeTarget, hq]
      cases hform with
      | share hvol htail =>
          refine ⟨false, [], ?_, .elements (by simp) (resolved_nil false)⟩
          rw [htarget, fromSlash, ← List.map_drop]
          exact List.map_eq_nil_iff.2 htail
      | behind hvol hshare => exact hplain rfl
      | plain hvol hnone =>
          refine hplain ?_
          rw [volumeName_eq_nil hvol, tail_eq_self hvol, List.nil_append]
      | guarded hvol hg =>
          obtain ⟨e, es, helements, hparent⟩ := exists_cons_of_guard hg
          refine ⟨windows.isRooted p, ['.'] :: e :: es, ?_, .guarded rfl ?_ hparent⟩
          · rw [htarget, volumeLength_eq_zero_iff.2 hvol, List.drop_zero, ← helements]
            exact guarded_eq_spell hg
          · intro f hf
            exact isElement_of_mem_resolvedElements (helements ▸ hf)

/-- A text of runs with native separators between them. -/
def SpelledFromRuns (d : Dialect) (t : Text) : Prop :=
  ∃ rooted es, t = d.spell rooted es ∧ ∀ e ∈ es, IsRun d e

theorem spelledFromRuns_target (d : Dialect) (p : Text) :
    d.SpelledFromRuns (d.relativeTarget p) := by
  obtain ⟨rooted, es, htarget, hform⟩ := exists_targetForm d p
  exact ⟨rooted, es, htarget, hform.isRun⟩

theorem spelledFromRuns_base (d : Dialect) (p : Text) :
    d.SpelledFromRuns (d.relativeBase p) := by
  have hempty (rooted : Bool) : d.SpelledFromRuns (if rooted then [d.sep] else []) :=
    ⟨rooted, [], (List.append_nil _).symm, by simp⟩
  rw [relativeBase]
  split
  · exact hempty false
  · exact hempty _
  · exact spelledFromRuns_target d p

/-! ## The answer -/

/-- Between paths that are not the same, the answer is the way along the runs that are left behind
the shared names. -/
theorem rel_eq_way (h : d.rel base target = .ok r)
    (hdiffer : d.sameWord (d.clean target) (d.clean base) = false) :
    ∃ cs bs cs' ts, d.runs (d.relativeBase base) = cs ++ bs ∧
      d.runs (d.relativeTarget target) = cs' ++ ts ∧ d.Parting cs bs cs' ts ∧
      (∀ e ∈ ts, IsRun d e) ∧ r = d.way bs.length ts := by
  obtain ⟨rb, es, hbase, hes⟩ := spelledFromRuns_base d base
  obtain ⟨rt, fs, htarget, hfs⟩ := spelledFromRuns_target d target
  obtain ⟨cs, bs, cs', ts, rfl, rfl, hparting⟩ := exists_parting d es fs
  refine ⟨cs, bs, cs', ts, by rw [hbase, runs_spell hes], by rw [htarget, runs_spell hfs], hparting,
    fun e he => hfs e (List.mem_append_right _ he), ?_⟩
  rw [rel_eq hbase htarget hes hfs hparting, hdiffer, if_neg Bool.false_ne_true] at h
  split at h
  · cases h
  split at h
  · cases h
  split at h
  · cases h
  · exact (Except.ok.inj h).symm

/-- If the target starts with the names of the base, nothing is left of the base, and what is left
of the target is what stands behind them. -/
theorem Parting.of_beginning {cs bs cs' ts fs us : List Text} (h : d.Parting cs bs cs' ts)
    (hsplit : cs' ++ ts = fs ++ us) (hkeys : fs.map d.nameKey = (cs ++ bs).map d.nameKey) :
    bs = [] ∧ us = ts := by
  have hlength : cs'.length = cs.length := by
    have hshared := congrArg List.length h.shared
    rw [List.length_map, List.length_map] at hshared
    exact hshared.symm
  have hfs : fs.length = cs.length + bs.length := by
    have hmapped := congrArg List.length hkeys
    rwa [List.length_map, List.length_map, List.length_append] at hmapped
  -- The beginning covers the shared names, and as many names as the base has left.
  obtain ⟨as, rfl, rfl⟩ : ∃ as, fs = cs' ++ as ∧ ts = as ++ us := by
    rcases List.append_eq_append_iff.1 hsplit with ⟨as, hfs', hts⟩ | ⟨as, hcs', hus⟩
    · exact ⟨as, hfs', hts⟩
    · have has : as = [] := by
        rw [hcs', List.length_append] at hlength
        exact List.length_eq_zero_iff.1 (by omega)
      subst has
      exact ⟨[], by simpa using hcs'.symm, by simpa using hus.symm⟩
  rw [List.map_append, List.map_append, h.shared] at hkeys
  have hleft := List.append_cancel_left hkeys
  have hbs : bs = [] := by
    by_contra hne
    refine hne (h.parts ?_).1
    rw [List.map_append, hleft]
    cases bs with
    | nil => exact absurd rfl hne
    | cons b bs => rfl
  rw [hbs, List.map_nil, List.map_eq_nil_iff] at hleft
  exact ⟨hbs, by rw [hleft, List.nil_append]⟩

/-! ## Runs that are misread -/

/-- Runs that are read as more than names when nothing stands before them: the first starts with a
drive, or it stands alone and is a device name. -/
def Misread : List Text → Prop
  | [] => False
  | e :: es => windows.volume e = .drive ∨ es = [] ∧ isReservedName e = true

/-- A Windows path is relative and has no volume if it is read as neither a volume nor a device. -/
theorem relative_windows_iff : windows.isAbs p = false ∧ windows.volumeName p = [] ↔
    windows.volume p = .none ∧ isReservedName p = false := by
  have hname : windows.volumeName p = [] ↔ windows.volume p = .none := by
    rw [← volumeLength_eq_zero_iff, ← volumeName_length, List.length_eq_zero_iff]
  rw [hname, isAbs]
  constructor
  · rintro ⟨habs, hvol⟩
    exact ⟨hvol, (Bool.or_eq_false_iff.1 habs).1⟩
  · rintro ⟨hvol, hdevice⟩
    rw [hdevice, hvol]
    exact ⟨rfl, rfl⟩

/-- The volume of a text is the one that its first run starts with: none or a drive. -/
theorem volume_run_append (he : IsRun windows e)
    (hrest : rest = [] ∨ windows.isRooted rest = true) :
    windows.volume (e ++ rest) = windows.volume e ∧
      (windows.volume e = .none ∨ windows.volume e = .drive) := by
  match e with
  | [] => exact absurd rfl he.1
  | [a] =>
      refine ⟨?_, .inl rfl⟩
      cases rest with
      | nil => rfl
      | cons b rest =>
          have ha : isSlash a = false := he.2 a List.mem_cons_self
          have hb : isSlash b = true := hrest.resolve_left (List.cons_ne_nil b rest)
          have hcolon : (b == ':') = false := by
            rw [beq_eq_false_iff_ne]
            rintro rfl
            cases hb
          rw [List.singleton_append, volume_cons_cons, hcolon, ha, Bool.and_false, Bool.false_and]
          rfl
  | a :: b :: t =>
      have ha : isSlash a = false := he.2 a List.mem_cons_self
      rw [List.cons_append, List.cons_append, volume_cons_cons, volume_cons_cons, ha,
        Bool.false_and]
      refine ⟨rfl, ?_⟩
      split
      · exact .inr rfl
      · exact .inl rfl

/-- So is the volume of runs put together. -/
theorem volume_intercalate (h : ∀ f ∈ e :: es, IsRun windows f) :
    windows.volume ([windows.sep].intercalate (e :: es)) = windows.volume e ∧
      (windows.volume e = .none ∨ windows.volume e = .drive) := by
  have he := h e List.mem_cons_self
  by_cases hes : es = []
  · rw [hes, List.intercalate_singleton]
    exact ⟨rfl, (volume_run_append he (.inl rfl)).2⟩
  · rw [List.intercalate_cons_of_ne_nil hes, List.append_assoc, List.singleton_append]
    exact volume_run_append he (.inr (isSep_sep windows))

/-- Runs put together are a relative path without a volume, unless they are misread. -/
theorem relative_intercalate_iff (h : ∀ e ∈ es, IsRun windows e) :
    windows.isAbs ([windows.sep].intercalate es) = false ∧
      windows.volumeName ([windows.sep].intercalate es) = [] ↔ ¬ Misread es := by
  rw [relative_windows_iff]
  cases es with
  | nil => exact iff_of_true ⟨rfl, rfl⟩ id
  | cons e es =>
      obtain ⟨hvolume, hcases⟩ := volume_intercalate h
      rw [hvolume, Misread]
      by_cases hes : es = []
      · rw [hes, List.intercalate_singleton]
        rcases hcases with hvol | hvol <;> simp [hvol]
      · have hdevice : isReservedName ([windows.sep].intercalate (e :: es)) = false := by
          rw [List.intercalate_cons_of_ne_nil hes]
          exact Bool.eq_false_iff.2 fun hname =>
            (isElement_of_isReservedName hname).sep_notMem (by simp)
        rw [hdevice]
        rcases hcases with hvol | hvol <;> simp [hvol, hes]

/-- A way that goes up is never misread. -/
theorem misread_way_iff {n : Nat} {ts : List Text} :
    Misread (List.replicate n parentElement ++ ts) ↔ n = 0 ∧ Misread ts := by
  cases n with
  | zero => exact (and_iff_right rfl).symm
  | succ n =>
      refine iff_of_false ?_ fun h => absurd h.1 (Nat.succ_ne_zero n)
      rintro (hdrive | ⟨-, hdevice⟩)
      · cases hdrive
      · exact absurd hdevice (by decide)

/-- The names of the base are the first of the target, and the target goes on with runs that are
misread. -/
structure VolumeAhead (base target : Text) : Prop where
  differ : windows.sameWord (windows.clean target) (windows.clean base) = false
  ahead : ∃ fs us, windows.runs (windows.relativeTarget target) = fs ++ us ∧
    fs.map windows.nameKey = (windows.runs (windows.relativeBase base)).map windows.nameKey ∧
    Misread us

/-- Between different paths a volume is ahead exactly when the base ends where they part and the
rest of the target is misread. -/
theorem Parting.volumeAhead_iff {cs bs cs' ts : List Text} (h : windows.Parting cs bs cs' ts)
    (hbase : windows.runs (windows.relativeBase base) = cs ++ bs)
    (htarget : windows.runs (windows.relativeTarget target) = cs' ++ ts)
    (hdiffer : windows.sameWord (windows.clean target) (windows.clean base) = false) :
    VolumeAhead base target ↔ bs = [] ∧ Misread ts := by
  constructor
  · rintro ⟨-, fs, us, hsplit, hkeys, hmisread⟩
    rw [htarget] at hsplit
    rw [hbase] at hkeys
    obtain ⟨hbs, rfl⟩ := h.of_beginning hsplit hkeys
    exact ⟨hbs, hmisread⟩
  · rintro ⟨rfl, hmisread⟩
    refine ⟨hdiffer, cs', ts, htarget, ?_, hmisread⟩
    rw [hbase, List.append_nil, h.shared]

/-- The path from a base to a target is relative and has no volume, except under the Windows dialect
where the target goes on behind the base with a drive, or with a device name at its end. -/
theorem rel_relative_iff (h : d.rel base target = .ok r) :
    d.isAbs r = false ∧ d.volumeName r = [] ↔ ¬ (d = .windows ∧ VolumeAhead base target) := by
  by_cases hsame : d.sameWord (d.clean target) (d.clean base) = true
  · have hdot : r = ['.'] := by
      rw [rel_of_sameWord hsame] at h
      exact (Except.ok.inj h).symm
    rw [hdot]
    refine iff_of_true ?_ ?_
    · cases d <;> decide
    · rintro ⟨rfl, hahead⟩
      rw [hahead.differ] at hsame
      cases hsame
  rw [Bool.not_eq_true] at hsame
  obtain ⟨cs, bs, cs', ts, hbase, htarget, hparting, hts, rfl⟩ := rel_eq_way h hsame
  cases d with
  | posix =>
      refine iff_of_true ⟨?_, rfl⟩ fun hwindows => by cases hwindows.1
      rw [isAbs_posix]
      exact isRooted_way bs.length hts
  | windows =>
      have hahead := hparting.volumeAhead_iff hbase htarget hsame
      rw [way, relative_intercalate_iff (noSep_way bs.length hts), misread_way_iff,
        List.length_eq_zero_iff, ← hahead, and_iff_right rfl]

/-- To a device name behind the base, in other letter case. -/
theorem rel_relative_iff_device :
    windows.rel "C:\\a".toList "c:\\A\\nul".toList = .ok "nul".toList ∧
      ¬ (windows.isAbs "nul".toList = false ∧ windows.volumeName "nul".toList = []) := by
  have hrel : windows.rel "C:\\a".toList "c:\\A\\nul".toList = .ok "nul".toList := by
    have hbase : windows.relativeBase "C:\\a".toList = windows.spell true ([['a']] ++ []) := by
      decide
    have htarget : windows.relativeTarget "c:\\A\\nul".toList =
        windows.spell true ([['A']] ++ ["nul".toList]) := by decide
    have hparting : windows.Parting [['a']] [] [['A']] ["nul".toList] := ⟨by decide, by decide⟩
    have hanswer := rel_eq hbase htarget (by decide) (by decide) hparting
    rw [hanswer]
    decide
  refine ⟨hrel, fun hrelative => (rel_relative_iff hrel).1 hrelative ⟨rfl, ?_⟩⟩
  exact ⟨by decide, ["A".toList], ["nul".toList], by decide, by decide, .inr ⟨rfl, by decide⟩⟩

/-- From a rooted path to a name in it that looks like a drive. -/
theorem rel_not_relative :
    windows.rel "\\a".toList "\\a\\c:\\x".toList = .ok "c:\\x".toList ∧
      windows.isAbs "c:\\x".toList = true ∧ windows.volumeName "c:\\x".toList ≠ [] := by
  have hbase : windows.relativeBase "\\a".toList = windows.spell true ([['a']] ++ []) := by decide
  have htarget : windows.relativeTarget "\\a\\c:\\x".toList =
      windows.spell true ([['a']] ++ [['c', ':'], ['x']]) := by decide
  have hparting : windows.Parting [['a']] [] [['a']] [['c', ':'], ['x']] := ⟨rfl, by decide⟩
  have hanswer := rel_eq hbase htarget (by decide) (by decide) hparting
  refine ⟨?_, by decide, by decide⟩
  rw [hanswer]
  decide

end Dialect

end PathAlgebra
