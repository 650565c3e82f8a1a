import PathAlgebra.Proofs.PlainPaths
import PathAlgebra.Proofs.RelativeParts

/-!
# Relative Windows paths

Between plain Windows paths of ASCII characters the relative path leads back: joined to the cleaned
base it gives the cleaned target up to letter case (`rel_windows_round_trip`). The volume and the
elements that both share come out as the base has them and what follows as the target has it, so the
joined path is spelled from the shared elements of the base and the rest of the target
(`join_way_of_plain`), and in lower case the shared elements are those of the target
(`map_toLower_writeElements`).

A bare share is excluded as a target: as a base it counts as its root, so the way back to it ends
with a separator that it does not have.
-/

set_option autoImplicit false

namespace PathAlgebra

namespace Dialect

variable {p q base target : Text} {rooted : Bool} {cs bs cs' ts : List Text}

/-! ## Bare shares -/

/-- A text in other letter case is the same bare share. -/
theorem isBareShare_of_toLower (heq : p.map Char.toLower = q.map Char.toLower)
    (h : IsBareShare p) : IsBareShare q := by
  have hvolume : windows.volume q = windows.volume p := (volume_congr_toLower heq).symm
  have hlength : q.length = p.length := by
    rw [← List.length_map Char.toLower, ← heq, List.length_map]
  refine ⟨hvolume ▸ h.1, ?_⟩
  rw [tail, List.drop_eq_nil_iff, hlength, volumeLength, hvolume]
  exact List.drop_eq_nil_iff.1 h.2

/-! ## Base and target -/

/-- A base that is cleaned without a guard is compared by its resolved elements, at a root if it is
on a share. -/
theorem relativeBase_of_not_guarded (h : ¬ IsGuarded p) :
    windows.relativeBase p =
      windows.spell (startsAtRoot p) (windows.resolvedElements (windows.tail p)) := by
  by_cases hbare : IsBareShare p
  -- A bare share counts as its root.
  · have hdrop : (windows.clean p).drop (windows.volumeLength p) = [] := by
      rw [clean_of_bareShare hbare, ← volumeName_length, List.drop_length]
    rw [relativeBase, hdrop, startsAtRoot, hbare.1, hbare.2, Bool.or_true]
    rfl
  · rw [startsAtRoot_of_not_bareShare hbare]
    exact relativeBase_of_clean (clean_of_not_guarded h hbare)

/-! ## Shared names -/

theorem isAscii_of_mem_targetRuns (h : IsAscii p) {e : Text}
    (he : e ∈ targetRuns rooted (windows.resolvedElements (windows.tail p))) : IsAscii e := by
  intro c hc
  rcases mem_of_mem_targetRuns he hc with rfl | hc
  · decide
  · exact h c (mem_of_mem_tail hc)

theorem map_nameKey_of_isAscii (hcs : ∀ e ∈ cs, IsAscii e) :
    cs.map windows.nameKey = cs.map (List.map Char.toLower) :=
  List.map_congr_left fun e he => Text.lowerCase_ascii (hcs e he)

/-- ASCII names that count as the same differ in letter case only. -/
theorem map_toLower_of_nameKey (hkeys : cs.map windows.nameKey = cs'.map windows.nameKey)
    (hcs : ∀ e ∈ cs, IsAscii e) (hcs' : ∀ e ∈ cs', IsAscii e) :
    cs.map (List.map Char.toLower) = cs'.map (List.map Char.toLower) := by
  rw [← map_nameKey_of_isAscii hcs, ← map_nameKey_of_isAscii hcs', hkeys]

/-- In lower case it does not matter whose spelling of the shared names is written. -/
theorem map_toLower_writeElements
    (hkeys : cs.map (List.map Char.toLower) = cs'.map (List.map Char.toLower)) :
    (windows.writeElements rooted (cs ++ ts)).map Char.toLower =
      (windows.writeElements rooted (cs' ++ ts)).map Char.toLower := by
  rw [← writeElements_toLower, ← writeElements_toLower, List.map_append, List.map_append, hkeys]

/-- A shared name of a target is an element. -/
theorem filter_shared (hcs : ∀ e ∈ cs, IsElement windows e)
    (hkeys : cs.map (List.map Char.toLower) = cs'.map (List.map Char.toLower)) :
    cs'.filter (fun e => e ≠ [] ∧ e ≠ ['.']) = cs' := by
  rw [List.filter_eq_self]
  intro e he
  have hmem : e.map Char.toLower ∈ cs.map (List.map Char.toLower) := by
    rw [hkeys]
    exact List.mem_map_of_mem he
  obtain ⟨f, hf, hfe⟩ := List.mem_map.1 hmem
  have hne : e ≠ [] := by
    rintro rfl
    exact (hcs f hf).ne_nil (List.map_eq_nil_iff.1 hfe)
  have hdot : e ≠ ['.'] := by
    intro he
    rw [(map_toLower_eq_dot_iff e).2 he] at hfe
    exact (hcs f hf).ne_dot ((map_toLower_eq_dot_iff f).1 hfe)
  simpa using And.intro hne hdot

/-! ## The way back -/

/-- The characters of a way are those of its runs, separators and dots. -/
theorem mem_way {d : Dialect} {n : Nat} {c : Char} (hc : c ∈ d.way n ts) :
    c = d.sep ∨ c = '.' ∨ ∃ e ∈ ts, c ∈ e := by
  rcases mem_intercalate hc with h | ⟨e, he, h⟩
  · exact .inl h
  · rcases List.mem_append.1 he with he | he
    · rw [List.eq_of_mem_replicate he] at h
      exact .inr (.inl (by simpa [parentElement] using h))
    · exact .inr (.inr ⟨e, he, h⟩)

/-- Another character than a separator or a dot comes into a way along runs of a target only from
the target. -/
theorem notMem_way {n : Nat} {c : Char} {t : Text} (hsep : c ≠ '\\') (hdot : c ≠ '.') (h : c ∉ t)
    (hts : ∀ e ∈ ts, e ∈ targetRuns rooted (windows.resolvedElements t)) :
    c ∉ windows.way n ts := by
  intro hc
  rcases mem_way hc with hc | hc | ⟨e, he, hc⟩
  · exact hsep hc
  · exact hdot hc
  · rcases mem_of_mem_targetRuns (hts e he) hc with hc | hc
    · exact hdot hc
    · exact h hc

/-- The way from a plain base, joined to it, leads to the shared elements of the base and then to
the rest of the target. -/
theorem join_way_of_plain (hbase : IsPlain base) (htarget : IsPlain target)
    (hroot : startsAtRoot base = windows.isRooted (windows.tail target))
    (hcb : windows.resolvedElements (windows.tail base) = cs ++ bs)
    (hct : targetRuns (windows.isRooted (windows.tail target))
      (windows.resolvedElements (windows.tail target)) = cs' ++ ts)
    (hkeys : cs.map (List.map Char.toLower) = cs'.map (List.map Char.toLower))
    (hparent : bs.head? ≠ some parentElement) :
    windows.resolvedElements (windows.tail target) =
        cs' ++ ts.filter (fun e => e ≠ [] ∧ e ≠ ['.']) ∧
      windows.join [windows.clean base, windows.way bs.length ts] =
        windows.volumeName base ++ windows.writeElements (startsAtRoot base)
          (cs ++ ts.filter fun e => e ≠ [] ∧ e ≠ ['.']) := by
  have helements : ∀ e ∈ windows.resolvedElements (windows.tail target), IsElement windows e :=
    fun e he => isElement_of_mem_resolvedElements he
  have hcs : ∀ e ∈ cs, IsElement windows e := by
    intro e he
    apply isElement_of_mem_resolvedElements
    rw [hcb]
    exact List.mem_append_left _ he
  have hleft : windows.resolvedElements (windows.tail target) =
      cs' ++ ts.filter fun e => e ≠ [] ∧ e ≠ ['.'] := by
    rw [← filter_targetRuns (windows.isRooted (windows.tail target)) helements, hct,
      List.filter_append, filter_shared hcs hkeys]
  refine ⟨hleft, ?_⟩
  have hruns : ∀ e ∈ ts, e ∈ targetRuns (windows.isRooted (windows.tail target))
      (windows.resolvedElements (windows.tail target)) := by
    intro e he
    rw [hct]
    exact List.mem_append_right _ he
  have hts : ∀ e ∈ ts, IsRun windows e := fun e he => noSep_targetRuns _ helements e (hruns e he)
  -- The runs of the target have no character that could make a volume or a guard.
  have hcolon : ':' ∉ windows.way bs.length ts :=
    notMem_way (by decide) (by decide) htarget.no_colon hruns
  have hmark : '?' ∉ windows.way bs.length ts :=
    notMem_way (by decide) (by decide) htarget.no_mark_tail hruns
  -- Shared names are `..` in the base exactly where they are in the target.
  have hdown : Resolved (startsAtRoot base)
      (cs ++ ts.filter fun e => e ≠ [] ∧ e ≠ ['.']) := by
    have hresolved := resolvedElements_resolved windows (windows.tail target)
    rw [hleft, ← hroot, ← resolved_map_iff map_toLower_eq_parent_iff, List.map_append, ← hkeys,
      ← List.map_append, resolved_map_iff map_toLower_eq_parent_iff] at hresolved
    exact hresolved
  have hup := (resolved_startsAtRoot base).resolve_eq
  rw [hcb] at hup
  rw [join_clean_of_plain hbase hcolon hmark, elements_way _ hts, hcb, resolve_way hup hparent hdown]

/-- A `.` joined to a plain base that is no bare share leads nowhere else. -/
theorem join_clean_dot (h : IsPlain p) (hbare : ¬ IsBareShare p) :
    windows.join [windows.clean p, ['.']] = windows.clean p := by
  rw [join_clean_of_plain h (by decide) (by decide), elements_dot, List.append_nil,
    (resolved_startsAtRoot p).resolve_eq, startsAtRoot_of_not_bareShare hbare, clean_of_plain h hbare,
    normalForm_eq]

/-- Between plain ASCII paths, the target no bare share, the relative path joined to the cleaned
base gives the cleaned target up to letter case. -/
theorem rel_windows_round_trip (base target : Text) (hbase : IsPlain base) (htarget : IsPlain target)
    (hbaseAscii : IsAscii base) (htargetAscii : IsAscii target)
    (hbare : ¬ IsBareShare (windows.clean target)) (r : Text)
    (h : windows.rel base target = .ok r) :
    (windows.join [windows.clean base, r]).lowerCase = (windows.clean target).lowerCase := by
  have htargetBare : ¬ IsBareShare target := fun hb => hbare (isBareShare_clean hb)
  have hclean := clean_of_plain htarget htargetBare
  have hes : ∀ e ∈ windows.resolvedElements (windows.tail base), IsElement windows e :=
    fun e he => isElement_of_mem_resolvedElements he
  have hfs : ∀ e ∈ windows.resolvedElements (windows.tail target), IsElement windows e :=
    fun e he => isElement_of_mem_resolvedElements he
  obtain ⟨cs, bs, cs', ts, hcb, hct, hparting⟩ := exists_parting windows
    (windows.resolvedElements (windows.tail base))
    (targetRuns (windows.isRooted (windows.tail target))
      (windows.resolvedElements (windows.tail target)))
  have hbaseRuns := relativeBase_of_not_guarded (not_isGuarded_of_plain hbase)
  have htargetRuns := relativeTarget_of_clean hclean
  rw [hcb] at hbaseRuns
  rw [hct] at htargetRuns
  have hruns := noSep_targetRuns (windows.isRooted (windows.tail target)) hfs
  have hrel := rel_eq hbaseRuns htargetRuns
    (fun e he => ⟨(hes e (hcb ▸ he)).ne_nil, (hes e (hcb ▸ he)).no_sep⟩)
    (fun e he => hruns e (hct ▸ he)) hparting
  rw [hrel] at h
  split at h
  -- The two paths are the same but for letter case, and so both are bare shares or neither is.
  · next hsame =>
    obtain rfl := Except.ok.inj h
    have hbaseBare : ¬ IsBareShare base := by
      intro hb
      have hlower := (lowerCase_eq_iff (isAscii_clean htargetAscii)
        (isAscii_clean hbaseAscii)).1 (sameWord_iff.1 hsame)
      exact hbare (isBareShare_of_toLower hlower.symm (isBareShare_clean hb))
    rw [join_clean_dot hbase hbaseBare]
    exact (sameWord_iff.1 hsame).symm
  split at h
  · cases h
  split at h
  · cases h
  split at h
  · cases h
  · next hunrelated hends hparent =>
    obtain rfl := Except.ok.inj h
    obtain ⟨hroot, hvolume⟩ := not_or.1 hunrelated
    rw [not_not] at hroot
    rw [Bool.not_eq_false, sameWord_iff] at hvolume
    have hcs : ∀ e ∈ cs, IsAscii e := by
      intro e he
      apply isAscii_of_mem_resolvedElements hbaseAscii
      rw [hcb]
      exact List.mem_append_left _ he
    have hrunsAscii : ∀ e ∈ cs' ++ ts, IsAscii e :=
      fun e he => isAscii_of_mem_targetRuns htargetAscii (hct ▸ he)
    have hkeys := map_toLower_of_nameKey hparting.shared hcs
      fun e he => hrunsAscii e (List.mem_append_left _ he)
    obtain ⟨hleft, hjoin⟩ := join_way_of_plain hbase htarget hroot hcb hct hkeys hparent
    -- The joined path has the spelling of the base in its volume and in the shared elements.
    have hname : (windows.volumeName base).map Char.toLower =
        (windows.volumeName target).map Char.toLower :=
      (lowerCase_eq_iff (isAscii_volumeName hbaseAscii) (isAscii_volumeName htargetAscii)).1 hvolume
    have hjoinAscii : IsAscii (windows.volumeName base ++ windows.writeElements (startsAtRoot base)
        (cs ++ ts.filter fun e => e ≠ [] ∧ e ≠ ['.'])) := by
      refine isAscii_append (isAscii_volumeName hbaseAscii) (isAscii_writeElements fun e he => ?_)
      rcases List.mem_append.1 he with he | he
      · exact hcs e he
      · exact hrunsAscii e (List.mem_append_right _ (List.filter_sublist.subset he))
    rw [hjoin, lowerCase_eq_iff hjoinAscii (isAscii_clean htargetAscii), hclean,
      normalForm_eq, hleft, ← hroot, List.map_append, List.map_append, hname,
      map_toLower_writeElements hkeys]

/-- From a path on a share to a sibling of it that is spelled otherwise. -/
theorem rel_windows_round_trip_share :
    ∃ r, windows.rel "\\\\h\\s\\A".toList "//H/S/b".toList = .ok r ∧
      (windows.join [windows.clean "\\\\h\\s\\A".toList, r]).lowerCase =
        (windows.clean "//H/S/b".toList).lowerCase := by
  have hbase : windows.relativeBase "\\\\h\\s\\A".toList = windows.spell true ([] ++ [['A']]) := by
    decide
  have htarget : windows.relativeTarget "//H/S/b".toList = windows.spell true ([] ++ [['b']]) := by
    decide
  have hparting : windows.Parting [] [['A']] [] [['b']] := ⟨rfl, by decide⟩
  have hrel := rel_eq hbase htarget (by simp [isSep, isSlash]) (by simp [isSep, isSlash]) hparting
  have hsame : windows.sameWord (windows.clean "//H/S/b".toList)
      (windows.clean "\\\\h\\s\\A".toList) = false := by decide
  have hvolume : windows.sameWord (windows.volumeName "\\\\h\\s\\A".toList)
      (windows.volumeName "//H/S/b".toList) = true := by decide
  rw [hsame, hvolume, if_neg (by decide), if_neg (by decide), if_neg (by decide),
    if_neg (by decide)] at hrel
  refine ⟨_, hrel, ?_⟩
  exact rel_windows_round_trip _ _ (by decide) (by decide) (by decide) (by decide) (by decide) _ hrel

end Dialect

end PathAlgebra
