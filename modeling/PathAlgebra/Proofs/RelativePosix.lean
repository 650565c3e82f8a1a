import PathAlgebra.Proofs.Joining
import PathAlgebra.Proofs.RelativeParts

/-!
# Relative POSIX paths

A relative path climbs from the cleaned base to the elements it shares with the cleaned target and
goes down from there. Under the POSIX dialect base and target are compared by their resolved
elements, behind a root or not (`relativeBase_posix`, `relativeTarget_posix`), and names by
themselves, so the shared elements are the same in both (`rel_posix_eq`).

There is always an answer, it is an error exactly when only one of the paths is rooted or the base
has more leading `..` elements than the target, and joined to the base it gives the cleaned target
(`rel_posix_exact`).

The other way round, what is joined to a base stands behind its elements, as long as it does not lead
out of the base. Then the path from the base to the joined one is what was joined, cleaned
(`rel_join_eq_clean`).
-/

set_option autoImplicit false

namespace PathAlgebra

namespace Dialect

/-! ## Base and target under the POSIX dialect -/

theorem volumeName_posix (p : Text) : posix.volumeName p = [] := rfl

theorem head_beq_sep_posix (t : Text) : (t.head? == some posix.sep) = posix.isRooted t := by
  cases t with
  | nil => rfl
  | cons c t => rfl

theorem sameWord_posix_iff {a b : Text} : posix.sameWord a b = true ↔ a = b := by
  simp [sameWord]

theorem relativeTarget_posix (target : Text) :
    posix.relativeTarget target =
      posix.spell (posix.isRooted target)
        (targetRuns (posix.isRooted target) (posix.resolvedElements target)) :=
  relativeTarget_of_clean (clean_posix target)

theorem relativeBase_posix (base : Text) :
    posix.relativeBase base = posix.spell (posix.isRooted base) (posix.resolvedElements base) :=
  relativeBase_of_clean (clean_posix base)

/-- A base is compared as rooted as it is written. -/
theorem head_relativeBase_posix (base : Text) :
    ((posix.relativeBase base).head? == some posix.sep) = posix.isRooted base := by
  rw [head_beq_sep_posix, relativeBase_posix]
  exact isRooted_spell fun _ he => isElement_of_mem_resolvedElements he

theorem head_relativeTarget_posix (target : Text) :
    ((posix.relativeTarget target).head? == some posix.sep) = posix.isRooted target := by
  rw [head_beq_sep_posix, relativeTarget, volumeLength_posix, List.drop_zero, clean_posix,
    isRooted_normalForm]

/-! ## The answer -/

/-- Paths that are rooted alike and have the same runs clean to the same path. -/
theorem clean_eq_of_runs_eq {base target : Text}
    (hrooted : posix.isRooted base = posix.isRooted target)
    (h : posix.resolvedElements base =
      targetRuns (posix.isRooted target) (posix.resolvedElements target)) :
    posix.clean target = posix.clean base := by
  have helements : posix.resolvedElements base = posix.resolvedElements target := by
    rw [← filter_isElement fun e (he : e ∈ posix.resolvedElements base) =>
      isElement_of_mem_resolvedElements he, h]
    exact filter_targetRuns _ fun e he => isElement_of_mem_resolvedElements he
  rw [clean_posix, clean_posix, normalForm_eq, normalForm_eq, helements, hrooted]

/-- What the answer is, when the base and the target are rooted alike and do not clean to the same
path: an error or the way up and down, by what is left of both behind the shared elements. -/
theorem rel_posix_eq {base target : Text} (hne : posix.clean target ≠ posix.clean base)
    (hrooted : posix.isRooted base = posix.isRooted target) :
    ∃ cs bs ts, posix.resolvedElements base = cs ++ bs ∧
      targetRuns (posix.isRooted target) (posix.resolvedElements target) = cs ++ ts ∧
      (bs.head? = ts.head? → bs = [] ∧ ts = []) ∧ ¬ (bs = [] ∧ ts = []) ∧
      posix.rel base target =
        if bs.head? = some parentElement then .error (.unrelated base target)
        else .ok (posix.way bs.length ts) := by
  obtain ⟨cs, bs, ts, hcb, hct, hparts⟩ := exists_shared_beginning (posix.resolvedElements base)
    (targetRuns (posix.isRooted target) (posix.resolvedElements target))
  have hends : ¬ (bs = [] ∧ ts = []) := by
    rintro ⟨rfl, rfl⟩
    apply hne
    apply clean_eq_of_runs_eq hrooted
    rw [hcb, hct]
  -- Under this dialect a name counts as itself.
  have hkey : posix.nameKey = id := rfl
  have hparting : posix.Parting cs bs cs ts := ⟨rfl, by simpa [hkey] using hparts⟩
  have hbase := relativeBase_posix base
  have htarget := relativeTarget_posix target
  rw [hcb] at hbase
  rw [hct] at htarget
  have hrel := rel_eq hbase htarget
    (fun e he => by
      have helement := isElement_of_mem_resolvedElements (hcb ▸ he)
      exact ⟨helement.ne_nil, helement.no_sep⟩)
    (fun e he => noSep_targetRuns (posix.isRooted target)
      (fun e he => isElement_of_mem_resolvedElements he) e (hct ▸ he)) hparting
  refine ⟨cs, bs, ts, hcb, hct, hparts, hends, ?_⟩
  rw [hrel, if_neg fun h => hne (sameWord_posix_iff.1 h), if_neg, if_neg hends]
  simp [hrooted, volumeName_posix, sameWord_self]

/-- The answer for two paths that are not rooted alike. -/
theorem rel_posix_of_rooted_ne {base target : Text}
    (hrooted : posix.isRooted base ≠ posix.isRooted target) :
    posix.rel base target = .error (.unrelated base target) := by
  have hne : posix.clean target ≠ posix.clean base := by
    intro heq
    apply hrooted
    rw [← isRooted_normalForm posix base, ← isRooted_normalForm posix target, ← clean_posix,
      ← clean_posix, heq]
  rw [rel, if_neg fun h => hne (sameWord_posix_iff.1 h)]
  simp only [head_relativeBase_posix, head_relativeTarget_posix]
  rw [if_pos (by simp [hrooted])]

/-- The way up and down, joined to the base, leads to the target. -/
theorem join_way_posix {base target : Text} {cs bs ts : List Text}
    (hrooted : posix.isRooted base = posix.isRooted target)
    (hcb : posix.resolvedElements base = cs ++ bs)
    (hct : targetRuns (posix.isRooted target) (posix.resolvedElements target) = cs ++ ts)
    (hends : ¬ (bs = [] ∧ ts = [])) (hparent : bs.head? ≠ some parentElement) :
    posix.way bs.length ts ≠ [] ∧ posix.isRooted (posix.way bs.length ts) = false ∧
      posix.join [base, posix.way bs.length ts] = posix.clean target := by
  have htarget : ∀ e ∈ posix.resolvedElements target, IsElement posix e :=
    fun e he => isElement_of_mem_resolvedElements he
  have hts : ∀ e ∈ ts, IsRun posix e :=
    fun e he => noSep_targetRuns _ htarget e (by rw [hct]; exact List.mem_append_right _ he)
  have hne := way_ne_nil hts hends
  have hroot := isRooted_way bs.length hts
  refine ⟨hne, hroot, ?_⟩
  have hleft : posix.resolvedElements target = cs ++ ts.filter fun e => e ≠ [] ∧ e ≠ ['.'] := by
    have hcs : cs.filter (fun e => e ≠ [] ∧ e ≠ ['.']) = cs := by
      apply filter_isElement
      intro e he
      apply isElement_of_mem_resolvedElements
      rw [hcb]
      exact List.mem_append_left _ he
    rw [← filter_targetRuns (posix.isRooted target) htarget, hct, List.filter_append, hcs]
  have hdown := resolvedElements_resolved posix target
  rw [hleft, ← hrooted] at hdown
  rw [join_posix_pair base hne hroot, elements_way _ hts, resolve_way hcb hparent hdown, ← hleft,
    clean_posix, normalForm_eq, hrooted]

/-- Under the POSIX dialect every base and target have an answer. It is an error exactly when only
one of them is rooted, or neither is and the cleaned base has more leading `..` elements than the
cleaned target. Any other answer is a text that is not empty and not rooted, and that joined to the
base gives the cleaned target. -/
theorem rel_posix_exact (base target : Text) :
    (posix.rel base target = .error (.unrelated base target) ∨
      ∃ r, posix.rel base target = .ok r) ∧
    (posix.rel base target = .error (.unrelated base target) ↔
      posix.isRooted base ≠ posix.isRooted target ∨
      (posix.isRooted base = false ∧ posix.isRooted target = false ∧
        leadingParents (posix.elements (posix.clean target)) <
          leadingParents (posix.elements (posix.clean base)))) ∧
    ∀ r, posix.rel base target = .ok r →
      r ≠ [] ∧ posix.isRooted r = false ∧ posix.join [base, r] = posix.clean target := by
  rw [clean_posix target, clean_posix base, elements_normalForm, elements_normalForm]
  by_cases hrooted : posix.isRooted base = posix.isRooted target
  · by_cases hclean : posix.clean target = posix.clean base
    -- Equal cleaned paths are told apart by a `.`.
    · have hrel : posix.rel base target = .ok ['.'] :=
        rel_of_sameWord (sameWord_posix_iff.2 hclean)
      have helements : posix.resolvedElements target = posix.resolvedElements base := by
        rw [← elements_normalForm, ← elements_normalForm, ← clean_posix, ← clean_posix, hclean]
      rw [hrel, helements]
      refine ⟨Or.inr ⟨_, rfl⟩, ?_, ?_⟩
      · simp [hrooted]
      · intro r hr
        obtain rfl : ['.'] = r := Except.ok.inj hr
        refine ⟨List.cons_ne_nil _ _, rfl, ?_⟩
        rw [join_posix_pair base (List.cons_ne_nil _ _) rfl, elements_dot, List.append_nil,
          ← clean_posix, hclean, clean_posix]
        rfl
    · obtain ⟨cs, bs, ts, hcb, hct, hparts, hends, hrel⟩ := rel_posix_eq hclean hrooted
      have hresolved := resolvedElements_resolved posix base
      rw [hcb] at hresolved
      have hparent := head_eq_parent_iff hresolved hparts
      rw [← hct, ← hcb, leadingParents_targetRuns] at hparent
      rw [hrel]
      -- A `..` left of the base cannot be climbed, and one is left exactly when the base has more
      -- of them.
      by_cases hhead : bs.head? = some parentElement
      · rw [if_pos hhead]
        refine ⟨Or.inl rfl, ?_, fun r hr => by simp at hr⟩
        have hunrooted : posix.isRooted base = false := by
          cases hr : posix.isRooted base with
          | false => rfl
          | true =>
              rw [hr] at hresolved
              refine absurd ?_ hresolved.parentElement_notMem
              exact List.mem_append_right _ (List.mem_of_head? hhead)
        exact ⟨fun _ => Or.inr ⟨hunrooted, hrooted ▸ hunrooted, hparent.1 hhead⟩, fun _ => rfl⟩
      · rw [if_neg hhead]
        refine ⟨Or.inr ⟨_, rfl⟩, ?_, ?_⟩
        · constructor
          · intro h
            cases h
          · rintro (hne | ⟨-, -, hlt⟩)
            · exact absurd hrooted hne
            · exact absurd (hparent.2 hlt) hhead
        · intro r hr
          obtain rfl := Except.ok.inj hr
          have hway := join_way_posix hrooted hcb hct hends hhead
          rwa [clean_posix] at hway
  · have hrel := rel_posix_of_rooted_ne hrooted
    rw [hrel]
    exact ⟨Or.inl rfl, ⟨fun _ => Or.inl hrooted, fun _ => rfl⟩, fun r hr => by simp at hr⟩

/-- There is a way to a sibling. -/
theorem rel_posix_exact_sibling :
    ∃ r, posix.rel ['a'] ['b'] = .ok r ∧ posix.join [['a'], r] = posix.clean ['b'] := by
  obtain ⟨hanswer, hiff, hround⟩ := rel_posix_exact ['a'] ['b']
  rcases hanswer with herror | ⟨r, hr⟩
  · exact absurd (hiff.1 herror) (by decide)
  · exact ⟨r, hr, (hround r hr).2.2⟩

/-! ## From a base to what is joined to it -/

section Below

variable {base r : Text}

/-- A text that is not rooted, joined to a base, has the root of the base, and its elements resolve
to those of both. Two empty texts join to an empty one, which has neither as well. -/
theorem resolvedElements_join (base : Text) (hr : posix.isRooted r = false) :
    posix.isRooted (posix.join [base, r]) = posix.isRooted base ∧
      posix.resolvedElements (posix.join [base, r]) =
        resolve (posix.isRooted base) (posix.elements base ++ posix.elements r) := by
  cases hfirst : [base, r].find? (fun e => e ≠ []) with
  | none =>
      have hempty : ∀ e ∈ [base, r], e = [] := by simpa using hfirst
      rw [join_of_empty posix hempty, hempty base (by simp), hempty r (by simp)]
      exact ⟨rfl, rfl⟩
  | some e =>
      have hroot : posix.isRooted e = posix.isRooted base := by
        by_cases hbase : base = []
        · rw [hbase, List.find?_cons_of_neg (by simp)] at hfirst
          rw [List.mem_singleton.1 (List.mem_of_find?_eq_some hfirst), hr, hbase]
          rfl
        · rw [List.find?_cons_of_pos (by simpa using hbase)] at hfirst
          rw [Option.some.inj hfirst]
      obtain ⟨-, hrooted, helements⟩ := join_posix_parts hfirst
      rw [hroot] at hrooted helements
      rw [List.flatMap_cons, List.flatMap_singleton] at helements
      refine ⟨hrooted, ?_⟩
      rw [resolvedElements, hrooted, helements, (resolve_resolved _ _).resolve_eq]

/-- The elements of a relative path resolve to names when its cleaned form is not `..` and does not
start with `../`. -/
theorem parentElement_notMem_of_clean (hr : posix.isRooted r = false)
    (hup : posix.clean r ≠ ['.', '.']) (hups : ¬ ['.', '.', '/'] <+: posix.clean r) :
    parentElement ∉ posix.resolvedElements r := by
  have hresolved := resolvedElements_resolved posix r
  have helements : ∀ e ∈ posix.resolvedElements r, IsElement posix e :=
    fun e he => isElement_of_mem_resolvedElements he
  rw [clean_posix, normalForm_eq, hr] at hup hups
  generalize posix.resolvedElements r = es at hresolved helements hup hups ⊢
  cases es with
  | nil => exact List.not_mem_nil
  | cons e es =>
      refine hresolved.notMem_cons ?_
      rintro rfl
      rw [writeElements_unrooted helements (List.cons_ne_nil _ es)] at hup hups
      cases es with
      | nil => exact hup rfl
      | cons f es => exact hups (List.prefix_append _ ([posix.sep].intercalate (f :: es)))

/-- The path from a base to names below it is spelled from these names. -/
theorem rel_of_names_below {target : Text} {names : List Text}
    (hrooted : posix.isRooted target = posix.isRooted base)
    (helements : posix.resolvedElements target = posix.resolvedElements base ++ names)
    (hnames : names ≠ []) :
    posix.rel base target = .ok ([posix.sep].intercalate names) := by
  have hbase := relativeBase_posix base
  have htarget := relativeTarget_posix target
  have hruns : targetRuns (posix.isRooted target) (posix.resolvedElements target) =
      posix.resolvedElements base ++ names := by
    rw [targetRuns, if_neg (by simp [helements, hnames]), helements]
  rw [← List.append_nil (posix.resolvedElements base)] at hbase
  rw [hruns] at htarget
  have hparting : posix.Parting (posix.resolvedElements base) [] (posix.resolvedElements base)
      names := by
    refine ⟨rfl, fun h => absurd ?_ hnames⟩
    exact List.map_eq_nil_iff.1 (List.head?_eq_none_iff.1 h.symm)
  -- The cleaned target has more elements than the cleaned base.
  have hdiffer : ¬ posix.sameWord (posix.clean target) (posix.clean base) = true := by
    rw [sameWord_posix_iff, clean_posix, clean_posix, normalForm_eq_iff, helements,
      List.append_right_eq_self]
    exact fun h => hnames h.2
  have helement {t e : Text} (he : e ∈ posix.resolvedElements t) : IsRun posix e :=
    (isElement_of_mem_resolvedElements he).isRun
  rw [rel_eq hbase htarget (fun e he => helement (List.append_nil _ ▸ he))
    (fun e he => helement (helements ▸ he)) hparting, if_neg hdiffer, hrooted,
    if_neg (by simp [volumeName_posix, sameWord_self]), if_neg (by simp [hnames]), if_neg (by simp)]
  rfl

/-- The POSIX path from a base to what is joined to it is the joined path cleaned, if this one has no
root and does not lead out of the base. -/
theorem rel_join_eq_clean (base r : Text) (hr : posix.isRooted r = false)
    (hup : posix.clean r ≠ ['.', '.']) (hups : ¬ ['.', '.', '/'] <+: posix.clean r) :
    posix.rel base (posix.join [base, r]) = .ok (posix.clean r) := by
  obtain ⟨hrooted, hjoin⟩ := resolvedElements_join base hr
  have hparent := parentElement_notMem_of_clean hr hup hups
  have hnames : posix.resolvedElements r = resolve false (posix.elements r) := by
    rw [resolvedElements, hr]
  rw [hnames] at hparent
  rw [resolve_append_of_notMem _ hparent, ← hnames] at hjoin
  have helements : ∀ e ∈ posix.resolvedElements r, IsElement posix e :=
    fun e he => isElement_of_mem_resolvedElements he
  rw [clean_posix r, normalForm_eq, hr]
  by_cases hnil : posix.resolvedElements r = []
  -- Without a name the joined path is the base, and the relative path is a `.`.
  · rw [hnil, List.append_nil] at hjoin
    have hsame : posix.clean (posix.join [base, r]) = posix.clean base := by
      rw [clean_posix, clean_posix, normalForm_eq_iff]
      exact ⟨hrooted, hjoin⟩
    rw [rel_of_sameWord (sameWord_posix_iff.2 hsame), hnil]
    rfl
  · rw [rel_of_names_below hrooted hjoin hnil, writeElements_unrooted helements hnil]

/-- Below a base that leads up, behind a name of its own again. -/
theorem rel_join_eq_clean_repeated :
    posix.clean "a/./b/".toList = "a/b".toList ∧
      posix.rel "../a".toList (posix.join ["../a".toList, "a/./b/".toList]) =
        .ok (posix.clean "a/./b/".toList) :=
  ⟨by decide, rel_join_eq_clean _ _ (by decide) (by decide) (by decide)⟩

end Below

end Dialect

end PathAlgebra
