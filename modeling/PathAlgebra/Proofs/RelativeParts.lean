import Mathlib.Data.List.TakeWhile
import PathAlgebra.Proofs.Spelling
import PathAlgebra.Relative

/-!
# The parts of a relative path

Looking for the path from a base to a target, both are read as runs between separators. The runs
that count as the same names are dropped (`Parting`), a `..` is written for each one left of the
base, and those left of the target follow (`way`). `rel_eq` says what the answer is, in either
dialect, by what is left of both: the search for the first difference drops exactly the shared names
(`firstDifference_spell`), and the way is spelled as the runs of the climb
(`ascend_intercalate`). The way from the elements of the base leads to those of the target
(`resolve_way`).
-/

set_option autoImplicit false

namespace PathAlgebra

/-! ## Leading parents -/

/-- The number of `..` elements at the front. -/
def leadingParents (es : List Text) : Nat := (es.takeWhile fun e => e == parentElement).length

theorem leadingParents_append (cs es : List Text) :
    leadingParents (cs ++ es) =
      if leadingParents cs = cs.length then cs.length + leadingParents es
      else leadingParents cs := by
  unfold leadingParents
  rw [List.takeWhile_append]
  by_cases hall : (cs.takeWhile fun e => e == parentElement).length = cs.length
  · rw [if_pos hall, if_pos hall, List.length_append]
  · rw [if_neg hall, if_neg hall]

theorem leadingParents_eq_zero {es : List Text} (h : es.head? ≠ some parentElement) :
    leadingParents es = 0 := by
  cases es with
  | nil => rfl
  | cons e es =>
      have he : e ≠ parentElement := fun he => h (by rw [he]; rfl)
      rw [leadingParents, List.takeWhile_cons_of_neg (by simpa using he), List.length_nil]

theorem leadingParents_replicate (n : Nat) :
    leadingParents (List.replicate n parentElement) = n := by
  rw [leadingParents, List.takeWhile_replicate, if_pos (by simp), List.length_replicate]

/-- Behind a shared beginning a resolved list goes on with `..` exactly when it has more leading
`..` elements than the other list. -/
theorem head_eq_parent_iff {rooted : Bool} {cs bs ts : List Text}
    (hresolved : Resolved rooted (cs ++ bs)) (hparts : bs.head? = ts.head? → bs = [] ∧ ts = []) :
    bs.head? = some parentElement ↔ leadingParents (cs ++ ts) < leadingParents (cs ++ bs) := by
  constructor
  · intro hhead
    cases bs with
    | nil => simp at hhead
    | cons b bs =>
        obtain rfl : b = parentElement := Option.some.inj hhead
        have hcons : cs ++ parentElement :: bs = cs ++ [parentElement] ++ bs := by simp
        rw [hcons] at hresolved
        -- A `..` behind the beginning makes all of the beginning `..`.
        have hcs := hresolved.of_append.eq_replicate_of_last.2
        have hall : leadingParents cs = cs.length := by
          conv_lhs => rw [hcs]
          exact leadingParents_replicate _
        have hts : leadingParents ts = 0 := by
          refine leadingParents_eq_zero fun h => ?_
          exact absurd (hparts (hhead.trans h.symm)).1 (List.cons_ne_nil _ _)
        have hbs : 0 < leadingParents (parentElement :: bs) := by
          rw [leadingParents, List.takeWhile_cons_of_pos (by simp), List.length_cons]
          exact Nat.succ_pos _
        rw [leadingParents_append, leadingParents_append, if_pos hall, if_pos hall]
        omega
  · intro hlt
    by_contra hhead
    -- Otherwise the first list has no more of them than the beginning gives to both.
    have hbs := leadingParents_eq_zero hhead
    rw [leadingParents_append, leadingParents_append, hbs] at hlt
    split at hlt <;> omega

namespace Dialect

variable {d : Dialect}

/-! ## Names -/

/-- What counts of a name when names are compared. -/
def nameKey : Dialect → Text → Text
  | posix, t => t
  | windows, t => t.lowerCase

theorem sameWord_iff {a b : Text} : d.sameWord a b = true ↔ d.nameKey a = d.nameKey b := by
  cases d <;> simp [sameWord, nameKey]

theorem sameWord_self (d : Dialect) (t : Text) : d.sameWord t t = true :=
  sameWord_iff.2 rfl

theorem sameWord_congr {a a' b b' : Text} (ha : d.nameKey a = d.nameKey a')
    (hb : d.nameKey b = d.nameKey b') : d.sameWord a b = d.sameWord a' b' := by
  rw [Bool.eq_iff_iff, sameWord_iff, sameWord_iff, ha, hb]

/-- A target that is cleaned to the same word as the base is reached by a `.`. -/
theorem rel_of_sameWord {base target : Text}
    (h : d.sameWord (d.clean target) (d.clean base) = true) : d.rel base target = .ok ['.'] :=
  if_pos h

/-- Only the empty text counts as nothing. -/
theorem nameKey_eq_nil_iff {t : Text} : d.nameKey t = [] ↔ t = [] := by
  cases d with
  | posix => rfl
  | windows =>
      cases t with
      | nil => simp [nameKey, Text.lowerCase, Text.lowerFrom]
      | cons c t =>
          have hchar (before after : Text) : Text.lowerAt before after c ≠ [] := by
            unfold Text.lowerAt
            split
            · exact List.cons_ne_nil _ _
            · split
              · exact List.cons_ne_nil _ _
              · exact List.cons_ne_nil _ _
          simp [nameKey, Text.lowerCase, Text.lowerFrom, hchar]

/-- The runs of a base and a target, each cut behind the names that both share. -/
structure Parting (d : Dialect) (cs bs cs' ts : List Text) : Prop where
  shared : cs.map d.nameKey = cs'.map d.nameKey
  parts : (bs.map d.nameKey).head? = (ts.map d.nameKey).head? → bs = [] ∧ ts = []

theorem exists_parting (d : Dialect) (es fs : List Text) :
    ∃ cs bs cs' ts, es = cs ++ bs ∧ fs = cs' ++ ts ∧ d.Parting cs bs cs' ts := by
  obtain ⟨ks, bks, tks, hes, hfs, hparts⟩ :=
    exists_shared_beginning (es.map d.nameKey) (fs.map d.nameKey)
  obtain ⟨cs, bs, rfl, rfl, rfl⟩ := List.map_eq_append_iff.1 hes
  obtain ⟨cs', ts, rfl, hshared, rfl⟩ := List.map_eq_append_iff.1 hfs
  exact ⟨cs, bs, cs', ts, rfl, rfl, hshared.symm, by simpa using hparts⟩

/-- Where the runs part and do not both end, the next names differ. -/
theorem Parting.sameWord_headD {cs bs cs' ts : List Text} (h : d.Parting cs bs cs' ts)
    (hbs : ∀ e ∈ bs, e ≠ []) (hts : ∀ e ∈ ts, e ≠ []) (hends : ¬ (bs = [] ∧ ts = [])) :
    d.sameWord (ts.headD []) (bs.headD []) = false := by
  rw [Bool.eq_false_iff, Ne, sameWord_iff]
  intro heq
  apply hends
  apply h.parts
  -- A missing name reads as the empty word, which no name is.
  have hnil : d.nameKey [] = [] := nameKey_eq_nil_iff.2 rfl
  cases bs with
  | nil =>
      cases ts with
      | nil => rfl
      | cons t ts => exact absurd (nameKey_eq_nil_iff.1 (heq.trans hnil)) (hts t List.mem_cons_self)
  | cons b bs =>
      cases ts with
      | nil =>
          exact absurd (nameKey_eq_nil_iff.1 (heq.symm.trans hnil)) (hbs b List.mem_cons_self)
      | cons t ts => exact congrArg some heq.symm

/-! ## The first difference -/

theorem firstElement_intercalate {es : List Text} (h : ∀ e ∈ es, d.sep ∉ e) :
    d.firstElement ([d.sep].intercalate es) = es.headD [] := by
  cases es with
  | nil => rfl
  | cons e es =>
      have he : ∀ c ∈ e, (c != d.sep) = true := by
        intro c hc
        simp only [bne_iff_ne]
        rintro rfl
        exact h e List.mem_cons_self hc
      rw [firstElement]
      by_cases hes : es = []
      · rw [hes, List.intercalate_singleton, List.takeWhile_eq_self_iff.2 he]
        rfl
      · rw [List.intercalate_cons_of_ne_nil hes, List.append_assoc, List.singleton_append,
          List.takeWhile_append_of_pos he, List.takeWhile_cons_of_neg (by simp), List.append_nil]
        rfl

theorem afterFirst_intercalate {e : Text} {es : List Text} (h : d.sep ∉ e) :
    d.afterFirst ([d.sep].intercalate (e :: es)) =
      if es = [] then [] else d.sep :: [d.sep].intercalate es := by
  have he : ∀ c ∈ e, (c != d.sep) = true := by
    intro c hc
    simp only [bne_iff_ne]
    rintro rfl
    exact h hc
  rw [afterFirst]
  by_cases hes : es = []
  · rw [if_pos hes, hes, List.intercalate_singleton, List.dropWhile_eq_nil_iff.2 he]
  · rw [if_neg hes, List.intercalate_cons_of_ne_nil hes, List.append_assoc, List.singleton_append,
      List.dropWhile_append_of_pos he, List.dropWhile_cons_of_neg (by simp)]

theorem firstDifference_of_ne {base target : Text}
    (h : d.sameWord (d.firstElement target) (d.firstElement base) = false) :
    d.firstDifference base target = some (base, target) := by
  rw [firstDifference, if_neg (by simp [h])]

/-- Equal first elements are dropped together with the separator behind them. -/
theorem firstDifference_of_eq {base target : Text}
    (h : d.sameWord (d.firstElement target) (d.firstElement base) = true)
    (hmore : d.afterFirst base ≠ [] ∨ d.afterFirst target ≠ []) :
    d.firstDifference base target =
      d.firstDifference (d.afterFirst base).tail (d.afterFirst target).tail := by
  rw [firstDifference, if_pos h]
  split
  · next hb ht =>
    rcases hmore with hmore | hmore
    · exact absurd hb hmore
    · exact absurd ht hmore
  · next hb ht => rw [hb, ht]; rfl
  · next hb ht => rw [hb, ht]; rfl
  · next hb ht => rw [hb, ht]; rfl

/-- Equal first elements with nothing behind them leave no difference. -/
theorem firstDifference_of_ends {base target : Text}
    (h : d.sameWord (d.firstElement target) (d.firstElement base) = true)
    (hbase : d.afterFirst base = []) (htarget : d.afterFirst target = []) :
    d.firstDifference base target = none := by
  rw [firstDifference, if_pos h]
  split
  · rfl
  · next heq => simp [htarget] at heq
  · next heq _ => simp [hbase] at heq
  · next heq _ => simp [hbase] at heq

/-- The search drops the shared names, and finds no difference when both texts end with them. -/
theorem firstDifference_of_parting {cs bs cs' ts : List Text} (h : d.Parting cs bs cs' ts)
    (hbs : ∀ e ∈ cs ++ bs, e ≠ [] ∧ d.sep ∉ e) (hts : ∀ e ∈ cs' ++ ts, e ≠ [] ∧ d.sep ∉ e) :
    d.firstDifference ([d.sep].intercalate (cs ++ bs)) ([d.sep].intercalate (cs' ++ ts)) =
      if bs = [] ∧ ts = [] then none
      else some ([d.sep].intercalate bs, [d.sep].intercalate ts) := by
  induction cs generalizing cs' with
  | nil =>
      have hcs' : cs' = [] := List.map_eq_nil_iff.1 h.shared.symm
      subst hcs'
      by_cases hends : bs = [] ∧ ts = []
      · rw [if_pos hends, hends.1, hends.2]
        exact firstDifference_of_ends (sameWord_self d []) rfl rfl
      · rw [if_neg hends]
        apply firstDifference_of_ne
        simp only [List.nil_append] at hbs hts ⊢
        rw [firstElement_intercalate fun e he => (hbs e he).2,
          firstElement_intercalate fun e he => (hts e he).2]
        exact h.sameWord_headD (fun e he => (hbs e he).1) (fun e he => (hts e he).1) hends
  | cons c cs ih =>
      obtain ⟨c', cs', rfl⟩ : ∃ c' cs'', cs' = c' :: cs'' := by
        cases cs' with
        | nil => exact absurd h.shared (by simp)
        | cons c' cs' => exact ⟨c', cs', rfl⟩
      obtain ⟨hkey, hshared⟩ := List.cons.inj h.shared
      have hc : d.sep ∉ c := (hbs c List.mem_cons_self).2
      have hc' : d.sep ∉ c' := (hts c' List.mem_cons_self).2
      have hsame : d.sameWord (d.firstElement ([d.sep].intercalate (c' :: cs' ++ ts)))
          (d.firstElement ([d.sep].intercalate (c :: cs ++ bs))) = true := by
        rw [firstElement_intercalate fun e he => (hbs e he).2,
          firstElement_intercalate fun e he => (hts e he).2]
        exact sameWord_iff.2 hkey.symm
      have htail {a : Text} (ha : d.sep ∉ a) (es : List Text) :
          (d.afterFirst ([d.sep].intercalate (a :: es))).tail = [d.sep].intercalate es := by
        rw [afterFirst_intercalate ha]
        split
        · next hes => rw [hes]; rfl
        · rfl
      have hstep := ih ⟨hshared, h.parts⟩ (fun e he => hbs e (List.mem_cons_of_mem _ he))
        fun e he => hts e (List.mem_cons_of_mem _ he)
      by_cases hmore : cs ++ bs = [] ∧ cs' ++ ts = []
      -- Both texts end with the shared name.
      · obtain ⟨hb, ht⟩ := hmore
        rw [if_pos ⟨(List.append_eq_nil_iff.1 hb).2, (List.append_eq_nil_iff.1 ht).2⟩]
        apply firstDifference_of_ends hsame
        · rw [List.cons_append, afterFirst_intercalate hc, if_pos hb]
        · rw [List.cons_append, afterFirst_intercalate hc', if_pos ht]
      -- One shared name is dropped from both, and the search goes on behind it.
      · have hnext : d.afterFirst ([d.sep].intercalate (c :: cs ++ bs)) ≠ [] ∨
            d.afterFirst ([d.sep].intercalate (c' :: cs' ++ ts)) ≠ [] := by
          rw [List.cons_append, List.cons_append, afterFirst_intercalate hc,
            afterFirst_intercalate hc']
          rcases not_and_or.1 hmore with hb | ht
          · exact .inl (by rw [if_neg hb]; exact List.cons_ne_nil _ _)
          · exact .inr (by rw [if_neg ht]; exact List.cons_ne_nil _ _)
        rw [firstDifference_of_eq hsame hnext, List.cons_append, List.cons_append, htail hc,
          htail hc']
        exact hstep

theorem firstDifference_sep_cons (d : Dialect) (b t : Text) :
    d.firstDifference (d.sep :: b) (d.sep :: t) = d.firstDifference b t := by
  have hfirst : ∀ u : Text, d.firstElement (d.sep :: u) = [] := by
    intro u
    rw [firstElement, List.takeWhile_cons_of_neg (by simp)]
  have hafter : ∀ u : Text, d.afterFirst (d.sep :: u) = d.sep :: u := by
    intro u
    rw [afterFirst, List.dropWhile_cons_of_neg (by simp)]
  rw [firstDifference_of_eq (by rw [hfirst, hfirst]; exact sameWord_self d [])
    (Or.inl (by rw [hafter]; exact List.cons_ne_nil _ _)), hafter, hafter, List.tail_cons,
    List.tail_cons]

/-- A root in front of both texts is dropped before their shared names. -/
theorem firstDifference_spell {rooted : Bool} {cs bs cs' ts : List Text}
    (h : d.Parting cs bs cs' ts) (hbs : ∀ e ∈ cs ++ bs, IsRun d e)
    (hts : ∀ e ∈ cs' ++ ts, IsRun d e) :
    d.firstDifference (d.spell rooted (cs ++ bs)) (d.spell rooted (cs' ++ ts)) =
      if bs = [] ∧ ts = [] then none
      else some ([d.sep].intercalate bs, [d.sep].intercalate ts) := by
  have hsearch := firstDifference_of_parting h (fun e he => ⟨(hbs e he).1, (hbs e he).sep_notMem⟩)
    fun e he => ⟨(hts e he).1, (hts e he).sep_notMem⟩
  rw [spell, spell]
  cases rooted with
  | true =>
      rw [if_pos rfl, List.singleton_append, List.singleton_append, firstDifference_sep_cons]
      exact hsearch
  | false => exact hsearch

/-! ## The way up and down -/

/-- The way up by a number of elements and down along runs. -/
def way (d : Dialect) (up : Nat) (down : List Text) : Text :=
  [d.sep].intercalate (List.replicate up parentElement ++ down)

theorem count_sep_intercalate {e : Text} {es : List Text} (h : ∀ f ∈ e :: es, d.sep ∉ f) :
    ([d.sep].intercalate (e :: es)).count d.sep = es.length := by
  induction es generalizing e with
  | nil =>
      rw [List.intercalate_singleton, List.length_nil]
      exact List.count_eq_zero_of_not_mem (h e List.mem_cons_self)
  | cons f es ih =>
      rw [List.intercalate_cons_cons, List.append_assoc, List.singleton_append, List.count_append,
        List.count_eq_zero_of_not_mem (h e List.mem_cons_self), List.count_cons_self,
        ih fun g hg => h g (List.mem_cons_of_mem _ hg), List.length_cons]
      omega

theorem intercalate_parents (d : Dialect) (n : Nat) (ts : List Text) :
    [d.sep].intercalate (List.replicate (n + 1) parentElement ++ ts) =
      ['.', '.'] ++ (List.replicate n [d.sep, '.', '.']).flatten ++
        if ts = [] then [] else d.sep :: [d.sep].intercalate ts := by
  induction n with
  | zero =>
      by_cases hts : ts = []
      · simp [hts, parentElement]
      · rw [if_neg hts, List.replicate_succ, List.replicate_zero, List.singleton_append,
          List.intercalate_cons_of_ne_nil hts]
        rfl
  | succ n ih =>
      rw [List.replicate_succ, List.cons_append,
        List.intercalate_cons_of_ne_nil (by simp [List.replicate_succ]), ih, List.replicate_succ,
        List.flatten_cons]
      simp [parentElement]

/-- The way from one list of elements to another: a `..` for each element left of the first, and
then the second. -/
theorem ascend_intercalate {bs ts : List Text} (hbs : ∀ e ∈ bs, d.sep ∉ e)
    (hb : ∀ e ∈ bs, e ≠ []) (ht : ∀ e ∈ ts, e ≠ []) :
    d.ascend ([d.sep].intercalate bs) ([d.sep].intercalate ts) =
      d.way bs.length ts := by
  unfold way
  cases bs with
  | nil => rfl
  | cons b bs =>
      have hne : [d.sep].intercalate (b :: bs) ≠ [] := by
        intro hnil
        exact List.cons_ne_nil b bs ((intercalate_eq_nil_iff hb).1 hnil)
      have hcount := count_sep_intercalate hbs
      rw [List.length_cons, intercalate_parents, ← hcount]
      simp only [intercalate_eq_nil_iff ht, ascend]

/-! ## Runs of a target -/

/-- The runs of a cleaned target: its resolved elements, or `.` alone. -/
def targetRuns (rooted : Bool) (es : List Text) : List Text :=
  if rooted = false ∧ es = [] then [['.']] else es

theorem leadingParents_targetRuns (rooted : Bool) (es : List Text) :
    leadingParents (targetRuns rooted es) = leadingParents es := by
  unfold targetRuns
  split
  · next h => rw [h.2]; rfl
  · rfl

theorem noSep_targetRuns (rooted : Bool) {es : List Text} (h : ∀ e ∈ es, IsElement d e) :
    ∀ e ∈ targetRuns rooted es, IsRun d e := by
  intro e he
  unfold targetRuns at he
  split at he
  · rw [List.mem_singleton.1 he]
    exact isRun_dot d
  · exact (h e he).isRun

/-- The runs hold characters of the target, but for the `.`. -/
theorem mem_of_mem_targetRuns {rooted : Bool} {t e : Text}
    (he : e ∈ targetRuns rooted (d.resolvedElements t)) {c : Char} (hc : c ∈ e) :
    c = '.' ∨ c ∈ t := by
  unfold targetRuns at he
  split at he
  · rw [List.mem_singleton.1 he] at hc
    exact .inl (List.mem_singleton.1 hc)
  · exact .inr (mem_of_mem_resolvedElements he hc)

theorem filter_targetRuns (rooted : Bool) {es : List Text} (h : ∀ e ∈ es, IsElement d e) :
    (targetRuns rooted es).filter (fun e => e ≠ [] ∧ e ≠ ['.']) = es := by
  unfold targetRuns
  split
  · next hnil => rw [hnil.2]; rfl
  · exact filter_isElement h

theorem writeElements_eq_runs {rooted : Bool} {es : List Text} (h : ∀ e ∈ es, IsElement d e) :
    d.writeElements rooted es = d.spell rooted (targetRuns rooted es) := by
  rw [writeElements_eq]
  by_cases hnil : rooted = false ∧ es = []
  · rw [if_pos ((spell_eq_nil_iff h).2 hnil), targetRuns, if_pos hnil, hnil.1]
    rfl
  · rw [if_neg fun hs => hnil ((spell_eq_nil_iff h).1 hs), targetRuns, if_neg hnil]

/-! ## Base and target -/

/-- A target that is cleaned without a guard is compared by its runs. -/
theorem relativeTarget_of_clean {p : Text}
    (h : d.clean p = d.volumeName p ++ d.normalForm (d.tail p)) :
    d.relativeTarget p = d.spell (d.isRooted (d.tail p))
      (targetRuns (d.isRooted (d.tail p)) (d.resolvedElements (d.tail p))) := by
  rw [relativeTarget, h, List.drop_left' (volumeName_length d p), normalForm_eq,
    writeElements_eq_runs fun _ he => isElement_of_mem_resolvedElements he]

/-- A base that is cleaned without a guard is compared by its resolved elements. -/
theorem relativeBase_of_clean {p : Text}
    (h : d.clean p = d.volumeName p ++ d.normalForm (d.tail p)) :
    d.relativeBase p = d.spell (d.isRooted (d.tail p)) (d.resolvedElements (d.tail p)) := by
  have hes : ∀ e ∈ d.resolvedElements (d.tail p), IsElement d e :=
    fun e he => isElement_of_mem_resolvedElements he
  -- No spelling of elements is a `.`, so a base `.` stands for no element.
  have hdot : d.spell (d.isRooted (d.tail p)) (d.resolvedElements (d.tail p)) ≠ ['.'] := by
    intro hdot
    have hnil : d.elements (d.spell (d.isRooted (d.tail p)) (d.resolvedElements (d.tail p))) =
        d.resolvedElements (d.tail p) := elements_spell hes
    rw [hdot, elements_dot] at hnil
    rw [← hnil] at hdot
    cases hr : d.isRooted (d.tail p) <;> rw [hr] at hdot <;> cases d <;>
      exact absurd hdot (by decide)
  rw [relativeBase, h, List.drop_left' (volumeName_length d p), normalForm_eq, writeElements_eq]
  by_cases hnil : d.spell (d.isRooted (d.tail p)) (d.resolvedElements (d.tail p)) = []
  · rw [if_pos hnil, hnil]
    rfl
  · rw [if_neg hnil]
    split
    · next heq => exact absurd heq hdot
    · next heq => exact absurd heq hnil
    · rfl

/-! ## Runs of a way -/

/-- The runs of a way up and down hold no separator. -/
theorem noSep_way (n : Nat) {ts : List Text} (h : ∀ e ∈ ts, IsRun d e) :
    ∀ e ∈ List.replicate n parentElement ++ ts, IsRun d e := by
  intro e he
  rcases List.mem_append.1 he with he | he
  · rw [List.eq_of_mem_replicate he]
    exact (isElement_parent d).isRun
  · exact h e he

/-- The elements of a way up and down: the way up, and the runs below that are elements. -/
theorem elements_way (n : Nat) {ts : List Text} (h : ∀ e ∈ ts, IsRun d e) :
    d.elements (d.way n ts) =
      List.replicate n parentElement ++ ts.filter fun e => e ≠ [] ∧ e ≠ ['.'] := by
  rw [way, elements_intercalate_filter fun e he => (noSep_way n h e he).2, List.filter_append,
    filter_isElement fun e he => List.eq_of_mem_replicate he ▸ isElement_parent d]

theorem isRooted_way (n : Nat) {ts : List Text} (h : ∀ e ∈ ts, IsRun d e) :
    d.isRooted (d.way n ts) = false :=
  isRooted_intercalate (noSep_way n h)

/-- A way is empty only from a path to itself. -/
theorem way_ne_nil {bs ts : List Text} (h : ∀ e ∈ ts, IsRun d e)
    (hends : ¬ (bs = [] ∧ ts = [])) : d.way bs.length ts ≠ [] := by
  intro hnil
  have hlist := (intercalate_eq_nil_iff fun e he => (noSep_way bs.length h e he).1).1 hnil
  obtain ⟨hups, hts⟩ := List.append_eq_nil_iff.1 hlist
  refine hends ⟨?_, hts⟩
  have hlen := congrArg List.length hups
  rw [List.length_replicate] at hlen
  exact List.length_eq_zero_iff.1 hlen

/-- The way up takes off what the base has left, and the rest of the target goes on top. -/
theorem resolve_way {rooted : Bool} {es cs bs ts : List Text} (hes : resolve rooted es = cs ++ bs)
    (hbs : bs.head? ≠ some parentElement) (hdown : Resolved rooted (cs ++ ts)) :
    resolve rooted (es ++ (List.replicate bs.length parentElement ++ ts)) = cs ++ ts := by
  have hresolved := resolve_resolved rooted es
  rw [hes] at hresolved
  -- What the base has left are names, each taken off by one `..`.
  have hpop : parentElement ∉ bs.reverse := by
    rw [List.mem_reverse]
    exact hresolved.notMem_of_head hbs
  rw [resolve_append, hes, List.foldl_append, List.reverse_append, ← List.length_reverse,
    foldl_push_parents _ hpop, foldl_push_of_resolved _ _ hdown, List.reverse_reverse]

/-! ## The answer -/

theorem head_beq_sep_spell {rooted : Bool} {es : List Text} (h : ∀ e ∈ es, IsRun d e) :
    ((d.spell rooted es).head? == some d.sep) = rooted := by
  cases rooted with
  | true => exact beq_self_eq_true _
  | false =>
      have hroot : d.isRooted (d.spell false es) = false := isRooted_intercalate h
      cases hspell : d.spell false es with
      | nil => rfl
      | cons c t =>
          rw [hspell] at hroot
          have hc : c ≠ d.sep := by
            rintro rfl
            have hsep : d.isRooted (d.sep :: t) = true := isSep_sep d
            rw [hsep] at hroot
            cases hroot
          simpa using hc

/-- What the answer is, by the runs that are left of the base and of the target behind the names
they share. -/
theorem rel_eq {base target : Text} {rb rt : Bool} {cs bs cs' ts : List Text}
    (hbase : d.relativeBase base = d.spell rb (cs ++ bs))
    (htarget : d.relativeTarget target = d.spell rt (cs' ++ ts))
    (hbs : ∀ e ∈ cs ++ bs, IsRun d e) (hts : ∀ e ∈ cs' ++ ts, IsRun d e)
    (h : d.Parting cs bs cs' ts) :
    d.rel base target =
      if d.sameWord (d.clean target) (d.clean base) = true then .ok ['.']
      else if rb ≠ rt ∨ d.sameWord (d.volumeName base) (d.volumeName target) = false then
        .error (.unrelated base target)
      else if bs = [] ∧ ts = [] then .error (.noDifference base target)
      else if bs.head? = some parentElement then .error (.unrelated base target)
      else .ok (d.way bs.length ts) := by
  have hunrelated : ((rb != rt) || !d.sameWord (d.volumeName base) (d.volumeName target)) = true ↔
      rb ≠ rt ∨ d.sameWord (d.volumeName base) (d.volumeName target) = false := by
    simp
  rw [rel]
  simp only [hbase, htarget, head_beq_sep_spell hbs, head_beq_sep_spell hts, hunrelated]
  refine if_congr Iff.rfl rfl ?_
  by_cases hne : rb ≠ rt ∨ d.sameWord (d.volumeName base) (d.volumeName target) = false
  · rw [if_pos hne, if_pos hne]
  rw [if_neg hne, if_neg hne]
  have hroot : rb = rt := not_not.1 (not_or.1 hne).1
  rw [hroot, firstDifference_spell h hbs hts]
  by_cases hends : bs = [] ∧ ts = []
  · rw [if_pos hends, if_pos hends]
  rw [if_neg hends, if_neg hends]
  have hsepbs : ∀ e ∈ bs, d.sep ∉ e := fun e he => (hbs e (List.mem_append_right _ he)).sep_notMem
  have hfirst : d.firstElement ([d.sep].intercalate bs) = ['.', '.'] ↔
      bs.head? = some parentElement := by
    rw [firstElement_intercalate hsepbs]
    cases bs with
    | nil => simp
    | cons b bs => simp [parentElement]
  have hascend := ascend_intercalate hsepbs (fun e he => (hbs e (List.mem_append_right _ he)).1)
    fun e he => (hts e (List.mem_append_right _ he)).1
  simp only [hfirst, hascend]

end Dialect

end PathAlgebra
