import Mathlib.Data.List.Induction
import PathAlgebra.Proofs.PathParts
import PathAlgebra.Proofs.PatternComponents

/-!
# What expansion finds

Expansion takes the pattern apart from its end, one listing for each component from the first with
a special character on. `Found` says what it collects, as lists of names: the components before
that one stand for themselves, and each later name is listed in the path before it and matches its
component. `expandInAll_eq` is one step, and `glob_eq_found` the whole expansion, by induction over
the components from the end; lists of names come in strictly increasing order.

`glob_exact` puts this together with matching of whole paths: expansion returns exactly the paths
that match the pattern and whose components are listed from the first special one on.
-/

set_option autoImplicit false

namespace PathAlgebra

/-! ## Order of names -/

/-- Distinct names come out of sorting in strictly increasing order. -/
theorem pairwise_lt_mergeSort {names : List Text} (h : names.Nodup) :
    (names.mergeSort fun a b => !decide (b < a)).Pairwise (· < ·) := by
  have hsorted : (names.mergeSort fun a b => !decide (b < a)).Pairwise
      fun a b => (!decide (b < a)) = true := by
    apply List.pairwise_mergeSort
    · intro a b c hab hbc
      simp only [Bool.not_eq_true', decide_eq_false_iff_not] at *
      exact List.le_trans hab hbc
    · intro a b
      simp only [Bool.or_eq_true, Bool.not_eq_true', decide_eq_false_iff_not]
      exact List.le_total a b
  have hnodup : (names.mergeSort fun a b => !decide (b < a)).Nodup :=
    (List.mergeSort_perm names _).nodup_iff.2 h
  -- Names that are sorted and distinct are strictly sorted.
  refine (hsorted.and hnodup).imp ?_
  rintro a b ⟨hle, hne⟩
  rw [Bool.not_eq_true', decide_eq_false_iff_not] at hle
  exact (List.le_iff_lt_or_eq.1 hle).resolve_right hne

variable {d : Dialect} {source : Source} {front es : List Text} {e : Text}

/-! ## One directory -/

/-- A name is in a directory that can be listed. -/
def Listed (source : Source) (dir name : Text) : Prop :=
  ∃ names, source.list dir = .ok names ∧ name ∈ names

namespace Dialect

/-- Whether a name matches a pattern, when that is no error. -/
def accepts (d : Dialect) (pattern name : Text) : Bool :=
  decide (d.matchName pattern name = .ok true)

/-- The names in a directory that match a pattern, in order; none when it cannot be listed. -/
def entries (d : Dialect) (source : Source) (pattern dir : Text) : List Text :=
  match source.list dir with
  | .error _ => []
  | .ok names => (names.mergeSort fun a b => !decide (b < a)).filter (d.accepts pattern)

/-- Where no name is an error, the ones that match are collected. -/
theorem matching_eq {dir pattern : Text} {names : List Text}
    (h : ∀ name ∈ names, ∃ answer, d.matchName pattern name = .ok answer) :
    d.matching dir pattern names =
      .ok ((names.filter (d.accepts pattern)).map fun name => d.join [dir, name]) := by
  induction names with
  | nil => rfl
  | cons name names ih =>
      obtain ⟨answer, hanswer⟩ := h name List.mem_cons_self
      rw [matching, hanswer, ih fun n hn => h n (List.mem_cons_of_mem _ hn)]
      cases answer with
      | false =>
          rw [List.filter_cons_of_neg (by simp [accepts, hanswer])]
          rfl
      | true =>
          rw [List.filter_cons_of_pos (by simp [accepts, hanswer])]
          rfl

theorem expandIn_eq {dir pattern : Text}
    (h : ∀ name, Listed source dir name → ∃ answer, d.matchName pattern name = .ok answer) :
    (d.expandIn source pattern dir).result =
      .ok ((d.entries source pattern dir).map fun name => d.join [dir, name]) := by
  rw [expandIn, entries]
  cases hlist : source.list dir with
  | error reason => rfl
  | ok names => exact matching_eq fun name hname => h name ⟨names, hlist, by simpa using hname⟩

/-- Several directories are expanded one after the other. -/
theorem expandInAll_eq {pattern : Text} {dirs : List Text}
    (h : ∀ dir ∈ dirs, ∀ name, Listed source dir name →
      ∃ answer, d.matchName pattern name = .ok answer) :
    (d.expandInAll source pattern dirs).result = .ok (dirs.flatMap fun dir =>
      (d.entries source pattern dir).map fun name => d.join [dir, name]) := by
  induction dirs with
  | nil => rfl
  | cons dir dirs ih =>
      rw [List.forall_mem_cons] at h
      rw [expandInAll, Observed.bind_ok (expandIn_eq h.1), Observed.bind_ok (ih h.2),
        List.flatMap_cons]
      rfl

end Dialect

/-- A source whose directories list distinct names, each a single element. -/
def TidySource (d : Dialect) (source : Source) : Prop :=
  ∀ dir names, source.list dir = .ok names → names.Nodup ∧ ∀ name ∈ names, IsEntry d name

/-- A tree whose directories hold distinct entries is tidy. -/
theorem tidySource_tree {t : Tree}
    (h : ∀ dir ∈ t.dirs, dir.2.Nodup ∧ ∀ name ∈ dir.2, IsEntry d name) :
    TidySource d t.source := by
  intro dir names hlist
  change t.list dir = .ok names at hlist
  rw [Tree.list] at hlist
  split at hlist
  · cases hlist
  · split at hlist
    · cases hlist
    · split at hlist
      · next found hlookup =>
        cases hlist
        obtain ⟨before, after, hdirs, -⟩ := List.lookup_eq_some_iff.1 hlookup
        exact h (dir, names) (by simp [hdirs])
      · cases hlist

theorem TidySource.isEntry (h : TidySource d source) {dir name : Text}
    (hname : Listed source dir name) : IsEntry d name := by
  obtain ⟨names, hlist, hmem⟩ := hname
  exact (h dir names hlist).2 name hmem

theorem mem_entries_iff {pattern dir name : Text} :
    name ∈ d.entries source pattern dir ↔
      Listed source dir name ∧ d.matchName pattern name = .ok true := by
  rw [Dialect.entries, Listed]
  cases source.list dir with
  | error reason => simp
  | ok names => simp [Dialect.accepts]

theorem entries_pairwise (h : TidySource d source) (pattern dir : Text) :
    (d.entries source pattern dir).Pairwise (· < ·) := by
  rw [Dialect.entries]
  cases hlist : source.list dir with
  | error reason => exact .nil
  | ok names => exact (pairwise_lt_mergeSort (h dir names hlist).1).filter _

/-! ## Found names -/

/-- The names found for components behind a front: components without special characters stand for
themselves, and any component from the first special one on is listed in the path before it and
matches. -/
inductive Found (d : Dialect) (source : Source) (front : List Text) :
    List Text → List Text → Prop where
  | plain {es : List Text} : es.any d.hasMeta = false → Found d source front es es
  | listed {es qs : List Text} {e q : Text} : (es ++ [e]).any d.hasMeta = true →
      Found d source front es qs → Listed source (d.pathBefore (front ++ qs)) q →
      d.matchName e q = .ok true → Found d source front (es ++ [e]) (qs ++ [q])

/-- The last of several components with a special one is found by a listing. -/
theorem found_concat_iff (hmeta : (es ++ [e]).any d.hasMeta = true) {rs : List Text} :
    Found d source front (es ++ [e]) rs ↔
      ∃ qs q, rs = qs ++ [q] ∧ Found d source front es qs ∧
        Listed source (d.pathBefore (front ++ qs)) q ∧ d.matchName e q = .ok true := by
  constructor
  · intro h
    generalize hcs : es ++ [e] = cs at h
    cases h with
    | plain hplain =>
        rw [hcs, hplain] at hmeta
        cases hmeta
    | @listed es' qs e' q _ hqs hlisted hmatch =>
        obtain ⟨rfl, hlast⟩ := List.append_inj' hcs rfl
        rw [(List.cons.inj hlast).1]
        exact ⟨qs, q, rfl, hqs, hlisted, hmatch⟩
  · rintro ⟨qs, q, rfl, hqs, hlisted, hmatch⟩
    exact .listed hmeta hqs hlisted hmatch

theorem found_plain_iff (hmeta : es.any d.hasMeta = false) {rs : List Text} :
    Found d source front es rs ↔ rs = es := by
  constructor
  · intro h
    cases h with
    | plain hplain => rfl
    | listed hsome hqs hlisted hmatch =>
        rw [hmeta] at hsome
        cases hsome
  · rintro rfl
    exact .plain hmeta

theorem Found.length_eq {qs : List Text} (h : Found d source front es qs) :
    qs.length = es.length := by
  induction h with
  | plain _ => rfl
  | listed _ _ _ _ ih => rw [List.length_append, List.length_append, ih]; rfl

theorem Found.ne_nil {qs : List Text} (h : Found d source front es qs) (hes : es ≠ []) :
    qs ≠ [] := by
  rintro rfl
  exact hes (List.eq_nil_of_length_eq_zero h.length_eq.symm)

/-- What is found has parts behind the same front. -/
theorem Found.parts {qs : List Text} (h : Found d source front es qs) (htidy : TidySource d source)
    (hparts : Parts d front es) : Parts d front qs := by
  induction h with
  | plain _ => exact hparts
  | listed _ _ hlisted _ ih => exact (ih hparts.init).concat (htidy.isEntry hlisted)

/-! ## One component more -/

/-- Lists of names, each continued by the matching names listed in its path. -/
def extend (d : Dialect) (source : Source) (front : List Text) (e : Text)
    (qss : List (List Text)) : List (List Text) :=
  qss.flatMap fun qs =>
    (d.entries source e (d.pathBefore (front ++ qs))).map fun q => qs ++ [q]

theorem mem_extend_iff {qss : List (List Text)} {rs : List Text} :
    rs ∈ extend d source front e qss ↔
      ∃ qs q, rs = qs ++ [q] ∧ qs ∈ qss ∧
        Listed source (d.pathBefore (front ++ qs)) q ∧ d.matchName e q = .ok true := by
  rw [extend, List.mem_flatMap]
  constructor
  · rintro ⟨qs, hqs, hmem⟩
    obtain ⟨q, hq, rfl⟩ := List.mem_map.1 hmem
    obtain ⟨hlisted, hmatch⟩ := mem_entries_iff.1 hq
    exact ⟨qs, q, rfl, hqs, hlisted, hmatch⟩
  · rintro ⟨qs, q, rfl, hqs, hlisted, hmatch⟩
    exact ⟨qs, hqs, List.mem_map.2 ⟨q, mem_entries_iff.2 ⟨hlisted, hmatch⟩, rfl⟩⟩

/-- Continuing lists of one length keeps them in strictly increasing order. -/
theorem extend_pairwise (htidy : TidySource d source) {qss : List (List Text)} {n : Nat}
    (hlen : ∀ qs ∈ qss, qs.length = n) (h : qss.Pairwise (· < ·)) :
    (extend d source front e qss).Pairwise (· < ·) := by
  rw [extend, List.pairwise_flatMap]
  -- Continuations of one list are ordered by their new names, those of two lists by the lists.
  constructor
  · intro qs _
    rw [List.pairwise_map]
    refine (entries_pairwise htidy e _).imp fun hlt => ?_
    exact List.append_left_lt (List.cons_lt_cons_iff.2 (.inl hlt))
  · refine h.imp_of_mem fun {qs qs'} hqs hqs' hlt => ?_
    intro rs hrs rs' hrs'
    obtain ⟨q, -, rfl⟩ := List.mem_map.1 hrs
    obtain ⟨q', -, rfl⟩ := List.mem_map.1 hrs'
    exact append_lt_append ((hlen qs hqs).trans (hlen qs' hqs').symm) hlt

/-- Joining the names listed in each path writes the continued lists. -/
theorem flatMap_join_eq (htidy : TidySource d source) {qss : List (List Text)}
    (hparts : ∀ qs ∈ qss, Parts d front qs) :
    (qss.map fun qs => d.pathBefore (front ++ qs)).flatMap
        (fun dir => (d.entries source e dir).map fun name => d.join [dir, name]) =
      (extend d source front e qss).map fun qs => d.fromComponents (front ++ qs) := by
  rw [extend, List.map_flatMap, List.flatMap_map]
  -- Joining a listed name to the path of a list is the path of the continued list.
  refine List.flatMap_congr fun qs hqs => ?_
  rw [List.map_map]
  refine List.map_congr_left fun q hq => ?_
  exact (hparts qs hqs).join_eq (htidy.isEntry (mem_entries_iff.1 hq).1)

/-! ## The whole expansion -/

/-- Expansion of a path with a special character takes off its last component. -/
theorem glob_eq (hparts : Parts d front (es ++ [e])) (hmeta : (es ++ [e]).any d.hasMeta = true)
    (hread : ∃ answer, d.matchName (d.fromComponents (front ++ (es ++ [e]))) [] = .ok answer) :
    d.glob source (d.fromComponents (front ++ (es ++ [e]))) =
      if es.any d.hasMeta then
        d.glob source (d.fromComponents (front ++ es)) >>= d.expandInAll source e
      else d.expandIn source e (d.pathBefore (front ++ es)) := by
  obtain ⟨answer, hanswer⟩ := hread
  obtain ⟨hbefore, hneeds⟩ := hparts.init.directoryPattern_eq
  have hwhole : d.hasMeta (d.fromComponents (front ++ (es ++ [e]))) = true := by
    rw [hasMeta_fromComponents, List.any_append, hmeta, Bool.or_true]
  rw [Dialect.glob, hanswer]
  simp only [hwhole, if_true, hparts.split_eq, hbefore, hneeds]
  split
  · next hes =>
    have hne : es ≠ [] := by
      rintro rfl
      cases hes
    rw [hparts.init.pathBefore_eq hne]
  · rfl

/-- A pattern put together from components is read without an error. -/
theorem matchName_terminates_of_components {cs : List Text}
    (hwritten : ∀ c ∈ cs, ∃ ts, ComponentWritten d ts c) (name : Text) :
    ∃ answer, d.matchName (d.fromComponents cs) name = .ok answer := by
  obtain ⟨tss, htss⟩ := exists_components hwritten
  have hjoined := termsWritten_joinTerms (htss.imp fun _ _ hc => hc.written)
  exact Dialect.matchName_terminates ⟨_, hjoined⟩ name

/-- Behind components without special characters, one directory is listed. -/
theorem glob_eq_extend_plain (htidy : TidySource d source) (hparts : Parts d front (es ++ [e]))
    (hwritten : ∀ c ∈ front ++ (es ++ [e]), ∃ ts, ComponentWritten d ts c)
    (hmeta : (es ++ [e]).any d.hasMeta = true) (hes : es.any d.hasMeta = false) :
    (d.glob source (d.fromComponents (front ++ (es ++ [e])))).result =
      .ok ((extend d source front e [es]).map fun qs => d.fromComponents (front ++ qs)) := by
  obtain ⟨ts, hts⟩ := hwritten e (by simp)
  have hread := Dialect.matchName_terminates ⟨ts, hts.written⟩
  have hdir : ∀ qs ∈ [es], Parts d front qs := by
    intro qs hqs
    rw [List.mem_singleton.1 hqs]
    exact hparts.init
  rw [glob_eq hparts hmeta (matchName_terminates_of_components hwritten []), hes,
    if_neg Bool.false_ne_true, Dialect.expandIn_eq fun name _ => hread name,
    ← flatMap_join_eq htidy hdir]
  simp

/-- Behind a special component, every directory found is listed. -/
theorem glob_eq_extend (htidy : TidySource d source) (hparts : Parts d front (es ++ [e]))
    (hwritten : ∀ c ∈ front ++ (es ++ [e]), ∃ ts, ComponentWritten d ts c)
    (hmeta : (es ++ [e]).any d.hasMeta = true) (hes : es.any d.hasMeta = true)
    {qss : List (List Text)} (hfound : ∀ qs ∈ qss, Found d source front es qs)
    (hresult : (d.glob source (d.fromComponents (front ++ es))).result =
      .ok (qss.map fun qs => d.fromComponents (front ++ qs))) :
    (d.glob source (d.fromComponents (front ++ (es ++ [e])))).result =
      .ok ((extend d source front e qss).map fun qs => d.fromComponents (front ++ qs)) := by
  obtain ⟨ts, hts⟩ := hwritten e (by simp)
  have hread := Dialect.matchName_terminates ⟨ts, hts.written⟩
  have hne : es ≠ [] := by
    rintro rfl
    cases hes
  have hdir : ∀ qs ∈ qss, Parts d front qs :=
    fun qs hqs => (hfound qs hqs).parts htidy hparts.init
  have hbefore : (qss.map fun qs => d.fromComponents (front ++ qs)) =
      qss.map fun qs => d.pathBefore (front ++ qs) := by
    refine List.map_congr_left fun qs hqs => ?_
    exact ((hdir qs hqs).pathBefore_eq ((hfound qs hqs).ne_nil hne)).symm
  rw [glob_eq hparts hmeta (matchName_terminates_of_components hwritten []), if_pos hes,
    Observed.bind_ok hresult]
  show (d.expandInAll source e _).result = _
  rw [Dialect.expandInAll_eq fun _ _ name _ => hread name, hbefore, flatMap_join_eq htidy hdir]

/-- Expansion returns the paths of what is found, in strictly increasing order of their names. -/
theorem glob_eq_found (htidy : TidySource d source) (hparts : Parts d front es)
    (hwritten : ∀ c ∈ front ++ es, ∃ ts, ComponentWritten d ts c)
    (hmeta : es.any d.hasMeta = true) :
    ∃ qss : List (List Text),
      (d.glob source (d.fromComponents (front ++ es))).result =
        .ok (qss.map fun qs => d.fromComponents (front ++ qs)) ∧
      (∀ qs, qs ∈ qss ↔ Found d source front es qs) ∧ qss.Pairwise (· < ·) := by
  -- Expansion takes components off the end, so the induction adds them there.
  induction es using List.reverseRecOn with
  | nil => cases hmeta
  | append_singleton es e ih =>
      -- What is found for the path before the last component, whether it is expanded or not.
      obtain ⟨qss, hresult, hmem, hsorted⟩ : ∃ qss : List (List Text),
          (d.glob source (d.fromComponents (front ++ (es ++ [e])))).result =
            .ok ((extend d source front e qss).map fun qs => d.fromComponents (front ++ qs)) ∧
          (∀ qs, qs ∈ qss ↔ Found d source front es qs) ∧ qss.Pairwise (· < ·) := by
        cases hes : es.any d.hasMeta with
        | false =>
            refine ⟨[es], ?_, ?_, List.pairwise_singleton _ _⟩
            · exact glob_eq_extend_plain htidy hparts hwritten hmeta hes
            · intro qs
              rw [found_plain_iff hes, List.mem_singleton]
        | true =>
            have hinit : ∀ c ∈ front ++ es, ∃ ts, ComponentWritten d ts c := by
              intro c hc
              apply hwritten
              rw [← List.append_assoc]
              exact List.mem_append_left _ hc
            obtain ⟨qss, hresult, hmem, hsorted⟩ := ih hparts.init hinit hes
            have hfound := fun qs hqs => (hmem qs).1 hqs
            refine ⟨qss, ?_, hmem, hsorted⟩
            exact glob_eq_extend htidy hparts hwritten hmeta hes hfound hresult
      refine ⟨extend d source front e qss, hresult, ?_, ?_⟩
      · intro rs
        rw [mem_extend_iff, found_concat_iff hmeta]
        simp only [hmem]
      · exact extend_pairwise htidy (fun qs hqs => ((hmem qs).1 hqs).length_eq) hsorted

/-! ## Found names by position -/

/-- From a position on, every component is listed in the path of the components before it. -/
def ListedFrom (d : Dialect) (source : Source) (first : Nat) (cs : List Text) : Prop :=
  ∀ i c, first ≤ i → cs[i]? = some c → Listed source (d.pathBefore (cs.take i)) c

theorem listedFrom_of_length_le {first : Nat} {cs : List Text} (h : cs.length ≤ first) :
    ListedFrom d source first cs := by
  intro i c hle hget
  rw [List.getElem?_eq_none (Nat.le_trans h hle)] at hget
  cases hget

/-- One component more is one listing more. -/
theorem listedFrom_concat_iff {first : Nat} {cs : List Text} {c : Text} (h : first ≤ cs.length) :
    ListedFrom d source first (cs ++ [c]) ↔
      ListedFrom d source first cs ∧ Listed source (d.pathBefore cs) c := by
  constructor
  · intro hall
    constructor
    · intro i x hle hget
      have hlt : i < cs.length := (List.getElem?_eq_some_iff.1 hget).1
      have hlisted := hall i x hle (by rw [List.getElem?_append_left hlt, hget])
      rwa [List.take_append_of_le_length (Nat.le_of_lt hlt)] at hlisted
    · have hlisted := hall cs.length c h (by simp)
      rwa [List.take_left] at hlisted
  · rintro ⟨hall, hlast⟩ i x hle hget
    rcases Nat.lt_or_ge i cs.length with hlt | hge
    · rw [List.getElem?_append_left hlt] at hget
      rw [List.take_append_of_le_length (Nat.le_of_lt hlt)]
      exact hall i x hle hget
    · have hi : i = cs.length := by
        have hlt := (List.getElem?_eq_some_iff.1 hget).1
        rw [List.length_append, List.length_singleton] at hlt
        omega
      subst hi
      have hx : c = x := by simpa using hget
      rw [← hx, List.take_left]
      exact hlast

/-- What is found, component by component: every name matches its component, and from the first
special one on it is listed. -/
theorem found_iff (hfront : front.any d.hasMeta = false)
    (hwritten : ∀ c ∈ es, ∃ ts, ComponentWritten d ts c) {rs : List Text} :
    Found d source front es rs ↔
      List.Forall₂ (fun c q => d.matchName c q = .ok true) es rs ∧
        ListedFrom d source ((front ++ es).findIdx d.hasMeta) (front ++ rs) := by
  induction es using List.reverseRecOn generalizing rs with
  | nil =>
      have hnone : front.findIdx d.hasMeta = front.length :=
        List.findIdx_eq_length.2 (by simpa using hfront)
      rw [found_plain_iff rfl, List.forall₂_nil_left_iff, List.append_nil, hnone]
      constructor
      · rintro rfl
        exact ⟨rfl, listedFrom_of_length_le (by simp)⟩
      · exact fun h => h.1
  | append_singleton es e ih =>
      cases hmeta : (es ++ [e]).any d.hasMeta with
      | false =>
          have hnone : ∀ c ∈ front ++ (es ++ [e]), d.hasMeta c = false := by
            intro c hc
            rcases List.mem_append.1 hc with hc | hc
            · exact Bool.eq_false_iff.2 (List.any_eq_false.1 hfront c hc)
            · exact Bool.eq_false_iff.2 (List.any_eq_false.1 hmeta c hc)
          rw [found_plain_iff hmeta, forall₂_plain_iff hwritten hmeta,
            List.findIdx_eq_length.2 hnone]
          constructor
          · rintro rfl
            exact ⟨rfl, listedFrom_of_length_le (Nat.le_refl _)⟩
          · exact fun h => h.1
      | true =>
          have hsome : ((front ++ es) ++ [e]).any d.hasMeta = true := by
            rw [List.append_assoc, List.any_append, hmeta, Bool.or_true]
          have hinit : ∀ c ∈ es, ∃ ts, ComponentWritten d ts c :=
            fun c hc => hwritten c (List.mem_append_left _ hc)
          have hlast : ∀ {qs : List Text} {q : Text},
              List.Forall₂ (fun c q => d.matchName c q = .ok true) es qs →
              (ListedFrom d source ((front ++ es).findIdx d.hasMeta) (front ++ (qs ++ [q])) ↔
                ListedFrom d source ((front ++ es).findIdx d.hasMeta) (front ++ qs) ∧
                  Listed source (d.pathBefore (front ++ qs)) q) := by
            intro qs q hqs
            rw [← List.append_assoc]
            apply listedFrom_concat_iff
            rw [List.length_append, ← hqs.length_eq, ← List.length_append]
            exact List.findIdx_le_length
          rw [found_concat_iff hmeta, forall₂_concat_iff, ← List.append_assoc front es,
            findIdx_concat hsome]
          constructor
          · rintro ⟨qs, q, rfl, hqs, hlisted, hmatch⟩
            obtain ⟨hall, hfrom⟩ := (ih hinit).1 hqs
            exact ⟨⟨qs, q, rfl, hall, hmatch⟩, (hlast hall).2 ⟨hfrom, hlisted⟩⟩
          · rintro ⟨⟨qs, q, rfl, hall, hmatch⟩, hfrom⟩
            obtain ⟨hfrom, hlisted⟩ := (hlast hall).1 hfrom
            exact ⟨qs, q, rfl, (ih hinit).2 ⟨hall, hfrom⟩, hlisted, hmatch⟩

/-! ## Expansion and matching -/

/-- Expansion is exact. For a clean path pattern whose components are well formed each by itself
and take no separator, it returns the paths that match and whose components are listed from the
first special one on, each once, in strictly increasing order of their components. -/
theorem glob_exact {p : Text} (hp : d.OnDrive p) (hclean : d.clean p = p)
    (hmeta : d.hasMeta p = true)
    (hwritten : ∀ c ∈ d.components p, ∃ ts, TermsWritten d ts c ∧ ClassesAvoid d.sep ts)
    (htidy : TidySource d source) :
    ∃ paths, (d.glob source p).result = .ok paths ∧
      (∀ q, q ∈ paths ↔ d.matchName p q = .ok true ∧
        ListedFrom d source ((d.components p).findIdx d.hasMeta) (d.components q)) ∧
      paths.Pairwise fun q r => d.components q < d.components r := by
  obtain ⟨front, es, hparts, hes, rfl⟩ := Dialect.exists_parts hp hclean hmeta
  rw [hparts.components_eq hes] at hwritten ⊢
  have hfront := hparts.isFront.any_hasMeta
  have hcomponents : ∀ c ∈ front ++ es, ∃ ts, ComponentWritten d ts c := by
    intro c hc
    obtain ⟨ts, hts, havoid⟩ := hwritten c hc
    exact ⟨ts, hts, havoid, hparts.sep_notMem c hc⟩
  have hinit : ∀ c ∈ front, ∃ ts, ComponentWritten d ts c :=
    fun c hc => hcomponents c (List.mem_append_left _ hc)
  have hback : ∀ c ∈ es, ∃ ts, ComponentWritten d ts c :=
    fun c hc => hcomponents c (List.mem_append_right _ hc)
  rw [hasMeta_fromComponents, List.any_append, hfront, Bool.false_or] at hmeta
  obtain ⟨qss, hresult, hmem, hsorted⟩ := glob_eq_found htidy hparts hcomponents hmeta
  -- What is found is read back from its path.
  have hread : ∀ qs ∈ qss, d.components (d.fromComponents (front ++ qs)) = front ++ qs := by
    intro qs hqs
    have hfound := (hmem qs).1 hqs
    exact (hfound.parts htidy hparts).components_eq (hfound.ne_nil hes)
  refine ⟨_, hresult, ?_, ?_⟩
  · intro q
    rw [List.mem_map, Dialect.fromComponents, matchName_intercalate_iff hcomponents]
    constructor
    · rintro ⟨qs, hqs, rfl⟩
      obtain ⟨hall, hfrom⟩ := (found_iff hfront hback).1 ((hmem qs).1 hqs)
      refine ⟨⟨front ++ qs, rfl, ?_⟩, ?_⟩
      · exact (forall₂_plain_append_iff hinit hfront).2 ⟨qs, rfl, hall⟩
      · rw [hread qs hqs]
        exact hfrom
    · rintro ⟨⟨rs, rfl, hall⟩, hfrom⟩
      have hsep := sep_notMem_of_forall₂ hcomponents hall
      have hne : rs ≠ [] := by
        rintro rfl
        have hlen := hall.length_eq
        simp [hes] at hlen
      obtain ⟨qs, rfl, hqs⟩ := (forall₂_plain_append_iff hinit hfront).1 hall
      have hcs := Dialect.components_fromComponents hne hsep
      rw [Dialect.fromComponents] at hcs
      rw [hcs] at hfrom
      exact ⟨qs, (hmem qs).2 ((found_iff hfront hback).2 ⟨hqs, hfrom⟩), rfl⟩
  · rw [List.pairwise_map]
    refine hsorted.imp_of_mem fun {qs rs} hqs hrs hlt => ?_
    rw [hread qs hqs, hread rs hrs]
    exact List.append_left_lt hlt

/-- The pattern `?/b` over the directories `a`, with `b` in it, and `c`, which cannot be listed. -/
theorem glob_exact_one_listed :
    ∃ paths, (Dialect.posix.glob
        (Tree.source ⟨[(['.'], [['c'], ['a']]), (['a'], [['b']])], [], [['c']]⟩)
        ['?', '/', 'b']).result = .ok paths ∧ ['a', '/', 'b'] ∈ paths := by
  have hcs : Dialect.posix.components ['?', '/', 'b'] = [['?'], ['b']] := by decide
  have hqs : Dialect.posix.components ['a', '/', 'b'] = [['a'], ['b']] := by decide
  have hany : TermsWritten .posix [.single .any] ['?'] := .single .any .nil
  have hb : TermsWritten .posix [.single (.literal 'b')] ['b'] :=
    .single (.plain (by decide) (by decide) (by decide) (by decide)) .nil
  have hwritten : ∀ c ∈ Dialect.posix.components ['?', '/', 'b'],
      ∃ ts, TermsWritten .posix ts c ∧ ClassesAvoid '/' ts := by
    rw [hcs]
    intro c hc
    rcases List.mem_cons.1 hc with rfl | hc
    · exact ⟨_, hany, by simp [ClassesAvoid]⟩
    · rw [List.mem_singleton.1 hc]
      exact ⟨_, hb, by simp [ClassesAvoid]⟩
  have htidy : TidySource .posix
      (Tree.source ⟨[(['.'], [['c'], ['a']]), (['a'], [['b']])], [], [['c']]⟩) :=
    tidySource_tree (by decide)
  obtain ⟨paths, hresult, hmem, -⟩ :=
    glob_exact (d := .posix) (p := ['?', '/', 'b']) trivial (by decide) (by decide) hwritten htidy
  refine ⟨paths, hresult, (hmem _).2 ⟨?_, ?_⟩⟩
  · have hwhole := TermsWritten.single .any (.single (operatorWritten_sep .posix) hb)
    have hcut : Matches '/' [.single .any, .single (.literal '/'), .single (.literal 'b')]
        ['a', '/', 'b'] :=
      .single (by decide) (.single (by decide) (.single (by decide) .nil))
    exact (Dialect.matchName_iff_matches hwhole (by simp [ClassesAvoid])).2 hcut
  · rw [hqs]
    intro i c _ hget
    rcases i with - | - | i
    · cases hget
      exact ⟨[['c'], ['a']], rfl, by decide⟩
    · cases hget
      exact ⟨[['b']], rfl, by decide⟩
    · cases hget

end PathAlgebra
