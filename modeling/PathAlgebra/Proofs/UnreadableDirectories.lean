import PathAlgebra.Proofs.GlobRejection

/-!
# Unreadable directories

A directory that cannot be listed counts as empty, and nothing else changes. To say what is left out
in a whole expansion, each path is taken together with the directories it was found through
(`Finding`): the same text can be found more than once, and what is lost with a directory are the
findings that go through it (`Finding.isLost`), not the texts.

The findings of an expansion are its answer (`glob_eq_findings`) and were listed on its way
(`traced_findings`). When some listings are refused, listing one more directory gives what is not
lost of its findings (`filter_entriesFound`), and the whole expansion gives what is not lost of all
(`findings_refusing`). It matches fewer names and so still answers (`not_failed_refusing`). Every
failed listing has one record, in the order of the listings (`reported_glob`).
-/

set_option autoImplicit false

namespace PathAlgebra

open Dialect

/-! ## Findings -/

/-- A path with the way it was come by: the pattern names it, or it was found by listing a directory
that was come by before. -/
inductive Finding where
  | named (path : Text)
  | listed (dir : Finding) (path : Text)
  deriving DecidableEq

namespace Finding

def path : Finding → Text
  | named path => path
  | listed _ path => path

/-- Whether a path was found by listing a directory whose listing is refused, or a directory that is
itself lost. -/
def isLost (refusal : Text → Option Text) : Finding → Bool
  | named _ => false
  | listed dir _ => (refusal dir.path).isSome || dir.isLost refusal

/-- Each path on the way was found by a listing among the events, as a name joined to its
directory. -/
inductive Traced (d : Dialect) (source : Source) (events : List Event) : Finding → Prop where
  | named (path : Text) : Traced d source events (.named path)
  | listed {dir : Finding} {name : Text} : Traced d source events dir →
      .listing dir.path ∈ events → Listed source dir.path name →
      Traced d source events (.listed dir (d.join [dir.path, name]))

theorem Traced.mono {d : Dialect} {source : Source} {events events' : List Event} {f : Finding}
    (h : f.Traced d source events) (hevents : events ⊆ events') : f.Traced d source events' := by
  induction h with
  | named path => exact .named path
  | listed _ hlisting hname ih => exact .listed ih (hevents hlisting) hname

end Finding

namespace Dialect

/-- The findings of one listing. -/
def entriesFound (d : Dialect) (source : Source) (pattern : Text) (dir : Finding) :
    List Finding :=
  (d.entries source pattern dir.path).map fun name => .listed dir (d.join [dir.path, name])

/-- The findings of an expansion: those of the directory part, each listed in turn. -/
def findings (d : Dialect) (source : Source) (p : Text) : List Finding :=
  if d.hasMeta p then
    if _h : d.needsExpansion (d.directoryPart p) then
      (d.findings source (d.directoryPart p).2).flatMap (d.entriesFound source (d.split p).2)
    else d.entriesFound source (d.split p).2 (.named (d.directoryPart p).2)
  else if source.present p then [.named p] else []
  termination_by p.length
  decreasing_by exact directoryPart_length_lt _h

variable {d : Dialect} {source : Source} {p pattern : Text} {paths : List Text}

theorem findings_plain (hmeta : d.hasMeta p = false) :
    d.findings source p = if source.present p then [.named p] else [] := by
  rw [findings, hmeta, if_neg Bool.false_ne_true]

theorem findings_listed (hmeta : d.hasMeta p = true)
    (hdir : d.needsExpansion (d.directoryPart p) = false) :
    d.findings source p = d.entriesFound source (d.split p).2 (.named (d.directoryPart p).2) := by
  rw [findings, if_pos hmeta, dif_neg (by simp [hdir])]

theorem findings_expanded (hmeta : d.hasMeta p = true)
    (hdir : d.needsExpansion (d.directoryPart p) = true) :
    d.findings source p =
      (d.findings source (d.directoryPart p).2).flatMap (d.entriesFound source (d.split p).2) := by
  rw [findings, if_pos hmeta, dif_pos hdir]

theorem map_path_entriesFound (dir : Finding) :
    (d.entriesFound source pattern dir).map Finding.path =
      (d.entries source pattern dir.path).map fun name => d.join [dir.path, name] := by
  rw [entriesFound, List.map_map]
  rfl

/-- The answer of an expansion are the paths of its findings. -/
theorem glob_eq_findings (h : (d.glob source p).result = .ok paths) :
    paths = (d.findings source p).map Finding.path := by
  induction p using expansion_induction (d := d) generalizing paths with
  | rejected p hp =>
      rw [glob_rejected hp] at h
      cases h
  | plain p hp hmeta =>
      rw [glob_plain hp hmeta] at h
      cases h
      rw [findings_plain hmeta]
      split <;> rfl
  | listed p hp hmeta hdir =>
      rw [glob_listed hp hmeta hdir] at h
      rw [findings_listed hmeta hdir, map_path_entriesFound]
      exact expandIn_ok h
  | expanded p hp hmeta hdir ih =>
      rw [glob_expanded hp hmeta hdir, Observed.bind_eq_ok_iff] at h
      obtain ⟨dirs, hdirs, hfound⟩ := h
      rw [findings_expanded hmeta hdir, List.map_flatMap, expandInAll_ok hfound, ih hdirs,
        List.flatMap_map]
      exact List.flatMap_congr fun dir _ => (map_path_entriesFound dir).symm

end Dialect

/-! ## Listings on the way -/

variable {d : Dialect} {source : Source} {p pattern dir : Text} {dirs paths : List Text}

theorem listing_mem_expandIn :
    .listing dir ∈ (d.expandIn source pattern dir).events := by
  rw [Dialect.expandIn]
  cases source.list dir <;> exact List.mem_cons_self

/-- An expansion that answers has listed each of its directories. -/
theorem listing_mem_expandInAll (h : (d.expandInAll source pattern dirs).result = .ok paths)
    (hdir : dir ∈ dirs) : .listing dir ∈ (d.expandInAll source pattern dirs).events := by
  induction dirs generalizing paths with
  | nil => cases hdir
  | cons first dirs ih =>
      rw [Dialect.expandInAll, Observed.bind_eq_ok_iff] at h
      obtain ⟨found, hfound, h⟩ := h
      obtain ⟨more, hmore, -⟩ := Observed.bind_eq_ok_iff.1 h
      rw [Dialect.expandInAll, Observed.bind_ok hfound, Observed.bind_ok hmore]
      rcases List.mem_cons.1 hdir with rfl | hdir
      · exact List.mem_append_left _ listing_mem_expandIn
      · exact List.mem_append_right _ (List.mem_append_left _ (ih hmore hdir))

theorem traced_entriesFound {events : List Event} {dir f : Finding}
    (hdir : dir.Traced d source events) (hlisting : .listing dir.path ∈ events)
    (hf : f ∈ d.entriesFound source pattern dir) : f.Traced d source events := by
  obtain ⟨name, hname, rfl⟩ := List.mem_map.1 hf
  exact .listed hdir hlisting (mem_entries_iff.1 hname).1

/-- What an expansion answers has been listed on its way. -/
theorem traced_findings (h : (d.glob source p).result = .ok paths) :
    ∀ f ∈ d.findings source p, f.Traced d source (d.glob source p).events := by
  induction p using expansion_induction (d := d) generalizing paths with
  | rejected p hp =>
      rw [glob_rejected hp] at h
      cases h
  | plain p hp hmeta =>
      intro f hf
      rw [findings_plain hmeta] at hf
      split at hf
      · rw [List.mem_singleton.1 hf]
        exact .named p
      · cases hf
  | listed p hp hmeta hdir =>
      intro f hf
      rw [findings_listed hmeta hdir] at hf
      rw [glob_listed hp hmeta hdir]
      exact traced_entriesFound (.named _) listing_mem_expandIn hf
  | expanded p hp hmeta hdir ih =>
      intro f hf
      rw [glob_expanded hp hmeta hdir] at h ⊢
      obtain ⟨dirs, hdirs, hfound⟩ := Observed.bind_eq_ok_iff.1 h
      rw [Observed.bind_ok hdirs]
      rw [findings_expanded hmeta hdir] at hf
      obtain ⟨dir, hdir', hf⟩ := List.mem_flatMap.1 hf
      have hmem : dir.path ∈ dirs := by
        rw [glob_eq_findings hdirs]
        exact List.mem_map_of_mem hdir'
      have hlisting := listing_mem_expandInAll hfound hmem
      exact traced_entriesFound ((ih hdirs dir hdir').mono (List.subset_append_left _ _))
        (List.mem_append_right _ hlisting) hf

/-! ## Refused listings -/

/-- A source that refuses some of its listings, each with a reason. -/
def Source.refusing (source : Source) (refusal : Text → Option Text) : Source where
  present := source.present
  list dir :=
    match refusal dir with
    | some reason => .error reason
    | none => source.list dir

variable {refusal : Text → Option Text}

theorem list_refusing_some {reason : Text} (h : refusal dir = some reason) :
    (source.refusing refusal).list dir = .error reason := by
  simp only [Source.refusing, h]

theorem list_refusing_none (h : refusal dir = none) :
    (source.refusing refusal).list dir = source.list dir := by
  simp only [Source.refusing, h]

/-- What a source that refuses listings still lists is listed without the refusals. -/
theorem listed_of_refusing {name : Text} (h : Listed (source.refusing refusal) dir name) :
    Listed source dir name := by
  obtain ⟨names, hlist, hname⟩ := h
  cases hrefusal : refusal dir with
  | none => exact ⟨names, list_refusing_none hrefusal ▸ hlist, hname⟩
  | some reason =>
      rw [list_refusing_some hrefusal] at hlist
      cases hlist

theorem entries_refusing :
    d.entries (source.refusing refusal) pattern dir =
      if (refusal dir).isSome then [] else d.entries source pattern dir := by
  rw [Dialect.entries, Dialect.entries]
  cases hrefusal : refusal dir with
  | none =>
      rw [list_refusing_none hrefusal]
      rfl
  | some reason =>
      rw [list_refusing_some hrefusal]
      rfl

/-- Of the findings of one listing all are kept or none. -/
theorem filter_entriesFound (dir : Finding) :
    (d.entriesFound source pattern dir).filter (fun f => !f.isLost refusal) =
      if dir.isLost refusal then [] else d.entriesFound (source.refusing refusal) pattern dir := by
  have hlost : ∀ f ∈ d.entriesFound source pattern dir,
      (!f.isLost refusal) = !((refusal dir.path).isSome || dir.isLost refusal) := by
    intro f hf
    obtain ⟨name, -, rfl⟩ := List.mem_map.1 hf
    rfl
  rw [List.filter_congr hlost, entriesFound, entriesFound, entries_refusing]
  cases (refusal dir.path).isSome <;> cases dir.isLost refusal <;> simp

/-- Listing the directories kept gives what is kept of listing all of them. -/
theorem filter_flatMap_entriesFound (dirs : List Finding) :
    (dirs.flatMap (d.entriesFound source pattern)).filter (fun f => !f.isLost refusal) =
      (dirs.filter fun f => !f.isLost refusal).flatMap
        (d.entriesFound (source.refusing refusal) pattern) := by
  induction dirs with
  | nil => rfl
  | cons dir dirs ih =>
      rw [List.flatMap_cons, List.filter_append, ih, filter_entriesFound, List.filter_cons]
      cases dir.isLost refusal <;> simp

/-- A source that refuses listings leads to the findings that are not lost, in the same order. -/
theorem findings_refusing (d : Dialect) (source : Source) (refusal : Text → Option Text)
    (p : Text) :
    d.findings (source.refusing refusal) p =
      (d.findings source p).filter fun f => !f.isLost refusal := by
  induction p using Dialect.findings.induct d source with
  | case1 p hmeta hdir ih =>
      rw [findings_expanded hmeta hdir, findings_expanded hmeta hdir, ih,
        filter_flatMap_entriesFound]
  | case2 p hmeta hdir =>
      have hlisted := Bool.eq_false_iff.2 hdir
      rw [findings_listed hmeta hlisted, findings_listed hmeta hlisted, filter_entriesFound]
      rfl
  | case3 p hmeta hpresent =>
      have hplain := Bool.eq_false_iff.2 hmeta
      rw [findings_plain hplain, findings_plain hplain, if_pos hpresent]
      exact if_pos hpresent
  | case4 p hmeta hpresent =>
      have hplain := Bool.eq_false_iff.2 hmeta
      rw [findings_plain hplain, findings_plain hplain, if_neg hpresent]
      exact if_neg hpresent

/-- Refusals make no expansion fail: the names that are still listed were matched before. -/
theorem not_failed_refusing (h : ¬ (d.glob source p).Failed) :
    ¬ (d.glob (source.refusing refusal) p).Failed := by
  induction p using expansion_induction (d := d) with
  | rejected p hp => exact absurd ⟨_, by rw [glob_rejected hp]; rfl⟩ h
  | plain p hp hmeta =>
      rw [glob_plain hp hmeta]
      rintro ⟨e, he⟩
      cases he
  | listed p hp hmeta hdir =>
      rw [glob_listed hp hmeta hdir, failed_expandIn_iff] at h ⊢
      rintro ⟨name, hname, hrejects⟩
      exact h ⟨name, listed_of_refusing hname, hrejects⟩
  | expanded p hp hmeta hdir ih =>
      rw [glob_expanded hp hmeta hdir, Observed.failed_bind_iff, not_or] at h ⊢
      refine ⟨ih h.1, ?_⟩
      rintro ⟨kept, hkept, hfailed⟩
      obtain ⟨dir, hdir', name, hname, hrejects⟩ := failed_expandInAll_iff.1 hfailed
      -- A directory that is kept was found and listed before.
      obtain ⟨dirs, hdirs⟩ := Observed.not_failed_iff.1 h.1
      have hmem : dir ∈ dirs := by
        rw [glob_eq_findings hkept, findings_refusing] at hdir'
        rw [glob_eq_findings hdirs]
        exact (List.filter_sublist.map Finding.path).subset hdir'
      exact h.2 ⟨dirs, hdirs,
        failed_expandInAll_iff.2 ⟨dir, hmem, name, listed_of_refusing hname, hrejects⟩⟩

/-! ## Records -/

/-- The directory that an event asks to list. -/
def Event.listing? : Event → Option Text
  | listing path => some path
  | _ => none

/-- The record that listing a directory leaves: one when it fails. -/
def Source.report? (source : Source) (dir : Text) : Option Text :=
  match source.list dir with
  | .error reason => (Event.unreadable dir reason).report?
  | .ok _ => none

/-- The records among events are those of the failed listings, one for each and in order. -/
def Reported (source : Source) (events : List Event) : Prop :=
  events.filterMap Event.report? = (events.filterMap Event.listing?).filterMap source.report?

theorem Reported.append {events events' : List Event} (h : Reported source events)
    (h' : Reported source events') : Reported source (events ++ events') := by
  rw [Reported, List.filterMap_append, h, h', List.filterMap_append, List.filterMap_append]

theorem Reported.bind {α β : Type} {x : Observed α} {f : α → Observed β}
    (hx : Reported source x.events) (hf : ∀ a, Reported source (f a).events) :
    Reported source (x >>= f).events := by
  cases hresult : x.result with
  | error e =>
      rw [Observed.bind_error hresult]
      exact hx
  | ok a =>
      rw [Observed.bind_ok hresult]
      exact hx.append (hf a)

theorem reported_expandIn : Reported source (d.expandIn source pattern dir).events := by
  have hrecord : [dir].filterMap source.report? = (source.report? dir).toList := by
    cases h : source.report? dir <;> simp [h]
  rw [Reported, Dialect.expandIn]
  -- Either way the directory is all that is asked for.
  cases hlist : source.list dir with
  | error reason =>
      refine Eq.trans ?_ hrecord.symm
      rw [Source.report?, hlist]
      rfl
  | ok names =>
      refine Eq.trans ?_ hrecord.symm
      rw [Source.report?, hlist]
      rfl

theorem reported_expandInAll : Reported source (d.expandInAll source pattern dirs).events := by
  induction dirs with
  | nil => rfl
  | cons dir dirs ih => exact reported_expandIn.bind fun _ => ih.bind fun _ => rfl

/-- The records of an expansion are those of its failed listings, one for each and in order. -/
theorem reported_glob (d : Dialect) (source : Source) (p : Text) :
    Reported source (d.glob source p).events := by
  induction p using expansion_induction (d := d) with
  | rejected p hp =>
      rw [glob_rejected hp]
      rfl
  | plain p hp hmeta =>
      rw [glob_plain hp hmeta]
      rfl
  | listed p hp hmeta hdir =>
      rw [glob_listed hp hmeta hdir]
      exact reported_expandIn
  | expanded p hp hmeta hdir ih =>
      rw [glob_expanded hp hmeta hdir]
      exact ih.bind fun _ => reported_expandInAll

/-! ## Isolation -/

namespace Dialect

/-- An expansion that answers still answers when some listings are refused, with paths left out and
none added, doubled or moved. Both answers are the paths of findings, which were listed on the way,
and left out are those that were found by listing a refused directory or one that is itself left
out. Each failed listing leaves one record, in the order of the listings. -/
theorem glob_isolates_unreadable (refusal : Text → Option Text)
    (h : (d.glob source p).result = .ok paths) :
    ∃ kept, (d.glob (source.refusing refusal) p).result = .ok kept ∧ kept.Sublist paths ∧
      paths = (d.findings source p).map Finding.path ∧
      kept = (d.findings (source.refusing refusal) p).map Finding.path ∧
      (d.findings (source.refusing refusal) p =
        (d.findings source p).filter fun f => !f.isLost refusal) ∧
      (∀ f ∈ d.findings source p, f.Traced d source (d.glob source p).events) ∧
      Reported (source.refusing refusal) (d.glob (source.refusing refusal) p).events := by
  have hanswers : ¬ (d.glob (source.refusing refusal) p).Failed :=
    not_failed_refusing (Observed.not_failed_iff.2 ⟨paths, h⟩)
  obtain ⟨kept, hkept⟩ := Observed.not_failed_iff.1 hanswers
  have hpaths := glob_eq_findings h
  have hkept' := glob_eq_findings hkept
  have hfilter := findings_refusing d source refusal p
  refine ⟨kept, hkept, ?_, hpaths, hkept', hfilter, traced_findings h, reported_glob d _ p⟩
  rw [hkept', hfilter, hpaths]
  exact List.filter_sublist.map Finding.path

/-- Two directories in one directory, with a file in each. -/
def twoDirectories : Source :=
  Tree.source ⟨[(".".toList, ["a".toList, "b".toList]), ("a".toList, ["x".toList]),
    ("b".toList, ["y".toList])], [], []⟩

/-- Without the first of the two directories the file in the second is still found. -/
theorem glob_isolates_unreadable_first :
    (posix.glob twoDirectories "*/*".toList).result = .ok ["a/x".toList, "b/y".toList] ∧
      (posix.glob (twoDirectories.refusing fun dir =>
        if dir = "a".toList then some "denied".toList else none) "*/*".toList).result =
          .ok ["b/y".toList] := by
  have hpattern : ¬ posix.Rejects "*/*".toList [] := by decide +kernel
  have hfront : ¬ posix.Rejects "*".toList [] := by decide +kernel
  have hdir : posix.directoryPart "*/*".toList = (0, "*".toList) := by decide +kernel
  have hinner : posix.directoryPart "*".toList = (0, ".".toList) := by decide +kernel
  have hnames : (posix.split "*".toList).2 = "*".toList := by decide +kernel
  have hroot : twoDirectories.list ".".toList = .ok ["a".toList, "b".toList] := by decide +kernel
  have hsorted : ["a".toList, "b".toList].mergeSort (fun a b => !decide (b < a)) =
      ["a".toList, "b".toList] := List.mergeSort_of_pairwise (by decide +kernel)
  have hentries : posix.entries twoDirectories "*".toList ".".toList =
      ["a".toList, "b".toList] := by
    simp only [entries, hroot, hsorted]
    decide +kernel
  have hlisted : (posix.expandIn twoDirectories "*".toList ".".toList).result =
      .ok ["a".toList, "b".toList] := by
    simp only [expandIn, hroot, hsorted]
    decide +kernel
  have hall : (posix.glob twoDirectories "*/*".toList).result =
      .ok ["a/x".toList, "b/y".toList] := by
    rw [glob_expanded hpattern (by decide) (by rw [hdir]; decide), hdir,
      glob_listed hfront (by decide) (by rw [hinner]; decide), hinner, hnames,
      Observed.bind_ok hlisted]
    decide +kernel
  have hfindings : posix.findings twoDirectories "*/*".toList =
      [.listed (.listed (.named ".".toList) "a".toList) "a/x".toList,
        .listed (.listed (.named ".".toList) "b".toList) "b/y".toList] := by
    rw [findings_expanded (by decide) (by rw [hdir]; decide), hdir,
      findings_listed (by decide) (by rw [hinner]; decide), hinner, hnames, entriesFound,
      Finding.path, hentries]
    decide +kernel
  refine ⟨hall, ?_⟩
  obtain ⟨kept, hresult, -, -, hkept, hfilter, -, -⟩ := glob_isolates_unreadable (fun dir =>
    if dir = "a".toList then some "denied".toList else none) hall
  rw [hfilter, hfindings] at hkept
  rw [hresult, hkept]
  decide +kernel

end Dialect

end PathAlgebra
