import Mathlib.Tactic.Choose
import PathAlgebra.Proofs.GlobExpansion
import PathAlgebra.Proofs.PatternRejection

/-!
# When expansion fails

Expansion reads a pattern, and each directory part that it expands in turn, against the empty name
before it asks the source anything (`patternsRead`). A rejection there is its only failure without a
question: it asks nothing exactly when one of these patterns is rejected (`events_eq_nil_iff`).

Afterwards the file parts are matched against listed names (`filePatterns`). A file part can be
rejected for one of these names, if every file part before it matches some name and so leads to a
directory to list (`CanFail`): no source makes expansion fail otherwise (`canFail_of_failed`), and
some source does then (`exists_failed`). A pattern whose parts are all well formed never fails
(`not_failed_of_wellFormed`).

So expansion checks a pattern before it looks exactly for the patterns of `glob_checks_first_iff`.
Another malformed pattern can be answered, or rejected as late as after a listing
(`glob_answers_malformed`).
-/

set_option autoImplicit false

namespace PathAlgebra

/-! ## Failed results -/

namespace Observed

variable {α β : Type} {x : Observed α} {f : α → Observed β}

/-- The result is an error. -/
def Failed (x : Observed α) : Prop := ∃ e, x.result = .error e

theorem not_failed_iff : ¬ x.Failed ↔ ∃ a, x.result = .ok a := by
  rw [Failed]
  cases x.result with
  | error e => simp
  | ok a => simp

/-- A sequence fails in its first part or in what follows. -/
theorem failed_bind_iff : (x >>= f).Failed ↔ x.Failed ∨ ∃ a, x.result = .ok a ∧ (f a).Failed := by
  cases hx : x.result with
  | error e => simp [Failed, bind_error hx, hx]
  | ok a => simp [Failed, bind_ok hx, hx]

/-- A sequence that is no error went through its first part. -/
theorem bind_eq_ok_iff {b : β} :
    (x >>= f).result = .ok b ↔ ∃ a, x.result = .ok a ∧ (f a).result = .ok b := by
  cases hx : x.result with
  | error e => simp [bind_error hx]
  | ok a => simp [bind_ok hx]

end Observed

variable {d : Dialect} {source : Source} {p pattern dir : Text} {dirs names paths : List Text}

/-! ## Failures of a listing -/

theorem matching_error_iff :
    (∃ e, d.matching dir pattern names = .error e) ↔ ∃ name ∈ names, d.Rejects pattern name := by
  induction names with
  | nil => simp [Dialect.matching]
  | cons name names ih =>
      rw [Dialect.matching]
      cases hmatch : d.matchName pattern name with
      | error e =>
          have hrejects := Dialect.rejects_of_error hmatch
          exact iff_of_true ⟨e, rfl⟩ ⟨name, List.mem_cons_self, hrejects⟩
      | ok found =>
          have hok : ¬ d.Rejects pattern name := by
            rw [Dialect.Rejects, hmatch]
            intro heq
            cases heq
          rw [List.exists_mem_cons_iff, or_iff_right hok, ← ih]
          cases d.matching dir pattern names with
          | error e => simp [Except.map]
          | ok paths => simp [Except.map]

/-- Listing a directory fails when the pattern is rejected for one of its names. -/
theorem failed_expandIn_iff :
    (d.expandIn source pattern dir).Failed ↔
      ∃ name, Listed source dir name ∧ d.Rejects pattern name := by
  rw [Observed.Failed, Dialect.expandIn]
  simp only [Listed]
  cases source.list dir with
  | error reason => simp
  | ok names => simp [matching_error_iff]

theorem failed_expandInAll_iff :
    (d.expandInAll source pattern dirs).Failed ↔
      ∃ dir ∈ dirs, ∃ name, Listed source dir name ∧ d.Rejects pattern name := by
  induction dirs with
  | nil => simp [Dialect.expandInAll, Observed.Failed, Observed.pure_eq]
  | cons dir dirs ih =>
      rw [Dialect.expandInAll, Observed.failed_bind_iff, failed_expandIn_iff,
        List.exists_mem_cons_iff, ← ih]
      by_cases hdir : ∃ name, Listed source dir name ∧ d.Rejects pattern name
      · exact iff_of_true (.inl hdir) (.inl hdir)
      · -- A directory that is listed without a failure leaves it to the others.
        rw [or_iff_right hdir, or_iff_right hdir]
        obtain ⟨found, hfound⟩ := Observed.not_failed_iff.1 (mt failed_expandIn_iff.1 hdir)
        simp only [hfound, Except.ok.injEq, exists_eq_left', Observed.failed_bind_iff]
        refine or_iff_left ?_
        rintro ⟨more, -, e, he⟩
        cases he

/-! ## Results of a listing -/

/-- A listing without a failure collects the matching names, joined to the directory. -/
theorem expandIn_ok (h : (d.expandIn source pattern dir).result = .ok paths) :
    paths = (d.entries source pattern dir).map fun name => d.join [dir, name] := by
  have hnone := mt failed_expandIn_iff.2 (Observed.not_failed_iff.2 ⟨paths, h⟩)
  have heq : (d.expandIn source pattern dir).result = _ :=
    Dialect.expandIn_eq fun name hname => Dialect.exists_answer fun hrejects =>
      hnone ⟨name, hname, hrejects⟩
  rw [h] at heq
  exact Except.ok.inj heq

theorem expandInAll_ok (h : (d.expandInAll source pattern dirs).result = .ok paths) :
    paths = dirs.flatMap fun dir =>
      (d.entries source pattern dir).map fun name => d.join [dir, name] := by
  have hnone := mt failed_expandInAll_iff.2 (Observed.not_failed_iff.2 ⟨paths, h⟩)
  have heq : (d.expandInAll source pattern dirs).result = _ :=
    Dialect.expandInAll_eq fun dir hdir name hname => Dialect.exists_answer fun hrejects =>
      hnone ⟨dir, hdir, name, hname, hrejects⟩
  rw [h] at heq
  exact Except.ok.inj heq

theorem mem_expandIn_iff {path : Text}
    (h : (d.expandIn source pattern dir).result = .ok paths) :
    path ∈ paths ↔ ∃ name, Listed source dir name ∧ d.matchName pattern name = .ok true ∧
      path = d.join [dir, name] := by
  simp only [expandIn_ok h, List.mem_map, mem_entries_iff, and_assoc, eq_comm]

/-- What is found in several directories is found in one of them. -/
theorem mem_expandInAll_iff {path : Text}
    (h : (d.expandInAll source pattern dirs).result = .ok paths) :
    path ∈ paths ↔ ∃ dir ∈ dirs, ∃ name, Listed source dir name ∧
      d.matchName pattern name = .ok true ∧ path = d.join [dir, name] := by
  simp only [expandInAll_ok h, List.mem_flatMap, List.mem_map, mem_entries_iff, and_assoc, eq_comm]

/-! ## The stages of an expansion -/

namespace Dialect

/-- The directory part of a pattern as a pattern of its own, after the length of what is not read as
a pattern. -/
def directoryPart (d : Dialect) (p : Text) : Nat × Text := d.directoryPattern (d.split p).1

theorem directoryPart_length_lt (h : d.needsExpansion (d.directoryPart p) = true) :
    (d.directoryPart p).2.length < p.length :=
  Nat.lt_of_lt_of_le (directoryPattern_length_lt h) (d.split_fst_length_le p)

/-- The patterns that expansion reads before it asks the source: the pattern, and its directory part
when that is expanded in turn. -/
def patternsRead (d : Dialect) (p : Text) : List Text :=
  if _h : d.hasMeta p = true ∧ d.needsExpansion (d.directoryPart p) = true then
    p :: d.patternsRead (d.directoryPart p).2
  else [p]
  termination_by p.length
  decreasing_by exact directoryPart_length_lt _h.2

/-- The file parts that listed names are matched against, in the order of the listings. -/
def filePatterns (d : Dialect) (p : Text) : List Text :=
  if d.hasMeta p then
    if _h : d.needsExpansion (d.directoryPart p) then
      d.filePatterns (d.directoryPart p).2 ++ [(d.split p).2]
    else [(d.split p).2]
  else []
  termination_by p.length
  decreasing_by exact directoryPart_length_lt _h

theorem mem_patternsRead_self (d : Dialect) (p : Text) : p ∈ d.patternsRead p := by
  rw [patternsRead]
  split <;> exact List.mem_cons_self

theorem patternsRead_expanded (hmeta : d.hasMeta p = true)
    (hdir : d.needsExpansion (d.directoryPart p) = true) :
    d.patternsRead p = p :: d.patternsRead (d.directoryPart p).2 := by
  rw [patternsRead, dif_pos ⟨hmeta, hdir⟩]

theorem patternsRead_last
    (h : ¬ (d.hasMeta p = true ∧ d.needsExpansion (d.directoryPart p) = true)) :
    d.patternsRead p = [p] := by
  rw [patternsRead, dif_neg h]

theorem filePatterns_plain (hmeta : d.hasMeta p = false) : d.filePatterns p = [] := by
  rw [filePatterns, hmeta, if_neg Bool.false_ne_true]

theorem filePatterns_listed (hmeta : d.hasMeta p = true)
    (hdir : d.needsExpansion (d.directoryPart p) = false) :
    d.filePatterns p = [(d.split p).2] := by
  rw [filePatterns, if_pos hmeta, dif_neg (by simp [hdir])]

theorem filePatterns_expanded (hmeta : d.hasMeta p = true)
    (hdir : d.needsExpansion (d.directoryPart p) = true) :
    d.filePatterns p = d.filePatterns (d.directoryPart p).2 ++ [(d.split p).2] := by
  rw [filePatterns, if_pos hmeta, dif_pos hdir]

/-- A pattern that is rejected for the empty name is rejected at once. -/
theorem glob_rejected (h : d.Rejects p []) :
    d.glob source p = .ofExcept (.error ⟨some p⟩) := by
  rw [glob, h]

/-- A pattern without special characters is looked up. -/
theorem glob_plain (h : ¬ d.Rejects p []) (hmeta : d.hasMeta p = false) :
    d.glob source p =
      ⟨.ok (if source.present p then [p] else []), [.lookup p]⟩ := by
  obtain ⟨answer, hanswer⟩ := exists_answer h
  rw [glob, hanswer]
  simp [hmeta]

/-- A pattern with special characters in its file part alone leads to one listing. -/
theorem glob_listed (h : ¬ d.Rejects p []) (hmeta : d.hasMeta p = true)
    (hdir : d.needsExpansion (d.directoryPart p) = false) :
    d.glob source p = d.expandIn source (d.split p).2 (d.directoryPart p).2 := by
  obtain ⟨answer, hanswer⟩ := exists_answer h
  rw [directoryPart] at hdir ⊢
  rw [glob, hanswer]
  simp [hmeta, hdir]

/-- Otherwise the directory part is expanded, and the directories found are listed. -/
theorem glob_expanded (h : ¬ d.Rejects p []) (hmeta : d.hasMeta p = true)
    (hdir : d.needsExpansion (d.directoryPart p) = true) :
    d.glob source p =
      d.glob source (d.directoryPart p).2 >>= d.expandInAll source (d.split p).2 := by
  obtain ⟨answer, hanswer⟩ := exists_answer h
  rw [directoryPart] at hdir ⊢
  rw [glob, hanswer]
  simp [hmeta, hdir]

/-- A property of patterns holds when each stage of an expansion passes it on from the directory
part that it expands. -/
theorem expansion_induction {motive : Text → Prop}
    (rejected : ∀ p, d.Rejects p [] → motive p)
    (plain : ∀ p, ¬ d.Rejects p [] → d.hasMeta p = false → motive p)
    (listed : ∀ p, ¬ d.Rejects p [] → d.hasMeta p = true →
      d.needsExpansion (d.directoryPart p) = false → motive p)
    (expanded : ∀ p, ¬ d.Rejects p [] → d.hasMeta p = true →
      d.needsExpansion (d.directoryPart p) = true → motive (d.directoryPart p).2 → motive p)
    (p : Text) : motive p := by
  induction hlen : p.length using Nat.strongRecOn generalizing p with
  | ind n ih =>
      by_cases h : d.Rejects p []
      · exact rejected p h
      · cases hmeta : d.hasMeta p with
        | false => exact plain p h hmeta
        | true =>
            cases hdir : d.needsExpansion (d.directoryPart p) with
            | false => exact listed p h hmeta hdir
            | true =>
                have hlt := directoryPart_length_lt hdir
                exact expanded p h hmeta hdir (ih _ (hlen ▸ hlt) _ rfl)

end Dialect

/-! ## Before anything is asked -/

open Dialect

/-- A rejection among the patterns read beforehand is the result, and nothing is asked. -/
theorem glob_of_patternsRead (source : Source) (h : ∃ q ∈ d.patternsRead p, d.Rejects q []) :
    ∃ e, d.glob source p = .ofExcept (.error e) := by
  induction p using expansion_induction (d := d) with
  | rejected p hp => exact ⟨_, glob_rejected hp⟩
  | plain p hp hmeta =>
      rw [patternsRead_last (by simp [hmeta])] at h
      exact absurd (by simpa using h) hp
  | listed p hp hmeta hdir =>
      rw [patternsRead_last (by simp [hdir])] at h
      exact absurd (by simpa using h) hp
  | expanded p hp hmeta hdir ih =>
      rw [patternsRead_expanded hmeta hdir, List.exists_mem_cons_iff] at h
      obtain ⟨e, he⟩ := ih (h.resolve_left hp)
      refine ⟨e, ?_⟩
      rw [glob_expanded hp hmeta hdir, he]
      rfl

theorem events_expandIn_ne_nil : (d.expandIn source pattern dir).events ≠ [] := by
  rw [Dialect.expandIn]
  cases source.list dir <;> simp

/-- Without one, something is asked. -/
theorem events_ne_nil (h : ∀ q ∈ d.patternsRead p, ¬ d.Rejects q []) :
    (d.glob source p).events ≠ [] := by
  induction p using expansion_induction (d := d) with
  | rejected p hp => exact absurd hp (h p (mem_patternsRead_self d p))
  | plain p hp hmeta => simp [glob_plain hp hmeta]
  | listed p hp hmeta hdir =>
      rw [glob_listed hp hmeta hdir]
      exact events_expandIn_ne_nil
  | expanded p hp hmeta hdir ih =>
      rw [patternsRead_expanded hmeta hdir, List.forall_mem_cons] at h
      -- What is asked for the directory part comes first.
      have hdirs := ih h.2
      rw [glob_expanded hp hmeta hdir]
      cases hresult : (d.glob source (d.directoryPart p).2).result with
      | error e =>
          rw [Observed.bind_error hresult]
          exact hdirs
      | ok dirs =>
          rw [Observed.bind_ok hresult]
          exact List.append_ne_nil_of_left_ne_nil hdirs _

/-- Expansion asks nothing of the source exactly when a pattern that it reads beforehand is
rejected. -/
theorem events_eq_nil_iff :
    (d.glob source p).events = [] ↔ ∃ q ∈ d.patternsRead p, d.Rejects q [] := by
  constructor
  · intro h
    by_contra hnone
    exact events_ne_nil (fun q hq hrejects => hnone ⟨q, hq, hrejects⟩) h
  · intro h
    obtain ⟨e, he⟩ := glob_of_patternsRead source h
    rw [he]
    rfl

/-! ## After a listing -/

/-- One of the file parts is rejected for some name, and each one before it matches some name. -/
def CanFail (d : Dialect) (files : List Text) : Prop :=
  ∃ inner file outer, files = inner ++ file :: outer ∧ (∃ name, d.Rejects file name) ∧
    ∀ f ∈ inner, ∃ name, d.matchName f name = .ok true

/-- A path is found only if every file part matches some name. -/
theorem exists_match_of_found {path : Text} (h : (d.glob source p).result = .ok paths)
    (hpath : path ∈ paths) : ∀ f ∈ d.filePatterns p, ∃ name, d.matchName f name = .ok true := by
  induction p using expansion_induction (d := d) generalizing paths path with
  | rejected p hp =>
      rw [glob_rejected hp] at h
      cases h
  | plain p hp hmeta => simp [filePatterns_plain hmeta]
  | listed p hp hmeta hdir =>
      rw [glob_listed hp hmeta hdir] at h
      obtain ⟨name, -, hmatch, -⟩ := (mem_expandIn_iff h).1 hpath
      rw [filePatterns_listed hmeta hdir, List.forall_mem_singleton]
      exact ⟨name, hmatch⟩
  | expanded p hp hmeta hdir ih =>
      rw [glob_expanded hp hmeta hdir, Observed.bind_eq_ok_iff] at h
      obtain ⟨dirs, hdirs, hfound⟩ := h
      obtain ⟨dir, hdir', name, -, hmatch, -⟩ := (mem_expandInAll_iff hfound).1 hpath
      rw [filePatterns_expanded hmeta hdir, List.forall_mem_append, List.forall_mem_singleton]
      exact ⟨ih hdirs hdir', name, hmatch⟩

/-- Expansion that reads its patterns without a rejection fails only where a file part can. -/
theorem canFail_of_failed (hread : ∀ q ∈ d.patternsRead p, ¬ d.Rejects q [])
    (h : (d.glob source p).Failed) : CanFail d (d.filePatterns p) := by
  induction p using expansion_induction (d := d) with
  | rejected p hp => exact absurd hp (hread p (mem_patternsRead_self d p))
  | plain p hp hmeta =>
      rw [glob_plain hp hmeta] at h
      obtain ⟨e, he⟩ := h
      cases he
  | listed p hp hmeta hdir =>
      rw [glob_listed hp hmeta hdir, failed_expandIn_iff] at h
      obtain ⟨name, -, hname⟩ := h
      rw [filePatterns_listed hmeta hdir]
      exact ⟨[], _, [], rfl, ⟨name, hname⟩, by simp⟩
  | expanded p hp hmeta hdir ih =>
      rw [patternsRead_expanded hmeta hdir, List.forall_mem_cons] at hread
      rw [glob_expanded hp hmeta hdir, Observed.failed_bind_iff] at h
      rw [filePatterns_expanded hmeta hdir]
      rcases h with h | ⟨dirs, hdirs, h⟩
      · obtain ⟨inner, file, outer, hfiles, hfile, hinner⟩ := ih hread.2 h
        exact ⟨inner, file, outer ++ [(d.split p).2], by simp [hfiles], hfile, hinner⟩
      · obtain ⟨dir, hdir', name, -, hname⟩ := failed_expandInAll_iff.1 h
        exact ⟨_, _, [], rfl, ⟨name, hname⟩, exists_match_of_found hdirs hdir'⟩

/-- Expansion answers where every pattern that it reads or matches is well formed. -/
theorem not_failed_of_wellFormed (hread : ∀ q ∈ d.patternsRead p, d.WellFormed q)
    (hfiles : ∀ f ∈ d.filePatterns p, d.WellFormed f) : ¬ (d.glob source p).Failed := by
  intro h
  obtain ⟨inner, file, outer, hfile, ⟨name, hname⟩, -⟩ :=
    canFail_of_failed (fun q hq hrejects => hrejects.not_wellFormed (hread q hq)) h
  exact hname.not_wellFormed (hfiles file (by simp [hfile]))

/-- A source in which every path is present and every directory lists the same names. -/
def uniformSource (names : List Text) : Source := ⟨fun _ => true, fun _ => .ok names⟩

theorem listed_uniformSource {name : Text} (h : name ∈ names) (dir : Text) :
    Listed (uniformSource names) dir name :=
  ⟨names, rfl, h⟩

/-- Where each file part matches a listed name, expansion fails or finds a path. -/
theorem failed_or_found
    (h : ∀ f ∈ d.filePatterns p, ∃ name ∈ names, d.matchName f name = .ok true) :
    (d.glob (uniformSource names) p).Failed ∨
      ∃ path paths, (d.glob (uniformSource names) p).result = .ok paths ∧ path ∈ paths := by
  by_cases hfailed : (d.glob (uniformSource names) p).Failed
  · exact .inl hfailed
  · obtain ⟨paths, hpaths⟩ := Observed.not_failed_iff.1 hfailed
    refine .inr ?_
    induction p using expansion_induction (d := d) generalizing paths with
    | rejected p hp =>
        rw [glob_rejected hp] at hpaths
        cases hpaths
    | plain p hp hmeta => exact ⟨p, [p], by rw [glob_plain hp hmeta]; rfl, List.mem_cons_self⟩
    | listed p hp hmeta hdir =>
        rw [filePatterns_listed hmeta hdir, List.forall_mem_singleton] at h
        obtain ⟨name, hname, hmatch⟩ := h
        rw [glob_listed hp hmeta hdir] at hpaths ⊢
        exact ⟨_, paths, hpaths,
          (mem_expandIn_iff hpaths).2 ⟨name, listed_uniformSource hname _, hmatch, rfl⟩⟩
    | expanded p hp hmeta hdir ih =>
        rw [filePatterns_expanded hmeta hdir, List.forall_mem_append,
          List.forall_mem_singleton] at h
        obtain ⟨hinner, name, hname, hmatch⟩ := h
        rw [glob_expanded hp hmeta hdir] at hpaths ⊢
        obtain ⟨dirs, hdirs, hfound⟩ := Observed.bind_eq_ok_iff.1 hpaths
        obtain ⟨dir, dirs', hdirs', hdir'⟩ :=
          ih hinner (Observed.not_failed_iff.2 ⟨dirs, hdirs⟩) dirs hdirs
        rw [hdirs, Except.ok.injEq] at hdirs'
        rw [← hdirs'] at hdir'
        exact ⟨_, paths, hpaths, (mem_expandInAll_iff hfound).2
          ⟨dir, hdir', name, listed_uniformSource hname _, hmatch, rfl⟩⟩

/-- Where a listed name is rejected and directories to list are found, expansion fails. -/
theorem failed_of_rejects {inner outer : List Text} {file : Text}
    (hfiles : d.filePatterns p = inner ++ file :: outer)
    (hfile : ∃ name ∈ names, d.Rejects file name)
    (hinner : ∀ f ∈ inner, ∃ name ∈ names, d.matchName f name = .ok true) :
    (d.glob (uniformSource names) p).Failed := by
  obtain ⟨name, hname, hrejects⟩ := hfile
  induction p using expansion_induction (d := d) generalizing outer with
  | rejected p hp => exact ⟨_, by rw [glob_rejected hp]; rfl⟩
  | plain p hp hmeta =>
      rw [filePatterns_plain hmeta] at hfiles
      exact absurd hfiles.symm (List.append_ne_nil_of_right_ne_nil _ (List.cons_ne_nil _ _))
  | listed p hp hmeta hdir =>
      rw [filePatterns_listed hmeta hdir] at hfiles
      have hlast : file = (d.split p).2 := by
        have hmem : file ∈ [(d.split p).2] := by simp [hfiles]
        exact List.mem_singleton.1 hmem
      rw [glob_listed hp hmeta hdir, failed_expandIn_iff]
      exact ⟨name, listed_uniformSource hname _, hlast ▸ hrejects⟩
  | expanded p hp hmeta hdir ih =>
      rw [filePatterns_expanded hmeta hdir] at hfiles
      rw [glob_expanded hp hmeta hdir, Observed.failed_bind_iff]
      rcases List.eq_nil_or_concat outer with rfl | ⟨outer, last, rfl⟩
      · -- The rejected file part is the last one; the others lead to a directory.
        obtain ⟨hinner', hlast⟩ := List.append_inj' hfiles rfl
        rw [← hinner'] at hinner
        rw [← List.singleton_inj.1 hlast] at hrejects
        refine (failed_or_found hinner).imp_right ?_
        rintro ⟨dir, dirs, hdirs, hdir'⟩
        exact ⟨dirs, hdirs, failed_expandInAll_iff.2
          ⟨dir, hdir', name, listed_uniformSource hname _, hrejects⟩⟩
      · rw [List.concat_eq_append, ← List.cons_append, ← List.append_assoc] at hfiles
        exact .inl (ih (List.append_inj' hfiles rfl).1)

/-- Some source makes expansion fail where a file part can. -/
theorem exists_failed (h : CanFail d (d.filePatterns p)) :
    ∃ source, (d.glob source p).Failed := by
  obtain ⟨inner, file, outer, hfiles, ⟨bad, hbad⟩, hinner⟩ := h
  choose! found hfound using hinner
  -- Every directory lists the rejected name and one for each file part before it.
  refine ⟨uniformSource (bad :: inner.map found), failed_of_rejects hfiles ?_ ?_⟩
  · exact ⟨bad, List.mem_cons_self, hbad⟩
  · intro f hf
    exact ⟨found f, List.mem_cons_of_mem _ (List.mem_map_of_mem hf), hfound f hf⟩

/-! ## Checking first -/

namespace Dialect

/-- Expansion fails exactly for malformed patterns and then asks nothing, if and only if a malformed
pattern is rejected for the empty name, or its directory parts are, and no file part of a
well-formed one can be rejected for a listed name. -/
theorem glob_checks_first_iff (d : Dialect) (p : Text) :
    (∀ source, ((d.glob source p).Failed ↔ ¬ d.WellFormed p) ∧
        ((d.glob source p).Failed → (d.glob source p).events = [])) ↔
      ((∃ q ∈ d.patternsRead p, d.Rejects q []) ↔ ¬ d.WellFormed p) ∧
        (d.WellFormed p → ¬ CanFail d (d.filePatterns p)) := by
  constructor
  · intro hfirst
    refine ⟨⟨?_, ?_⟩, ?_⟩
    · intro hread
      obtain ⟨e, he⟩ := glob_of_patternsRead (uniformSource []) hread
      exact (hfirst _).1.1 ⟨e, by rw [he]; rfl⟩
    · intro hp
      exact events_eq_nil_iff.1 ((hfirst (uniformSource [])).2 ((hfirst _).1.2 hp))
    · intro hp hfail
      obtain ⟨source, hsource⟩ := exists_failed hfail
      exact (hfirst source).1.1 hsource hp
  · rintro ⟨hread, hfiles⟩ source
    have hiff : (d.glob source p).Failed ↔ ∃ q ∈ d.patternsRead p, d.Rejects q [] := by
      constructor
      · intro hfailed
        by_contra hnone
        have hp : d.WellFormed p := not_not.1 (mt hread.2 hnone)
        exact hfiles hp (canFail_of_failed (fun q hq hq' => hnone ⟨q, hq, hq'⟩) hfailed)
      · intro h
        obtain ⟨e, he⟩ := glob_of_patternsRead source h
        exact ⟨e, by rw [he]; rfl⟩
    exact ⟨hiff.trans hread, fun hfailed => events_eq_nil_iff.2 (hiff.1 hfailed)⟩

/-- The malformed pattern `a*[` is answered where `b` is listed, and rejected only after the listing
where `a` is. -/
theorem glob_answers_malformed :
    ¬ posix.WellFormed ['a', '*', '['] ∧
      posix.glob (uniformSource [['b']]) ['a', '*', '['] = ⟨.ok [], [.listing ['.']]⟩ ∧
      posix.glob (uniformSource [['a']]) ['a', '*', '['] =
        ⟨.error ⟨some ['a', '*', '[']⟩, [.listing ['.']]⟩ := by
  have hrejects : posix.Rejects ['a', '*', '['] ['a'] := by decide +kernel
  have hempty : ¬ posix.Rejects ['a', '*', '['] [] := by decide +kernel
  have hlisted (source : Source) : posix.glob source ['a', '*', '['] = _ :=
    glob_listed hempty (by decide) (by decide +kernel)
  refine ⟨hrejects.not_wellFormed, ?_, ?_⟩
  · rw [hlisted]
    exact congrArg₂ Observed.mk (by decide +kernel) (by decide +kernel)
  · rw [hlisted]
    exact congrArg₂ Observed.mk (by decide +kernel) (by decide +kernel)

end Dialect

end PathAlgebra
