import PathAlgebra.Proofs.PatternMatching

/-!
# Lost matches

The matcher never moves a placed chunk. Operators between two stars that shift over a separator are
placed at an earlier start than a cut may need, and leave the separator over. The terms behind them
cannot make up for it in every name: a name that matches them has at most one separator for each
term that takes one (`Matches.count_sep_le`), and some name has as many (`exists_matches_count`), so
that one separator more in front of it leaves no cut.

The lost name is built at the segment that shifts over (`FirstSegment.exists_lost_here`), and texts
for the operators of the earlier segments go in front of it (`FirstSegment.exists_lost_later`);
`exists_lost` is the induction over the pattern. Together with the completeness of the matcher
elsewhere, `matchName_complete_iff` tells for which patterns no match is lost. One where a match is
lost is `*[^a]*b` (`matchName_loses_cut`).
-/

set_option autoImplicit false

namespace PathAlgebra

variable {d : Dialect} {sep : Char} {ts us : List Term} {name : Text}

/-! ## Separators in a name -/

/-- Whether a term takes the separator. -/
def Term.takesSep (sep : Char) : Term → Bool
  | star => false
  | single op => op.accepts sep sep

/-- A cut has a term for each separator of the name. -/
theorem Matches.count_sep_le (h : Matches sep ts name) :
    name.count sep ≤ ts.countP (Term.takesSep sep) := by
  induction h with
  | nil => exact Nat.le_refl 0
  | star hrun _ ih =>
      rw [List.count_append, List.count_eq_zero_of_not_mem hrun, Nat.zero_add]
      simpa [Term.takesSep] using ih
  | @single op ts c rest hc _ ih =>
      rw [List.count_cons, List.countP_cons]
      refine Nat.add_le_add ih ?_
      by_cases hsep : c = sep
      · rw [hsep] at hc
        simp [hsep, Term.takesSep, hc]
      · simp [hsep]

/-- Some name has a separator for each term that takes one. -/
theorem exists_matches_count (hpass : ∀ op, .single op ∈ ts → ¬ op.AcceptsNone sep) :
    ∃ name, Matches sep ts name ∧ name.count sep = ts.countP (Term.takesSep sep) := by
  induction ts with
  | nil => exact ⟨[], .nil, rfl⟩
  | cons t ts ih =>
      obtain ⟨name, hname, hcount⟩ := ih fun op hop => hpass op (List.mem_cons_of_mem _ hop)
      cases t with
      | star => exact ⟨name, .star List.not_mem_nil hname, by simp [Term.takesSep, hcount]⟩
      | single op =>
          cases hsep : op.accepts sep sep with
          | true => exact ⟨sep :: name, .single hsep hname, by simp [Term.takesSep, hsep, hcount]⟩
          | false =>
              obtain ⟨c, hc⟩ := not_forall.1 (hpass op List.mem_cons_self)
              rw [Bool.not_eq_false] at hc
              have hne : c ≠ sep := by
                rintro rfl
                rw [hsep] at hc
                cases hc
              exact ⟨c :: name, .single hc hname, by simp [Term.takesSep, hsep, hcount, hne]⟩

/-- A name with a separator more than that matches nothing. -/
theorem not_matches_of_count_lt {between : Text} (hmem : sep ∈ between)
    (hcount : name.count sep = ts.countP (Term.takesSep sep)) :
    ¬ Matches sep ts (between ++ name) := by
  intro hmatch
  have hle := hmatch.count_sep_le
  rw [List.count_append, hcount] at hle
  have hpos := List.count_pos_iff.2 hmem
  omega

/-! ## A lost name -/

/-- What operators take from a text, they take from it with more text behind. -/
theorem run_append {ops : List Operator} {s rest more : Text}
    (h : Operator.run sep ops s = some rest) :
    Operator.run sep ops (s ++ more) = some (rest ++ more) := by
  obtain ⟨taken, rfl, htaken⟩ := run_eq_some_iff.1 h
  exact run_eq_some_iff.2 ⟨taken, List.append_assoc _ _ _, htaken⟩

namespace FirstSegment

variable {more : List Term} {segment : Segment} {segments : List Segment} {text rest : Text}
variable {stars : Nat} {ops : List Operator}

/-- A chunk with terms behind it is not empty. -/
theorem chunk_ne_nil (h : FirstSegment d ts segment text stars ops more) (hmore : more ≠ []) :
    segment.chunk ≠ [] := by
  intro hchunk
  have hops : ops = [] := by simpa using h.chunk.eq_nil_iff.2 hchunk
  exact hmore (h.more_eq_nil hops)

/-- A chunk with segments behind it is placed at the start of a name if its operators run there. -/
theorem matchSegments_of_run (h : FirstSegment d ts segment text stars ops more)
    (hmore : more ≠ []) (hsegments : segments ≠ [])
    (hrun : Operator.run d.sep ops name = some rest) :
    d.matchSegments (segment :: segments) name = d.matchSegments segments rest := by
  have hhere : placeHere d.sep ops segments.isEmpty name = some rest :=
    placeHere_eq_some_iff.2 ⟨hrun, fun hlast => absurd (List.isEmpty_iff.1 hlast) hsegments⟩
  rw [Dialect.matchSegments_cons, if_neg (by simp [h.chunk_ne_nil hmore]),
    readOperators_of_singles h.chunk]
  dsimp only
  rw [place_of_placeHere hhere]

/-- Operators that shift over a separator lose a name. -/
theorem exists_lost_here (h : FirstSegment d ts segment text stars ops more)
    (hmore : more ≠ []) (hsegments : segments ≠ []) (hstarred : segment.starred = true)
    (hdecides : Decides d segments more)
    (hpass : ∀ op, .single op ∈ more → ¬ op.AcceptsNone d.sep) (hover : ShiftsOver d.sep ops) :
    ∃ name, Matches d.sep ts name ∧ d.matchSegments (segment :: segments) name = .ok false := by
  obtain ⟨shift, taken, between, hshift, htaken, hshifted, hmem⟩ := hover
  obtain ⟨name, hname, hcount⟩ := exists_matches_count hpass
  refine ⟨shift ++ (taken ++ name), ?_, ?_⟩
  · -- The star takes the shift.
    exact h.matches_iff.2 ⟨shift, taken ++ name, name, rfl, hshift, .inl hstarred,
      run_append htaken, hname⟩
  · -- The matcher starts at the shift, and has a separator more for the terms behind.
    rw [← List.append_assoc, h.matchSegments_of_run hmore hsegments (run_append hshifted)]
    obtain ⟨answer, hanswer, hsound, -⟩ := hdecides (between ++ name)
    have hfalse : answer = false :=
      Bool.eq_false_iff.2 fun htrue => not_matches_of_count_lt hmem hcount (hsound htrue)
    rw [hanswer, hfalse]

/-- A name lost behind a chunk is lost with a text for the chunk in front. -/
theorem exists_lost_later (h : FirstSegment d ts segment text stars ops more)
    (hmore : more ≠ []) (hsegments : segments ≠ [])
    (hpass : ∀ op ∈ ops, ¬ op.AcceptsNone d.sep)
    (hlost : ∃ name, Matches d.sep more name ∧ d.matchSegments segments name = .ok false) :
    ∃ name, Matches d.sep ts name ∧ d.matchSegments (segment :: segments) name = .ok false := by
  obtain ⟨name, hname, hanswer⟩ := hlost
  obtain ⟨taken, htaken⟩ := exists_taken hpass
  have hrun : Operator.run d.sep ops (taken ++ name) = some name :=
    run_eq_some_iff.2 ⟨taken, rfl, htaken⟩
  refine ⟨taken ++ name, ?_, ?_⟩
  · exact h.matches_iff.2 ⟨[], taken ++ name, name, rfl, List.not_mem_nil, .inr rfl, hrun, hname⟩
  · rw [h.matchSegments_of_run hmore hsegments hrun, hanswer]

end FirstSegment

theorem not_losesPlace_nil : ¬ LosesPlace sep [] := by
  rintro ⟨front, ops, us, heq, -⟩
  exact List.append_ne_nil_of_right_ne_nil _ (List.cons_ne_nil _ _) heq.symm

/-- A pattern whose operators all accept a character loses a name if it loses a place. -/
theorem exists_lost {p : Text} (h : TermsWritten d ts p)
    (hpass : ∀ op, .single op ∈ ts → ¬ op.AcceptsNone d.sep) (hloses : LosesPlace d.sep ts) :
    ∃ name, Matches d.sep ts name ∧ d.matchSegments (d.segments p) name = .ok false := by
  induction p using Dialect.segments.induct d generalizing ts with
  | case1 =>
      rw [h.eq_nil_iff.2 rfl] at hloses
      exact absurd hloses not_losesPlace_nil
  | case2 c t ih =>
      obtain ⟨stars, ops, more, hfirst⟩ := h.scanChunk
      rw [Dialect.segments]
      have hops : ∀ op ∈ ops, ¬ op.AcceptsNone d.sep := fun op hop =>
        hpass op (by simp [hfirst.terms_eq, hop])
      have hmorePass : ∀ op, .single op ∈ more → ¬ op.AcceptsNone d.sep := fun op hop =>
        hpass op (by simp [hfirst.terms_eq, hop])
      have hsegments : more ≠ [] → d.segments (d.scanChunk (c :: t)).2 ≠ [] := by
        intro hmore hnil
        exact hmore (hfirst.rest.eq_nil_iff.2 (Dialect.segments_eq_nil_iff.1 hnil))
      rcases hfirst.losesPlace_iff.1 hloses with ⟨hstarred, hmore, hover⟩ | hlater
      · exact hfirst.exists_lost_here hmore (hsegments hmore) hstarred
          (matchSegments_decides hfirst.rest) hmorePass hover
      · have hmore : more ≠ [] := by
          rintro rfl
          exact not_losesPlace_nil hlater
        exact hfirst.exists_lost_later hmore (hsegments hmore) hops
          (ih hfirst.rest hmorePass hlater)

/-! ## Patterns that lose no match -/

/-- Nothing matches terms with an operator that accepts no character. -/
theorem not_matches_of_acceptsNone {op : Operator} (hop : .single op ∈ ts)
    (hnone : op.AcceptsNone sep) : ¬ Matches sep ts name := by
  intro h
  induction h with
  | nil => cases hop
  | star _ _ ih => exact ih (by simpa using hop)
  | @single op' ts c rest hc _ ih =>
      rcases List.mem_cons.1 hop with heq | hop
      · rw [← Term.single.inj heq, hnone c] at hc
        cases hc
      · exact ih hop

/-- Operators that start with the separator do not shift over one. -/
theorem not_shiftsOver_of_sep {ops : List Operator} :
    ¬ ShiftsOver sep (.literal sep :: ops) := by
  rintro ⟨shift, taken, between, hshift, htaken, hshifted, hmem⟩
  cases shift with
  | nil =>
      rw [List.nil_append, htaken, Option.some.injEq] at hshifted
      rw [← hshifted] at hmem
      cases hmem
  | cons c shift =>
      -- The shift would start with the separator.
      rw [List.cons_append, Operator.run] at hshifted
      split at hshifted
      · next hc =>
        rw [Operator.accepts, beq_iff_eq] at hc
        exact hshift (hc ▸ List.mem_cons_self)
      · cases hshifted

namespace Dialect

/-- No match is lost, whatever the name, exactly when an operator accepts no character or when no
operators between two stars shift over a separator. -/
theorem matchName_complete_iff {p : Text} (h : TermsWritten d ts p) :
    (∀ name, Matches d.sep ts name → d.matchName p name = .ok true) ↔
      (∃ op, .single op ∈ ts ∧ op.AcceptsNone d.sep) ∨ ¬ LosesPlace d.sep ts := by
  constructor
  · intro hcomplete
    by_contra hneither
    obtain ⟨hpass, hloses⟩ := not_or.1 hneither
    obtain ⟨name, hname, hlost⟩ :=
      exists_lost h (fun op hop hnone => hpass ⟨op, hop, hnone⟩) (not_not.1 hloses)
    have htrue := hcomplete name hname
    rw [matchName, hlost] at htrue
    cases htrue
  · rintro (⟨op, hop, hnone⟩ | hkeep) name hname
    · exact absurd hname (not_matches_of_acceptsNone hop hnone)
    · obtain ⟨answer, hanswer, -, hcomplete⟩ := matchSegments_decides h name
      rw [matchName, hanswer, hcomplete (.inr hkeep) hname]
      rfl

/-- The pattern `*/[^a]*` and the name `x//`, where the class takes a separator. -/
theorem matchName_complete_second_separator :
    TermsWritten .posix
        [.star, .single (.literal '/'), .single (.charClass true [⟨'a', 'a'⟩]), .star]
        ['*', '/', '[', '^', 'a', ']', '*'] ∧
      posix.matchName ['*', '/', '[', '^', 'a', ']', '*'] ['x', '/', '/'] = .ok true := by
  have ha : RangeWritten .posix ⟨'a', 'a'⟩ ['a'] :=
    .one (.plain (by decide) (by decide) (by decide))
  have hclass : OperatorWritten .posix (.charClass true [⟨'a', 'a'⟩]) ['[', '^', 'a', ']'] :=
    .negated (.last ha)
  have hsep : OperatorWritten .posix (.literal '/') ['/'] :=
    .plain (by decide) (by decide) (by decide) (by decide)
  have hwritten := TermsWritten.star (.single hsep (.single hclass (.star .nil)))
  have hkeep : ¬ LosesPlace '/'
      [.star, .single (.literal '/'), .single (.charClass true [⟨'a', 'a'⟩]), .star] := by
    have hiff := @losesPlace_star_iff '/' [.literal '/', .charClass true [⟨'a', 'a'⟩]] [.star]
      (.inr ⟨[], rfl⟩)
    have hlast := @losesPlace_star_iff '/' [] [] (.inl rfl)
    have hnone : ¬ LosesPlace '/' [.star] := by simpa [not_losesPlace_nil] using hlast
    simpa [not_shiftsOver_of_sep, hnone] using hiff
  have hcut : Matches '/'
      [.star, .single (.literal '/'), .single (.charClass true [⟨'a', 'a'⟩]), .star]
      (['x'] ++ ['/', '/']) :=
    .star (by decide) (.single (by decide) (.single (by decide)
      (.star List.not_mem_nil .nil)))
  exact ⟨hwritten, (matchName_complete_iff hwritten).2 (.inr hkeep) _ hcut⟩

/-- The pattern `*[^a]*b` and the name `x/b`. The class takes the separator in a cut, but is placed
at `x`. -/
theorem matchName_loses_cut :
    TermsWritten .posix
        [.star, .single (.charClass true [⟨'a', 'a'⟩]), .star, .single (.literal 'b')]
        ['*', '[', '^', 'a', ']', '*', 'b'] ∧
      (Operator.charClass true [⟨'a', 'a'⟩]).accepts '/' '/' = true ∧
      Matches '/' [.star, .single (.charClass true [⟨'a', 'a'⟩]), .star, .single (.literal 'b')]
        ['x', '/', 'b'] ∧
      posix.matchName ['*', '[', '^', 'a', ']', '*', 'b'] ['x', '/', 'b'] = .ok false := by
  have ha : RangeWritten .posix ⟨'a', 'a'⟩ ['a'] :=
    .one (.plain (by decide) (by decide) (by decide))
  have hclass : OperatorWritten .posix (.charClass true [⟨'a', 'a'⟩]) ['[', '^', 'a', ']'] :=
    .negated (.last ha)
  have hb : OperatorWritten .posix (.literal 'b') ['b'] :=
    .plain (by decide) (by decide) (by decide) (by decide)
  have hcut : Matches '/'
      [.star, .single (.charClass true [⟨'a', 'a'⟩]), .star, .single (.literal 'b')]
      (['x'] ++ '/' :: ([] ++ ['b'])) :=
    .star (by decide) (.single (by decide) (.star List.not_mem_nil (.single (by decide) .nil)))
  exact ⟨.star (.single hclass (.star (.single hb .nil))), by decide, hcut, by decide +kernel⟩

end Dialect

end PathAlgebra
