import Mathlib.Data.List.Forall2
import PathAlgebra.Pattern.Match
import PathAlgebra.Proofs.PatternReading

/-!
# The matcher decides the pattern language

The matcher puts each chunk at the first start that fits and never moves it again. When the chunk
fits at a later start too, the star behind it has to take what it then leaves over in front of the
later rest (`exists_append_of_run`), and cannot take a separator. So a match can be lost only where
operators between two stars shift over a separator (`LosesPlace`), which they do not as long as no
class takes the separator for a character (`ClassesAvoid.not_losesPlace`).

One segment is `FirstSegment.decides_star` or `FirstSegment.decides_cons`, which look at the
operators of its chunk and not at the pass over it (`Dialect.matchSegments_cons`); a run over all
segments is `matchSegments_decides`, by induction over the pattern. `matchName_decides` is the
statement about a whole pattern, and `matchName_terminates` says that a well-formed one is never an
error.
-/

set_option autoImplicit false

namespace PathAlgebra

variable {d : Dialect} {sep : Char}

/-! ## Cuts of a name -/

/-- A cut for a concatenation is a cut for each part. -/
theorem matches_append_iff {ts us : List Term} {name : Text} :
    Matches sep (ts ++ us) name ↔
      ∃ front back, name = front ++ back ∧ Matches sep ts front ∧ Matches sep us back := by
  constructor
  · intro h
    induction ts generalizing name with
    | nil => exact ⟨[], name, rfl, .nil, h⟩
    | cons t ts ih =>
        cases h with
        | star hrun hrest =>
            obtain ⟨front, back, rfl, hfront, hback⟩ := ih hrest
            exact ⟨_, back, (List.append_assoc _ _ _).symm, .star hrun hfront, hback⟩
        | single hc hrest =>
            obtain ⟨front, back, rfl, hfront, hback⟩ := ih hrest
            exact ⟨_ :: front, back, rfl, .single hc hfront, hback⟩
  · rintro ⟨front, back, rfl, hfront, hback⟩
    induction hfront with
    | nil => exact hback
    | star hrun hrest ih =>
        rw [List.append_assoc]
        exact .star hrun ih
    | single hc hrest ih => exact .single hc ih

/-- Stars in front take a run without the separator; no star takes nothing. -/
theorem matches_stars_iff {stars : Nat} {us : List Term} {name : Text} :
    Matches sep (List.replicate stars .star ++ us) name ↔
      ∃ run s, name = run ++ s ∧ sep ∉ run ∧ (0 < stars ∨ run = []) ∧ Matches sep us s := by
  constructor
  · intro h
    induction stars generalizing name with
    | zero => exact ⟨[], name, rfl, by simp, .inr rfl, h⟩
    | succ stars ih =>
        cases h with
        | star hrun hrest =>
            -- The runs of two stars are one run without the separator.
            obtain ⟨run', s, rfl, hrun', -, hs⟩ := ih hrest
            refine ⟨_ ++ run', s, (List.append_assoc _ _ _).symm, ?_, .inl (Nat.succ_pos _), hs⟩
            simp [hrun, hrun']
  · rintro ⟨run, s, rfl, hrun, hstars, hs⟩
    cases stars with
    | zero =>
        rcases hstars with hpos | rfl
        · exact absurd hpos (Nat.lt_irrefl 0)
        · exact hs
    | succ stars =>
        -- The first star takes the run, the others nothing.
        have hothers : Matches sep (List.replicate stars .star ++ us) s := by
          induction stars with
          | zero => exact hs
          | succ stars ih =>
              have hnone : sep ∉ ([] : Text) := List.not_mem_nil
              exact .star hnone (ih (.inl (Nat.succ_pos _)))
        exact .star hrun hothers

/-- A run takes one accepted character per operator off the front. -/
theorem run_eq_some_iff {ops : List Operator} {s rest : Text} :
    Operator.run sep ops s = some rest ↔
      ∃ taken, s = taken ++ rest ∧
        List.Forall₂ (fun op c => op.accepts sep c = true) ops taken := by
  constructor
  · intro h
    induction ops generalizing s with
    | nil =>
        rw [Operator.run, Option.some.injEq] at h
        exact ⟨[], h, .nil⟩
    | cons op ops ih =>
        cases s with
        | nil => simp [Operator.run] at h
        | cons c s =>
            rw [Operator.run] at h
            split at h
            · next hc =>
              obtain ⟨taken, rfl, htaken⟩ := ih h
              exact ⟨c :: taken, rfl, .cons hc htaken⟩
            · cases h
  · rintro ⟨taken, rfl, htaken⟩
    induction htaken with
    | nil => rfl
    | cons hc _ ih => rw [List.cons_append, Operator.run, if_pos hc, ih]

/-- A run takes a whole text when each operator accepts its character. -/
theorem run_eq_nil_iff {ops : List Operator} {s : Text} :
    Operator.run sep ops s = some [] ↔
      List.Forall₂ (fun op c => op.accepts sep c = true) ops s := by
  simp [run_eq_some_iff]

/-- No character is accepted, as by a class whose range runs backwards. -/
def Operator.AcceptsNone (sep : Char) (op : Operator) : Prop := ∀ c, op.accepts sep c = false

/-- Operators that each accept a character take some text. -/
theorem exists_taken {ops : List Operator} (h : ∀ op ∈ ops, ¬ op.AcceptsNone sep) :
    ∃ taken, List.Forall₂ (fun op c => op.accepts sep c = true) ops taken := by
  induction ops with
  | nil => exact ⟨[], .nil⟩
  | cons op ops ih =>
      obtain ⟨taken, htaken⟩ := ih fun op hop => h op (List.mem_cons_of_mem _ hop)
      obtain ⟨c, hc⟩ := not_forall.1 (h op List.mem_cons_self)
      exact ⟨c :: taken, .cons (Bool.of_not_eq_false hc) htaken⟩

/-- An operator that accepts no character lets no run through. -/
theorem run_eq_none_of_acceptsNone {ops : List Operator} {op : Operator} (hop : op ∈ ops)
    (hnone : op.AcceptsNone sep) (s : Text) : Operator.run sep ops s = none := by
  induction ops generalizing s with
  | nil => cases hop
  | cons op' ops ih =>
      cases s with
      | nil => rfl
      | cons c s =>
          rw [Operator.run]
          rcases List.mem_cons.1 hop with rfl | hop
          · rw [hnone c, if_neg Bool.false_ne_true]
          · rw [ih hop, ite_self]

/-- Operators in front of other terms take what a run takes. -/
theorem matches_singles_iff {ops : List Operator} {more : List Term} {s : Text} :
    Matches sep (ops.map .single ++ more) s ↔
      ∃ rest, Operator.run sep ops s = some rest ∧ Matches sep more rest := by
  induction ops generalizing s with
  | nil => simp [Operator.run]
  | cons op ops ih =>
      rw [List.map_cons, List.cons_append, matches_single_iff]
      cases s with
      | nil => simp [Operator.run]
      | cons c s =>
          rw [Operator.run]
          cases hc : op.accepts sep c with
          | false => simp [hc]
          | true => simp [hc, ih]

/-! ## First places -/

/-- The place that is found can be reached, and no chunk fits before it. -/
theorem place_eq_some {ops : List Operator} {last starred : Bool} {name rest : Text}
    (h : place sep ops last starred name = some rest) :
    ∃ run s, name = run ++ s ∧ sep ∉ run ∧ (starred = true ∨ run = []) ∧
      placeHere sep ops last s = some rest ∧
      ∀ run' s', name = run' ++ s' → run'.length < run.length →
        placeHere sep ops last s' = none := by
  induction name with
  | nil => exact ⟨[], [], rfl, by simp, .inr rfl, h, by simp⟩
  | cons c name ih =>
      rw [place] at h
      split at h
      · next hhere =>
        rw [h] at hhere
        exact ⟨[], c :: name, rfl, by simp, .inr rfl, hhere, by simp⟩
      · next hhere =>
        split at h
        · next hstep =>
          rw [Bool.and_eq_true, bne_iff_ne] at hstep
          -- The step is over a character that is not the separator; nothing fits in front of it.
          obtain ⟨run, s, rfl, hrun, -, hs, hfirst⟩ := ih h
          refine ⟨c :: run, s, rfl, ?_, .inl hstep.1, hs, ?_⟩
          · intro hmem
            rcases List.mem_cons.1 hmem with heq | hmem
            · exact hstep.2 heq.symm
            · exact hrun hmem
          · intro run' s' heq hlt
            cases run' with
            | nil =>
                rw [List.nil_append] at heq
                rw [← heq]
                exact hhere
            | cons c' run' =>
                exact hfirst run' s' (List.cons.inj heq).2 (Nat.lt_of_succ_lt_succ hlt)
        · cases h

/-- Without a place, no chunk fits where it could be reached. -/
theorem place_eq_none {ops : List Operator} {last starred : Bool} {name : Text}
    (h : place sep ops last starred name = none) {run s : Text} (hname : name = run ++ s)
    (hrun : sep ∉ run) (hstarred : starred = true ∨ run = []) :
    placeHere sep ops last s = none := by
  induction run generalizing name with
  | nil =>
      rw [List.nil_append] at hname
      subst hname
      cases name with
      | nil => exact h
      | cons c name =>
          rw [place] at h
          split at h
          · cases h
          · next hhere => exact hhere
  | cons c run ih =>
      rcases hstarred with hstarred | hnil
      · subst hname
        have hc : c ≠ sep := fun hc => hrun (hc ▸ List.mem_cons_self)
        rw [List.cons_append, place] at h
        split at h
        · cases h
        · rw [hstarred, if_pos (by simpa using hc)] at h
          rw [hstarred] at ih
          exact ih h rfl (fun hmem => hrun (List.mem_cons_of_mem _ hmem)) (.inl rfl)
      · cases hnil

/-- A chunk that is not the last is placed wherever its operators run. -/
theorem placeHere_eq_some_iff {ops : List Operator} {last : Bool} {s rest : Text} :
    placeHere sep ops last s = some rest ↔
      Operator.run sep ops s = some rest ∧ (last = true → rest = []) := by
  rw [placeHere, Option.filter_eq_some_iff]
  cases last with
  | false => simp
  | true => simp

/-- A chunk that fits at the start is placed there. -/
theorem place_of_placeHere {ops : List Operator} {last starred : Bool} {name rest : Text}
    (h : placeHere sep ops last name = some rest) :
    place sep ops last starred name = some rest := by
  cases name with
  | nil => exact h
  | cons c name => rw [place, h]

/-! ## Trading a later place for the first -/

/-- The operators take a text, and also the text behind a shift by a run without the separator, and
leave a separator over when they take the shifted text. -/
def ShiftsOver (sep : Char) (ops : List Operator) : Prop :=
  ∃ shift taken between, sep ∉ shift ∧ Operator.run sep ops taken = some [] ∧
    Operator.run sep ops (shift ++ taken) = some between ∧ sep ∈ between

/-- Two stars have operators between them that shift over a separator. -/
def LosesPlace (sep : Char) (ts : List Term) : Prop :=
  ∃ front ops us, ts = front ++ .star :: (ops.map .single ++ .star :: us) ∧ ShiftsOver sep ops

/-- No class of the terms takes the separator for a character. -/
def ClassesAvoid (sep : Char) (ts : List Term) : Prop :=
  ∀ (negated : Bool) (ranges : List CharRange), .single (.charClass negated ranges) ∈ ts →
    (Operator.charClass negated ranges).accepts sep sep = false

/-- Where no class takes the separator, only the separator itself does. -/
theorem ClassesAvoid.eq_literal {ts : List Term} (h : ClassesAvoid sep ts) {op : Operator}
    (hop : .single op ∈ ts) (hsep : op.accepts sep sep = true) : op = .literal sep := by
  cases op with
  | any => simp [Operator.accepts] at hsep
  | literal l =>
      rw [Operator.accepts, beq_iff_eq] at hsep
      rw [hsep]
  | charClass negated ranges =>
      rw [h negated ranges hop] at hsep
      cases hsep

/-- A text that operators take behind a shift by a run without the separator has no separator,
when they also take the shifted text: the first one would stand in the shift or be preceded by
another. -/
theorem sep_notMem_of_shift {ops : List Operator} {shift taken₁ taken₂ between : Text}
    (hops : ∀ op ∈ ops, op.accepts sep sep = true → op = .literal sep)
    (h₁ : List.Forall₂ (fun op c => op.accepts sep c = true) ops taken₁)
    (h₂ : List.Forall₂ (fun op c => op.accepts sep c = true) ops taken₂)
    (heq : shift ++ taken₂ = taken₁ ++ between) (hne : shift ≠ []) (hshift : sep ∉ shift) :
    sep ∉ taken₂ := by
  have hlen₁ := h₁.length_eq
  have hlen₂ := h₂.length_eq
  have hpos := List.length_pos_iff.2 hne
  have hat : ∀ i (hi : i < taken₂.length), taken₂[i] ≠ sep := by
    intro i
    induction i using Nat.strongRecOn with
    | ind i ih =>
        intro hi hsep
        -- The operator there takes the separator, so it takes nothing else.
        have hop₂ := h₂.get (hlen₂ ▸ hi) hi
        have hop₁ := h₁.get (hlen₂ ▸ hi) (hlen₁ ▸ hlen₂ ▸ hi)
        simp only [List.get_eq_getElem] at hop₁ hop₂
        rw [hsep] at hop₂
        rw [hops _ (List.getElem_mem _) hop₂, Operator.accepts, beq_iff_eq] at hop₁
        have hboth : (shift ++ taken₂)[i]? = some sep := by
          rw [heq, List.getElem?_append_left (hlen₁ ▸ hlen₂ ▸ hi), ← hop₁]
          exact List.getElem?_eq_getElem _
        -- Inside the shift there is no separator, and behind it an earlier one would show.
        rcases Nat.lt_or_ge i shift.length with hlt | hge
        · rw [List.getElem?_append_left hlt] at hboth
          exact hshift (List.mem_of_getElem? hboth)
        · rw [List.getElem?_append_right hge] at hboth
          obtain ⟨hi', hsep'⟩ := List.getElem?_eq_some_iff.1 hboth
          exact ih (i - shift.length) (by omega) hi' hsep'
  intro hmem
  obtain ⟨i, hi, hsep⟩ := List.getElem_of_mem hmem
  exact hat i hi hsep

/-- The rest behind an earlier place goes on with the rest behind a later one. What is between them
is left over from the text that the later place takes. -/
theorem exists_append_of_run {ops : List Operator} {shift s rest₁ rest₂ : Text}
    (h₁ : Operator.run sep ops (shift ++ s) = some rest₁)
    (h₂ : Operator.run sep ops s = some rest₂) :
    ∃ taken between, s = taken ++ rest₂ ∧ rest₁ = between ++ rest₂ ∧
      Operator.run sep ops taken = some [] ∧
      Operator.run sep ops (shift ++ taken) = some between := by
  obtain ⟨taken₁, heq, htaken₁⟩ := run_eq_some_iff.1 h₁
  obtain ⟨taken₂, rfl, htaken₂⟩ := run_eq_some_iff.1 h₂
  -- Both runs take as many characters as there are operators, so the later one ends later.
  have hlen : taken₁.length = taken₂.length := htaken₁.length_eq.symm.trans htaken₂.length_eq
  rw [← List.append_assoc] at heq
  have hle : taken₁.length ≤ (shift ++ taken₂).length := by
    rw [List.length_append]
    omega
  obtain ⟨between, hbetween⟩ : taken₁ <+: shift ++ taken₂ :=
    List.prefix_of_prefix_length_le ⟨rest₁, heq.symm⟩ (List.prefix_append _ _) hle
  rw [← hbetween, List.append_assoc] at heq
  refine ⟨taken₂, between, rfl, (List.append_cancel_left heq).symm, ?_, ?_⟩
  · exact run_eq_some_iff.2 ⟨taken₂, (List.append_nil _).symm, htaken₂⟩
  · exact run_eq_some_iff.2 ⟨taken₁, hbetween.symm, htaken₁⟩

/-- Operators that take the separator only as a literal do not shift over it. -/
theorem not_shiftsOver_of_literals {ops : List Operator}
    (hops : ∀ op ∈ ops, op.accepts sep sep = true → op = .literal sep) : ¬ ShiftsOver sep ops := by
  rintro ⟨shift, taken, between, hshift, htaken, hshifted, hmem⟩
  have hne : shift ≠ [] := by
    rintro rfl
    rw [List.nil_append, htaken, Option.some.injEq] at hshifted
    rw [← hshifted] at hmem
    cases hmem
  obtain ⟨taken₁, heq, htaken₁⟩ := run_eq_some_iff.1 hshifted
  have hboth : sep ∈ shift ++ taken := heq ▸ List.mem_append_right _ hmem
  have hnone := sep_notMem_of_shift hops htaken₁ (run_eq_nil_iff.1 htaken) heq hne hshift
  exact hnone ((List.mem_append.1 hboth).resolve_left hshift)

/-- Where no class takes the separator, no operators shift over it. -/
theorem ClassesAvoid.not_losesPlace {ts : List Term} (h : ClassesAvoid sep ts) :
    ¬ LosesPlace sep ts := by
  rintro ⟨front, ops, us, rfl, hover⟩
  exact not_shiftsOver_of_literals (fun op hop => h.eq_literal (by simp [hop])) hover

/-- The operators up to the first star are determined by the terms. -/
theorem singles_append_inj {ops ops' : List Operator} {us more : List Term}
    (hmore : more = [] ∨ ∃ us, more = .star :: us)
    (h : ops'.map .single ++ .star :: us = ops.map .single ++ more) :
    ops' = ops ∧ more = .star :: us := by
  induction ops generalizing ops' with
  | nil =>
      cases ops' with
      | nil => exact ⟨rfl, h.symm⟩
      | cons op ops' => rcases hmore with rfl | ⟨us', rfl⟩ <;> cases h
  | cons op ops ih =>
      cases ops' with
      | nil => cases h
      | cons op' ops' =>
          obtain ⟨hop, htail⟩ := List.cons.inj h
          obtain ⟨rfl, hus⟩ := ih htail
          exact ⟨by rw [Term.single.inj hop], hus⟩

theorem losesPlace_singles_iff {ops : List Operator} {ts : List Term} :
    LosesPlace sep (ops.map .single ++ ts) ↔ LosesPlace sep ts := by
  induction ops with
  | nil => rfl
  | cons op ops ih =>
      rw [← ih]
      constructor
      · rintro ⟨front, ops', us, heq, hover⟩
        cases front with
        | nil => cases heq
        | cons t front => exact ⟨front, ops', us, (List.cons.inj heq).2, hover⟩
      · rintro ⟨front, ops', us, heq, hover⟩
        refine ⟨.single op :: front, ops', us, ?_, hover⟩
        rw [List.map_cons, List.cons_append, heq, List.cons_append]

/-- A place is lost by the operators behind the first star, or later. -/
theorem losesPlace_star_iff {ops : List Operator} {more : List Term}
    (hmore : more = [] ∨ ∃ us, more = .star :: us) :
    LosesPlace sep (.star :: (ops.map .single ++ more)) ↔
      (more ≠ [] ∧ ShiftsOver sep ops) ∨ LosesPlace sep more := by
  constructor
  · rintro ⟨front, ops', us, heq, hover⟩
    cases front with
    | nil =>
        obtain ⟨rfl, rfl⟩ := singles_append_inj hmore (List.cons.inj heq).2.symm
        exact .inl ⟨List.cons_ne_nil _ _, hover⟩
    | cons t front =>
        exact .inr (losesPlace_singles_iff.1 ⟨front, ops', us, (List.cons.inj heq).2, hover⟩)
  · rintro (⟨hne, hover⟩ | hlater)
    · obtain ⟨us, rfl⟩ := hmore.resolve_left hne
      exact ⟨[], ops, us, rfl, hover⟩
    · obtain ⟨front, ops', us, rfl, hover⟩ := hlater
      exact ⟨.star :: (ops.map .single ++ front), ops', us, by simp, hover⟩

theorem losesPlace_stars_iff {stars : Nat} {ops : List Operator} {more : List Term}
    (hmore : more = [] ∨ ∃ us, more = .star :: us) :
    LosesPlace sep (List.replicate stars .star ++ (ops.map .single ++ more)) ↔
      (0 < stars ∧ more ≠ [] ∧ ShiftsOver sep ops) ∨ LosesPlace sep more := by
  induction stars with
  | zero => simp [losesPlace_singles_iff]
  | succ stars ih =>
      cases stars with
      | zero => simp [losesPlace_star_iff hmore]
      | succ stars =>
          -- Two stars have no operators between them.
          have hnone : ¬ ShiftsOver sep [] := not_shiftsOver_of_literals (by simp)
          have hstar := @losesPlace_star_iff sep []
            _ (.inr ⟨List.replicate stars .star ++ (ops.map .single ++ more), rfl⟩)
          simp only [List.replicate_succ, List.cons_append] at ih ⊢
          simpa [hnone, ih] using hstar

/-- Terms that start with a star match behind the first place of a chunk when they match behind
any place of it. -/
theorem matches_of_first_place {ops : List Operator} {us : List Term}
    {run₁ s₁ rest₁ run₂ s₂ rest₂ : Text} (hname : run₁ ++ s₁ = run₂ ++ s₂)
    (hrun₁ : Operator.run sep ops s₁ = some rest₁) (hrun₂ : Operator.run sep ops s₂ = some rest₂)
    (hle : run₁.length ≤ run₂.length) (hfree : sep ∉ run₂)
    (hsep : sep ∉ s₂ ∨ ¬ ShiftsOver sep ops) (h : Matches sep (.star :: us) rest₂) :
    Matches sep (.star :: us) rest₁ := by
  obtain ⟨shift, rfl⟩ : run₁ <+: run₂ :=
    List.prefix_of_prefix_length_le ⟨s₁, hname⟩ (List.prefix_append _ _) hle
  rw [List.append_assoc] at hname
  have hs₁ : s₁ = shift ++ s₂ := List.append_cancel_left hname
  rw [hs₁] at hrun₁
  have hshift : sep ∉ shift := fun hmem => hfree (List.mem_append_right _ hmem)
  obtain ⟨taken, between, hs₂, rfl, htaken, hshifted⟩ := exists_append_of_run hrun₁ hrun₂
  have hbetween : sep ∉ between := by
    intro hmem
    rcases hsep with hfree | hover
    · -- What is between comes from the shift or from the text behind it.
      obtain ⟨taken₁, heq, -⟩ := run_eq_some_iff.1 hshifted
      have hboth : sep ∈ shift ++ taken := heq ▸ List.mem_append_right _ hmem
      have htaken := (List.mem_append.1 hboth).resolve_left hshift
      exact hfree (hs₂ ▸ List.mem_append_left _ htaken)
    · exact hover ⟨shift, taken, between, hshift, htaken, hshifted, hmem⟩
  cases h with
  | star hstar hus =>
      -- The star takes what is between the rests in front of its own run.
      rw [← List.append_assoc]
      refine .star ?_ hus
      intro hmem
      rcases List.mem_append.1 hmem with hmem | hmem
      · exact hbetween hmem
      · exact hstar hmem

/-! ## A run over the segments -/

/-- The segments tell whether terms match a name: never an error, always sound, and complete
where the name has no separator or no place is lost. -/
def Decides (d : Dialect) (segments : List Segment) (ts : List Term) : Prop :=
  ∀ name, ∃ answer, d.matchSegments segments name = .ok answer ∧
    (answer = true → Matches d.sep ts name) ∧
    (d.sep ∉ name ∨ ¬ LosesPlace d.sep ts → Matches d.sep ts name → answer = true)

theorem decides_nil : Decides d [] [] := by
  intro name
  refine ⟨name.isEmpty, rfl, ?_, ?_⟩
  · intro hempty
    rw [List.isEmpty_iff.1 hempty]
    exact .nil
  · intro _ h
    cases h
    rfl

namespace FirstSegment

variable {ts more : List Term} {segment : Segment} {segments : List Segment}
variable {text name rest : Text} {stars : Nat} {ops : List Operator} {last : Bool}

/-- A name matches when the chunk can be placed in it and the other terms match behind. -/
theorem matches_iff (h : FirstSegment d ts segment text stars ops more) :
    Matches sep ts name ↔ ∃ run s rest, name = run ++ s ∧ sep ∉ run ∧
      (segment.starred = true ∨ run = []) ∧ Operator.run sep ops s = some rest ∧
      Matches sep more rest := by
  rw [h.terms_eq, matches_stars_iff]
  constructor
  · rintro ⟨run, s, hname, hrun, hstars, hs⟩
    obtain ⟨rest, hops, hrest⟩ := matches_singles_iff.1 hs
    exact ⟨run, s, rest, hname, hrun, hstars.imp_left h.starred_iff.2, hops, hrest⟩
  · rintro ⟨run, s, rest, hname, hrun, hstarred, hops, hrest⟩
    refine ⟨run, s, hname, hrun, hstarred.imp_left h.starred_iff.1, ?_⟩
    exact matches_singles_iff.2 ⟨rest, hops, hrest⟩

/-- A chunk that cannot be placed leaves no match. -/
theorem not_matches (h : FirstSegment d ts segment text stars ops more)
    (hlast : last = true → more = []) (hplace : place sep ops last segment.starred name = none) :
    ¬ Matches sep ts name := by
  intro hmatch
  obtain ⟨run, s, rest, hname, hrun, hstarred, hops, hrest⟩ := h.matches_iff.1 hmatch
  have hhere := place_eq_none hplace hname hrun hstarred
  have hfits : placeHere sep ops last s = some rest := by
    refine placeHere_eq_some_iff.2 ⟨hops, fun hend => ?_⟩
    rw [hlast hend] at hrest
    cases hrest
    rfl
  rw [hhere] at hfits
  cases hfits

/-- A match behind the placed chunk is a match of the whole name. -/
theorem matches_of_rest (h : FirstSegment d ts segment text stars ops more)
    (hplace : place sep ops last segment.starred name = some rest)
    (hrest : Matches sep more rest) : Matches sep ts name := by
  obtain ⟨run, s, hname, hrun, hstarred, hhere, -⟩ := place_eq_some hplace
  obtain ⟨hops, -⟩ := placeHere_eq_some_iff.1 hhere
  exact h.matches_iff.2 ⟨run, s, rest, hname, hrun, hstarred, hops, hrest⟩

/-- A place is lost by the first chunk, or later. -/
theorem losesPlace_iff (h : FirstSegment d ts segment text stars ops more) :
    LosesPlace sep ts ↔
      (segment.starred = true ∧ more ≠ [] ∧ ShiftsOver sep ops) ∨ LosesPlace sep more := by
  rw [h.terms_eq, losesPlace_stars_iff h.more_starts, h.starred_iff]

/-- A match of the whole name is a match behind the placed chunk, since what another place would
leave over goes to the next star. -/
theorem matches_rest (h : FirstSegment d ts segment text stars ops more)
    (hlast : last = true ↔ more = []) (hsep : sep ∉ name ∨ ¬ LosesPlace sep ts)
    (hplace : place sep ops last segment.starred name = some rest) (hmatch : Matches sep ts name) :
    Matches sep more rest := by
  obtain ⟨run, s, hname, -, -, hhere, hfirst⟩ := place_eq_some hplace
  obtain ⟨hops, hend⟩ := placeHere_eq_some_iff.1 hhere
  obtain ⟨run', s', rest', hname', hrun', hstarred, hops', hrest'⟩ := h.matches_iff.1 hmatch
  -- A last chunk leaves nothing over; behind any other stands a star.
  rcases h.more_starts with hnil | ⟨us, hstar⟩
  · rw [hnil, hend (hlast.2 hnil)]
    exact .nil
  · have hne : more ≠ [] := by simp [hstar]
    -- The first place is not behind the one of the given cut.
    have hle : run.length ≤ run'.length := by
      apply Nat.le_of_not_lt
      intro hlt
      have hnone := hfirst run' s' hname' hlt
      have hfits : placeHere sep ops last s' = some rest' :=
        placeHere_eq_some_iff.2 ⟨hops', fun hlast' => absurd (hlast.1 hlast') hne⟩
      rw [hnone] at hfits
      cases hfits
    rcases hstarred with hstarred | rfl
    · rw [hstar] at hrest' ⊢
      refine matches_of_first_place (hname ▸ hname') hops hops' hle hrun' ?_ hrest'
      rcases hsep with hfree | hkeep
      · rw [hname'] at hfree
        exact .inl fun hmem => hfree (List.mem_append_right _ hmem)
      · exact .inr fun hover => hkeep (h.losesPlace_iff.2 (.inl ⟨hstarred, hne, hover⟩))
    · -- Without a star there is only one place.
      obtain rfl := List.eq_nil_of_length_eq_zero (Nat.le_zero.1 hle)
      obtain rfl : s = s' := hname.symm.trans hname'
      rw [hops, Option.some.injEq] at hops'
      rw [hops']
      exact hrest'

/-- The rest behind a placed chunk meets the condition that the name meets. -/
theorem separates_rest (h : FirstSegment d ts segment text stars ops more)
    (hplace : place sep ops last segment.starred name = some rest)
    (hsep : sep ∉ name ∨ ¬ LosesPlace sep ts) : sep ∉ rest ∨ ¬ LosesPlace sep more := by
  rcases hsep with hfree | hkeep
  · obtain ⟨run, s, rfl, -, -, hhere, -⟩ := place_eq_some hplace
    obtain ⟨taken, rfl, -⟩ := run_eq_some_iff.1 (placeHere_eq_some_iff.1 hhere).1
    exact .inl fun hmem => hfree (by simp [hmem])
  · exact .inr fun hlater => hkeep (h.losesPlace_iff.2 (.inr hlater))

/-- A star at the end takes the rest of a name without a separator. -/
theorem decides_star (h : FirstSegment d ts segment text stars ops more)
    (hstar : segment.starred = true) (hchunk : segment.chunk = []) :
    Decides d (segment :: segments) ts := by
  have hops : ops = [] := by
    have hsingles := h.chunk.eq_nil_iff.2 hchunk
    simpa using hsingles
  have hiff : ∀ name, Matches d.sep ts name ↔ d.sep ∉ name := by
    intro name
    rw [h.matches_iff, hops, h.more_eq_nil hops]
    constructor
    · rintro ⟨run, s, rest, rfl, hrun, -, hs, hrest⟩
      cases hrest
      cases hs
      simpa using hrun
    · intro hname
      exact ⟨name, [], [], by simp, hname, .inl hstar, rfl, .nil⟩
  intro name
  refine ⟨!name.contains d.sep, ?_, ?_, ?_⟩
  · rw [Dialect.matchSegments_cons, hstar, hchunk]
    rfl
  · intro hanswer
    rw [hiff]
    simpa using hanswer
  · intro _ hmatch
    rw [hiff] at hmatch
    simpa using hmatch

/-- One segment more: its chunk is placed first where it fits, and the rest decides. -/
theorem decides_cons (h : FirstSegment d ts segment text stars ops more)
    (hlast : segments = [] ↔ more = []) (hmore : Decides d segments more)
    (hchunk : ¬(segment.starred = true ∧ segment.chunk = [])) :
    Decides d (segment :: segments) ts := by
  have hlast' : segments.isEmpty = true ↔ more = [] := by rw [List.isEmpty_iff, hlast]
  intro name
  rw [Dialect.matchSegments_cons, if_neg (by simpa using hchunk), readOperators_of_singles h.chunk]
  dsimp only
  cases hplace : place d.sep ops segments.isEmpty segment.starred name with
  | none =>
      refine ⟨false, rfl, by simp, ?_⟩
      intro _ hmatch
      exact absurd hmatch (h.not_matches hlast'.1 hplace)
  | some rest =>
      obtain ⟨answer, hanswer, hsound, hcomplete⟩ := hmore rest
      refine ⟨answer, hanswer, ?_, ?_⟩
      · intro htrue
        exact h.matches_of_rest hplace (hsound htrue)
      · intro hsep hmatch
        apply hcomplete
        · exact h.separates_rest hplace hsep
        · exact h.matches_rest hlast' hsep hplace hmatch

end FirstSegment

/-- The segments of a written pattern tell whether its terms match. -/
theorem matchSegments_decides {ts : List Term} {p : Text} (h : TermsWritten d ts p) :
    Decides d (d.segments p) ts := by
  induction p using Dialect.segments.induct d generalizing ts with
  | case1 =>
      rw [Dialect.segments, h.eq_nil_iff.2 rfl]
      exact decides_nil
  | case2 c t ih =>
      obtain ⟨stars, ops, more, hfirst⟩ := h.scanChunk
      rw [Dialect.segments]
      by_cases hchunk :
          (d.scanChunk (c :: t)).1.starred = true ∧ (d.scanChunk (c :: t)).1.chunk = []
      · exact hfirst.decides_star hchunk.1 hchunk.2
      · refine hfirst.decides_cons ?_ (ih hfirst.rest) hchunk
        rw [Dialect.segments_eq_nil_iff, hfirst.rest.eq_nil_iff]

namespace Dialect

/-- A written pattern has an answer for every name: sound, and complete where no class takes a
separator of the name. -/
theorem matchName_answer {ts : List Term} {p : Text} (h : TermsWritten d ts p) (name : Text) :
    ∃ answer, d.matchName p name = .ok answer ∧ (answer = true → Matches d.sep ts name) ∧
      (d.sep ∉ name ∨ ClassesAvoid d.sep ts → Matches d.sep ts name → answer = true) := by
  obtain ⟨answer, hanswer, hsound, hcomplete⟩ := matchSegments_decides h name
  refine ⟨answer, ?_, hsound, fun hsep => hcomplete (hsep.imp_right ClassesAvoid.not_losesPlace)⟩
  rw [matchName, hanswer]
  rfl

/-- A well-formed pattern is never an error, whatever the name. -/
theorem matchName_terminates {p : Text} (h : d.WellFormed p) (name : Text) :
    ∃ answer, d.matchName p name = .ok answer := by
  obtain ⟨ts, hts⟩ := h
  obtain ⟨answer, hanswer, -⟩ := matchName_answer hts name
  exact ⟨answer, hanswer⟩

/-- A pattern whose classes leave out the separator matches what its terms match. -/
theorem matchName_iff_matches {ts : List Term} {p name : Text} (h : TermsWritten d ts p)
    (havoid : ClassesAvoid d.sep ts) :
    d.matchName p name = .ok true ↔ Matches d.sep ts name := by
  obtain ⟨answer, hanswer, hsound, hcomplete⟩ := matchName_answer h name
  rw [hanswer, Except.ok.injEq]
  exact ⟨hsound, hcomplete (.inr havoid)⟩

/-- The matcher decides the pattern language. Where a name has no separator or no class takes one,
it answers `true` exactly for the names that can be cut into pieces for the terms in order; an
answer `true` is right for every name. -/
theorem matchName_decides {ts : List Term} {p : Text} (h : TermsWritten d ts p) (name : Text) :
    (d.sep ∉ name ∨ ClassesAvoid d.sep ts →
      ∃ answer, d.matchName p name = .ok answer ∧ (answer = true ↔ Matches d.sep ts name)) ∧
    (d.matchName p name = .ok true → Matches d.sep ts name) := by
  obtain ⟨answer, hanswer, hsound, hcomplete⟩ := matchName_answer h name
  constructor
  · intro havoid
    exact ⟨answer, hanswer, hsound, hcomplete havoid⟩
  · intro htrue
    rw [hanswer, Except.ok.injEq] at htrue
    exact hsound htrue

/-- The pattern `*/[b-d]` and the name `a/c`. -/
theorem matchName_decides_range :
    TermsWritten .posix
        [.star, .single (.literal '/'), .single (.charClass false [⟨'b', 'd'⟩])]
        ['*', '/', '[', 'b', '-', 'd', ']'] ∧
      ClassesAvoid '/' [.star, .single (.literal '/'), .single (.charClass false [⟨'b', 'd'⟩])] ∧
      Dialect.posix.matchName ['*', '/', '[', 'b', '-', 'd', ']'] ['a', '/', 'c'] = .ok true := by
  have hb : MemberWritten .posix 'b' ['b'] := .plain (by decide) (by decide) (by decide)
  have hd : MemberWritten .posix 'd' ['d'] := .plain (by decide) (by decide) (by decide)
  have hranges : RangesWritten .posix [⟨'b', 'd'⟩] ['b', '-', 'd'] := .last (.span hb hd)
  have hclass : OperatorWritten .posix (.charClass false [⟨'b', 'd'⟩]) ['[', 'b', '-', 'd', ']'] :=
    .charClass hranges (by decide)
  have hsep : OperatorWritten .posix (.literal '/') ['/'] :=
    .plain (by decide) (by decide) (by decide) (by decide)
  have hwritten := TermsWritten.star (.single hsep (.single hclass .nil))
  have havoid : ClassesAvoid '/'
      [.star, .single (.literal '/'), .single (.charClass false [⟨'b', 'd'⟩])] := by
    intro negated ranges hmem
    simp only [List.mem_cons, Term.single.injEq, reduceCtorEq, Operator.charClass.injEq,
      List.not_mem_nil, or_false, false_or] at hmem
    obtain ⟨rfl, rfl⟩ := hmem
    decide
  have hcut : Matches '/' [.star, .single (.literal '/'), .single (.charClass false [⟨'b', 'd'⟩])]
      (['a'] ++ ['/', 'c']) :=
    .star (by decide) (.single (by decide) (.single (by decide) .nil))
  obtain ⟨answer, hanswer, hiff⟩ := (matchName_decides hwritten ['a', '/', 'c']).1 (.inr havoid)
  exact ⟨hwritten, havoid, by rw [hiff.2 hcut] at hanswer; exact hanswer⟩

end Dialect

end PathAlgebra
