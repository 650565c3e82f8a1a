import PathAlgebra.Proofs.PatternMatching
import PathAlgebra.Proofs.Spelling

/-!
# Patterns put together from components

A pattern whose components are written each by itself and take no separator is matched component
by component (`matchName_intercalate_iff`): the names it matches are those put together, with
separators, from names that match the components in order. A component without special characters
matches itself alone (`ComponentWritten.matchName_iff_eq`).
-/

set_option autoImplicit false

namespace PathAlgebra

variable {d : Dialect} {sep : Char}

/-! ## Terms put together -/

/-- The separator is written as itself. -/
theorem operatorWritten_sep (d : Dialect) : OperatorWritten d (.literal d.sep) [d.sep] := by
  cases d with
  | posix => exact .plain (by decide) (by decide) (by decide) (by decide)
  | windows => exact .plain (by decide) (by decide) (by decide) (by decide)

/-- The terms of several components with a literal separator between any two of them. -/
def joinTerms (sep : Char) (tss : List (List Term)) : List Term :=
  [.single (.literal sep)].intercalate tss

/-- Components that are written one by one are written together. -/
theorem termsWritten_joinTerms {tss : List (List Term)} {cs : List Text}
    (h : List.Forall₂ (TermsWritten d) tss cs) :
    TermsWritten d (joinTerms d.sep tss) ([d.sep].intercalate cs) := by
  induction h with
  | nil => exact .nil
  | @cons ts c tss cs hc hcs ih =>
      rw [joinTerms] at ih ⊢
      cases hcs with
      | nil =>
          rw [List.intercalate_singleton, List.intercalate_singleton]
          exact hc
      | cons _ _ =>
          rw [List.intercalate_cons_of_ne_nil (List.cons_ne_nil _ _),
            List.intercalate_cons_of_ne_nil (List.cons_ne_nil _ _), List.append_assoc,
            List.append_assoc]
          exact hc.append (.single (operatorWritten_sep d) ih)

/-- Joined terms match exactly the names that are put together from names for each component. -/
theorem matches_joinTerms_iff {tss : List (List Term)} {name : Text} :
    Matches sep (joinTerms sep tss) name ↔
      ∃ qs, name = [sep].intercalate qs ∧ List.Forall₂ (Matches sep) tss qs := by
  induction tss generalizing name with
  | nil =>
      constructor
      · intro h
        cases h
        exact ⟨[], rfl, .nil⟩
      · rintro ⟨qs, rfl, hqs⟩
        cases hqs
        exact .nil
  | cons ts tss ih =>
      rw [joinTerms] at ih ⊢
      cases tss with
      | nil =>
          rw [List.intercalate_singleton]
          constructor
          · intro h
            exact ⟨[name], List.intercalate_singleton.symm, .cons h .nil⟩
          · rintro ⟨qs, rfl, hqs⟩
            cases hqs with
            | cons hq hnil =>
                cases hnil
                rw [List.intercalate_singleton]
                exact hq
      | cons us tss =>
          rw [List.intercalate_cons_of_ne_nil (List.cons_ne_nil _ _), List.append_assoc,
            matches_append_iff]
          constructor
          · rintro ⟨front, back, rfl, hfront, hback⟩
            rw [List.singleton_append, matches_single_iff] at hback
            -- The character behind the first component is the separator between them.
            obtain ⟨c, rest, rfl, hc, hrest⟩ := hback
            obtain ⟨qs, rfl, hqs⟩ := ih.1 hrest
            rw [Operator.accepts, beq_iff_eq] at hc
            refine ⟨front :: qs, ?_, .cons hfront hqs⟩
            have hne : qs ≠ [] := by
              rintro rfl
              cases hqs
            rw [hc, List.intercalate_cons_of_ne_nil hne, List.append_assoc]
            rfl
          · rintro ⟨qs, rfl, hqs⟩
            cases hqs with
            | @cons _ front _ qs hfront hqs =>
                have hne : qs ≠ [] := by
                  rintro rfl
                  cases hqs
                refine ⟨front, sep :: [sep].intercalate qs, ?_, hfront, ?_⟩
                · rw [List.intercalate_cons_of_ne_nil hne, List.append_assoc]
                  rfl
                · exact .single (by simp [Operator.accepts]) (ih.2 ⟨qs, rfl, hqs⟩)

/-! ## One component -/

/-- The text of a component: terms without a separator that take none. -/
structure ComponentWritten (d : Dialect) (ts : List Term) (c : Text) : Prop where
  written : TermsWritten d ts c
  avoids : ClassesAvoid d.sep ts
  no_sep : d.sep ∉ c

/-- A literal of a pattern is one of its characters. -/
theorem TermsWritten.mem_of_literal {ts : List Term} {p : Text} {l : Char}
    (h : TermsWritten d ts p) (hl : .single (.literal l) ∈ ts) : l ∈ p := by
  induction h with
  | nil => cases hl
  | star hp ih =>
      rcases List.mem_cons.1 hl with heq | hl
      · cases heq
      · exact List.mem_cons_of_mem _ (ih hl)
  | single hop hp ih =>
      rcases List.mem_cons.1 hl with heq | hl
      · cases heq
        cases hop with
        | plain => simp
        | escaped => simp
      · exact List.mem_append_right _ (ih hl)

namespace ComponentWritten

variable {ts : List Term} {c q : Text}

/-- No operator of a component takes the separator. -/
theorem accepts_sep (h : ComponentWritten d ts c) {op : Operator} (hop : .single op ∈ ts) :
    op.accepts d.sep d.sep = false := by
  cases haccepts : op.accepts d.sep d.sep with
  | false => rfl
  | true =>
      rw [h.avoids.eq_literal hop haccepts] at hop
      exact absurd (h.written.mem_of_literal hop) h.no_sep

theorem sep_notMem_of_matches (h : ComponentWritten d ts c) (hq : Matches d.sep ts q) :
    d.sep ∉ q := by
  have hops : ∀ op, .single op ∈ ts → op.accepts d.sep d.sep = false := fun op => h.accepts_sep
  clear h
  induction hq with
  | nil => exact List.not_mem_nil
  | star hrun _ ih =>
      intro hmem
      rcases List.mem_append.1 hmem with hmem | hmem
      · exact hrun hmem
      · exact ih (fun op hop => hops op (List.mem_cons_of_mem _ hop)) hmem
  | single hc _ ih =>
      intro hmem
      rcases List.mem_cons.1 hmem with rfl | hmem
      · rw [hops _ List.mem_cons_self] at hc
        cases hc
      · exact ih (fun op hop => hops op (List.mem_cons_of_mem _ hop)) hmem

/-- A component is matched as its terms say. -/
theorem matchName_iff (h : ComponentWritten d ts c) :
    d.matchName c q = .ok true ↔ Matches d.sep ts q :=
  Dialect.matchName_iff_matches h.written h.avoids

end ComponentWritten

/-- Terms without special characters match their own text alone. -/
theorem TermsWritten.matches_iff_eq {ts : List Term} {c q : Text} (h : TermsWritten d ts c)
    (hmeta : d.hasMeta c = false) : Matches sep ts q ↔ q = c := by
  induction h generalizing q with
  | nil =>
      constructor
      · intro hq
        cases hq
        rfl
      · rintro rfl
        exact .nil
  | star hp ih => simp [Dialect.hasMeta, Dialect.isMeta] at hmeta
  | @single op ts t p hop hp ih =>
      rw [Dialect.hasMeta, List.any_append, Bool.or_eq_false_iff] at hmeta
      cases hop with
      | plain hstar hany hclass hesc =>
          rw [matches_single_iff]
          constructor
          · rintro ⟨c, rest, rfl, hc, hrest⟩
            rw [Operator.accepts, beq_iff_eq] at hc
            rw [hc, (ih hmeta.2).1 hrest]
            rfl
          · rintro rfl
            exact ⟨_, p, rfl, by simp [Operator.accepts], (ih hmeta.2).2 rfl⟩
      -- Any other operator starts with a special character.
      | any => simp [Dialect.isMeta] at hmeta
      | escaped hesc => simp [Dialect.isMeta, hesc] at hmeta
      | charClass hrs hneg => simp [Dialect.isMeta] at hmeta
      | negated hrs => simp [Dialect.isMeta] at hmeta

theorem ComponentWritten.matchName_iff_eq {ts : List Term} {c q : Text}
    (h : ComponentWritten d ts c) (hmeta : d.hasMeta c = false) :
    d.matchName c q = .ok true ↔ q = c := by
  rw [h.matchName_iff, h.written.matches_iff_eq hmeta]

/-! ## All components -/

/-- Components that can all be written, with the terms of each. -/
theorem exists_components {cs : List Text} (h : ∀ c ∈ cs, ∃ ts, ComponentWritten d ts c) :
    ∃ tss, List.Forall₂ (ComponentWritten d) tss cs := by
  induction cs with
  | nil => exact ⟨[], .nil⟩
  | cons c cs ih =>
      obtain ⟨ts, hts⟩ := h c List.mem_cons_self
      obtain ⟨tss, htss⟩ := ih fun c hc => h c (List.mem_cons_of_mem _ hc)
      exact ⟨ts :: tss, .cons hts htss⟩

/-- The classes of joined terms are those of the components. -/
theorem classesAvoid_joinTerms {tss : List (List Term)} {cs : List Text}
    (h : List.Forall₂ (ComponentWritten d) tss cs) : ClassesAvoid d.sep (joinTerms d.sep tss) := by
  have hall : ∀ ts ∈ tss, ClassesAvoid d.sep ts := by
    induction h with
    | nil => simp
    | cons hc _ ih =>
        intro ts hts
        rcases List.mem_cons.1 hts with rfl | hts
        · exact hc.avoids
        · exact ih ts hts
  intro negated ranges hmem
  rcases mem_intercalate hmem with heq | ⟨ts, hts, hmem⟩
  · cases heq
  · exact hall ts hts negated ranges hmem

/-- Names match the terms of the components exactly when they match the components. -/
theorem forall₂_matches_iff {tss : List (List Term)} {cs qs : List Text}
    (h : List.Forall₂ (ComponentWritten d) tss cs) :
    List.Forall₂ (Matches d.sep) tss qs ↔
      List.Forall₂ (fun c q => d.matchName c q = .ok true) cs qs := by
  induction h generalizing qs with
  | nil => simp
  | cons hc _ ih =>
      cases qs with
      | nil => simp
      | cons q qs => rw [List.forall₂_cons, List.forall₂_cons, hc.matchName_iff, ih]

/-- A pattern put together from components matches the names put together from their matches. -/
theorem matchName_intercalate_iff {cs : List Text} {name : Text}
    (h : ∀ c ∈ cs, ∃ ts, ComponentWritten d ts c) :
    d.matchName ([d.sep].intercalate cs) name = .ok true ↔
      ∃ qs, name = [d.sep].intercalate qs ∧
        List.Forall₂ (fun c q => d.matchName c q = .ok true) cs qs := by
  -- The terms of the whole pattern are those of its components with literal separators.
  obtain ⟨tss, htss⟩ := exists_components h
  have hwritten := termsWritten_joinTerms (htss.imp fun _ _ hc => hc.written)
  rw [Dialect.matchName_iff_matches hwritten (classesAvoid_joinTerms htss), matches_joinTerms_iff]
  exact exists_congr fun qs => and_congr_right fun _ => forall₂_matches_iff htss

/-- The names that match components hold no separator. -/
theorem sep_notMem_of_forall₂ {cs qs : List Text} (h : ∀ c ∈ cs, ∃ ts, ComponentWritten d ts c)
    (hqs : List.Forall₂ (fun c q => d.matchName c q = .ok true) cs qs) :
    ∀ q ∈ qs, d.sep ∉ q := by
  induction hqs with
  | nil => simp
  | cons hq _ ih =>
      intro q hmem
      rcases List.mem_cons.1 hmem with rfl | hmem
      · obtain ⟨ts, hts⟩ := h _ List.mem_cons_self
        exact hts.sep_notMem_of_matches (hts.matchName_iff.1 hq)
      · exact ih (fun c hc => h c (List.mem_cons_of_mem _ hc)) q hmem

/-- Components without special characters in front of others stand for themselves. -/
theorem forall₂_plain_append_iff {cs es rs : List Text}
    (hcs : ∀ c ∈ cs, ∃ ts, ComponentWritten d ts c) (hplain : cs.any d.hasMeta = false) :
    List.Forall₂ (fun c q => d.matchName c q = .ok true) (cs ++ es) rs ↔
      ∃ qs, rs = cs ++ qs ∧ List.Forall₂ (fun c q => d.matchName c q = .ok true) es qs := by
  induction cs generalizing rs with
  | nil => simp
  | cons c cs ih =>
      rw [List.any_cons, Bool.or_eq_false_iff] at hplain
      obtain ⟨ts, hts⟩ := hcs c List.mem_cons_self
      have ih' := @ih rs.tail (fun c hc => hcs c (List.mem_cons_of_mem _ hc)) hplain.2
      rw [List.cons_append, List.forall₂_cons_left_iff]
      constructor
      · rintro ⟨q, rest, hq, hrest, rfl⟩
        obtain ⟨qs, hqs, hes⟩ := ih'.1 hrest
        refine ⟨qs, ?_, hes⟩
        rw [(hts.matchName_iff_eq hplain.1).1 hq, List.cons_append, ← hqs]
        rfl
      · rintro ⟨qs, rfl, hes⟩
        exact ⟨c, cs ++ qs, (hts.matchName_iff_eq hplain.1).2 rfl, ih'.2 ⟨qs, rfl, hes⟩, rfl⟩

/-- Components without special characters match themselves alone. -/
theorem forall₂_plain_iff {cs rs : List Text} (hcs : ∀ c ∈ cs, ∃ ts, ComponentWritten d ts c)
    (hplain : cs.any d.hasMeta = false) :
    List.Forall₂ (fun c q => d.matchName c q = .ok true) cs rs ↔ rs = cs := by
  have happend := @forall₂_plain_append_iff d cs [] rs hcs hplain
  rw [List.append_nil] at happend
  rw [happend]
  constructor
  · rintro ⟨qs, rfl, hnil⟩
    cases hnil
    exact List.append_nil cs
  · rintro rfl
    exact ⟨[], by simp, .nil⟩

end PathAlgebra
