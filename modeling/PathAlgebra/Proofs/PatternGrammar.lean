import PathAlgebra.Proofs.PatternReading

/-!
# Patterns that can be read are written

The readers take nothing that the grammar does not write: what a member, a range, the ranges of a
class or an operator is read from is a text of it (`memberWritten_of_read`,
`rangeWritten_of_read`, `rangesWritten_of_read`, `operatorWritten_of_read`). A chunk has no star
outside brackets, so a chunk that is read as operators is written by them
(`termsWritten_of_read`). Together with the reading of written patterns this says that a pattern is
well formed exactly when every one of its chunks can be read (`wellFormed_iff_readable`).
-/

set_option autoImplicit false

namespace PathAlgebra

variable {d : Dialect}

namespace Dialect

/-! ## Members, ranges and operators -/

/-- A member is read from its text. -/
theorem memberWritten_of_read {c : Char} {t rest : Text} (h : d.readMember t = some (c, rest)) :
    ∃ u, MemberWritten d c u ∧ t = u ++ rest := by
  cases t with
  | nil => cases h
  | cons x t =>
      rw [readMember] at h
      split at h
      · cases h
      · next hx =>
        obtain ⟨hdash, hclose⟩ := not_or.1 hx
        split at h
        · next m n more heq =>
          cases h
          -- Behind an escape the next character is the member, whatever it is.
          split at heq
          · next hesc =>
            rw [Bool.and_eq_true, beq_iff_eq] at hesc
            obtain ⟨hd, rfl⟩ := hesc
            exact ⟨['\\', c], .escaped hd, by rw [heq]; rfl⟩
          · next hesc =>
            obtain ⟨rfl, rfl⟩ := List.cons.inj heq
            refine ⟨[x], .plain hdash hclose ?_, rfl⟩
            rintro hd rfl
            exact hesc (by rw [hd]; rfl)
        · cases h

/-- A range is read from its text. -/
theorem rangeWritten_of_read {r : CharRange} {t rest : Text}
    (h : d.readRange t = some (r, rest)) : ∃ u, RangeWritten d r u ∧ t = u ++ rest := by
  rw [readRange] at h
  split at h
  · next lo t' hlo =>
    obtain ⟨⟨hi, more⟩, hhi, heq⟩ := Option.map_eq_some_iff.1 h
    cases heq
    obtain ⟨u, hu, rfl⟩ := memberWritten_of_read hlo
    obtain ⟨v, hv, rfl⟩ := memberWritten_of_read hhi
    refine ⟨u ++ '-' :: v, .span hu hv, ?_⟩
    rw [List.append_assoc, List.cons_append]
  · next lo t' hdash hlo =>
    cases h
    obtain ⟨u, hu, rfl⟩ := memberWritten_of_read hlo
    exact ⟨u, .one hu, rfl⟩
  · cases h

/-- The ranges of a class are read from their text and the closing bracket. -/
theorem rangesWritten_of_read {rs : List CharRange} {t rest : Text}
    (h : d.readRanges t = some (rs, rest)) : ∃ u, RangesWritten d rs u ∧ t = u ++ ']' :: rest := by
  fun_induction readRanges d t generalizing rs with
  | case1 t _ => cases h
  | case2 t r rest' hr =>
      cases h
      obtain ⟨u, hu, rfl⟩ := rangeWritten_of_read hr
      exact ⟨u, .last hu, rfl⟩
  | case3 t r t' _ hr ih =>
      obtain ⟨⟨rs', more⟩, hrs, heq⟩ := Option.map_eq_some_iff.1 h
      cases heq
      obtain ⟨u, hu, rfl⟩ := rangeWritten_of_read hr
      obtain ⟨v, hv, rfl⟩ := ih hrs
      exact ⟨u ++ v, .more hu hv, by rw [List.append_assoc]⟩

/-- A class is read from its text behind the opening bracket. -/
theorem classWritten_of_read {op : Operator} {t rest : Text}
    (h : d.readClass t = some (op, rest)) :
    ∃ u, OperatorWritten d op ('[' :: u) ∧ t = u ++ rest := by
  unfold readClass at h
  split at h
  · obtain ⟨⟨rs, more⟩, hrs, heq⟩ := Option.map_eq_some_iff.1 h
    cases heq
    obtain ⟨u, hu, rfl⟩ := rangesWritten_of_read hrs
    exact ⟨'^' :: u ++ [']'], .negated hu, by simp⟩
  · next hneg =>
    obtain ⟨⟨rs, more⟩, hrs, heq⟩ := Option.map_eq_some_iff.1 h
    cases heq
    obtain ⟨u, hu, rfl⟩ := rangesWritten_of_read hrs
    refine ⟨u ++ [']'], .charClass hu ?_, by simp⟩
    -- A `^` in front would have been read as the negation.
    intro hhead
    obtain ⟨v, rfl⟩ := List.head?_eq_some_iff.1 hhead
    exact hneg _ (by rw [List.cons_append])

/-- An operator is read from its text, but for a star, which no operator is written as. -/
theorem operatorWritten_of_read {op : Operator} {t rest : Text}
    (h : d.readOperator t = some (op, rest)) (hstar : t.head? ≠ some '*') :
    ∃ u, OperatorWritten d op u ∧ t = u ++ rest := by
  unfold readOperator at h
  split at h
  · cases h
  · obtain ⟨u, hu, rfl⟩ := classWritten_of_read h
    exact ⟨'[' :: u, hu, rfl⟩
  · cases h
    exact ⟨['?'], .any, rfl⟩
  · next c t hclass hany =>
    have hc : c ≠ '*' := by
      rintro rfl
      exact hstar rfl
    split at h
    · next hesc =>
      rw [Bool.and_eq_true, beq_iff_eq] at hesc
      obtain ⟨hd, rfl⟩ := hesc
      split at h
      · cases h
      · next e t =>
        cases h
        exact ⟨['\\', e], .escaped hd, rfl⟩
    · next hesc =>
      cases h
      refine ⟨[c], .plain hc hany hclass ?_, rfl⟩
      rintro hd rfl
      exact hesc (by rw [hd]; rfl)

/-! ## Chunks -/

/-- The cut runs over a chunk to its end. -/
theorem spanChunk_chunk (d : Dialect) (inClass : Bool) (t : Text) :
    d.spanChunk inClass (d.spanChunk inClass t).1 = ((d.spanChunk inClass t).1, []) := by
  fun_induction spanChunk d inClass t with
  | case1 => rfl
  | case2 inClass e t hesc chunk rest hspan ih =>
      rw [hspan] at ih
      simp [spanChunk, hesc, ih]
  | case3 inClass t chunk rest hspan hplain ih =>
      rw [hspan] at ih
      cases hesc : d.escapes with
      | false => simp [spanChunk, hesc, ih]
      | true =>
          -- Where a backslash escapes, it stands alone only at the end.
          cases t with
          | nil =>
              cases hspan
              simp [spanChunk]
          | cons e u => exact absurd rfl (hplain e u hesc)
  | case4 => rfl
  | case5 inClass c t hc hstop next chunk rest hspan ih =>
      rw [hspan] at ih
      rw [spanChunk.eq_def]
      simp only [hc, if_false, hstop]
      rw [ih]

/-- A text that is read as operators, and that the cut runs over, is written by them. -/
theorem termsWritten_of_read {ops : List Operator} {t : Text} (h : d.readOperators t = some ops)
    (hcut : d.spanChunk false t = (t, [])) : TermsWritten d (ops.map .single) t := by
  fun_induction readOperators d t generalizing ops with
  | case1 =>
      cases h
      exact .nil
  | case2 c cs _ => cases h
  | case3 c cs op rest hread ih =>
      obtain ⟨more, hmore, rfl⟩ := Option.map_eq_some_iff.1 h
      have hstar : (c :: cs).head? ≠ some '*' := by
        intro hhead
        cases hhead
        rw [spanChunk_stop (.inr ⟨cs, rfl⟩)] at hcut
        cases hcut
      obtain ⟨u, hu, htext⟩ := operatorWritten_of_read hread hstar
      rw [htext] at hcut ⊢
      -- The cut runs over the operator, so it runs over the rest as well.
      rw [hu.passes, Prod.mk.injEq, List.append_right_inj] at hcut
      exact .single hu (ih hmore (Prod.ext hcut.1 hcut.2))

end Dialect

/-! ## Whole patterns -/

/-- Written terms stay well formed with stars in front. -/
theorem TermsWritten.wellFormed_of_dropStars {ts : List Term} {p : Text}
    (h : TermsWritten d ts (p.dropWhile isStar)) : d.WellFormed p := by
  induction p with
  | nil => exact ⟨ts, h⟩
  | cons c p ih =>
      by_cases hc : isStar c = true
      · rw [List.dropWhile_cons_of_pos hc] at h
        obtain ⟨us, hus⟩ := ih h
        have hstar : c = '*' := by simpa [isStar] using hc
        rw [hstar]
        exact ⟨.star :: us, .star hus⟩
      · rw [List.dropWhile_cons_of_neg hc] at h
        exact ⟨ts, h⟩

/-- A segment whose chunk is not written by operators. -/
def Segment.Unreadable (d : Dialect) (s : Segment) : Prop := d.readOperators s.chunk = none

instance (d : Dialect) (s : Segment) : Decidable (s.Unreadable d) :=
  inferInstanceAs (Decidable (_ = none))

theorem Segment.exists_operators {s : Segment} (h : ¬ s.Unreadable d) :
    ∃ ops, d.readOperators s.chunk = some ops :=
  Option.ne_none_iff_exists'.1 h

/-- A pattern is well formed exactly when each of its chunks can be read. -/
theorem wellFormed_iff_readable {p : Text} :
    d.WellFormed p ↔ ∀ s ∈ d.segments p, ¬ s.Unreadable d := by
  constructor
  · rintro ⟨ts, hts⟩
    induction p using Dialect.segments.induct d generalizing ts with
    | case1 => simp [Dialect.segments]
    | case2 c t ih =>
        obtain ⟨stars, ops, more, hfirst⟩ := hts.scanChunk
        intro s hs
        rw [Dialect.segments] at hs
        rcases List.mem_cons.1 hs with rfl | hs
        · rw [Segment.Unreadable, readOperators_of_singles hfirst.chunk]
          exact Option.some_ne_none ops
        · exact ih more hfirst.rest s hs
  · intro h
    induction p using Dialect.segments.induct d with
    | case1 => exact ⟨[], .nil⟩
    | case2 c t ih =>
        rw [Dialect.segments] at h
        obtain ⟨ops, hops⟩ := Segment.exists_operators (h _ List.mem_cons_self)
        obtain ⟨more, hmore⟩ := ih fun s hs => h s (List.mem_cons_of_mem _ hs)
        -- Behind the first stars stand the chunk and the rest.
        have hchunk := Dialect.termsWritten_of_read hops (d.spanChunk_chunk false _)
        have hboth := hchunk.append hmore
        rw [Dialect.scanChunk, Dialect.spanChunk_append] at hboth
        exact hboth.wellFormed_of_dropStars

end PathAlgebra
