import PathAlgebra.Pattern.Language
import PathAlgebra.Pattern.Segment

/-!
# Reading written patterns

The readers give back what the grammar writes. A member, a range, the ranges of a class and an
operator are read off the front of a text that goes on behind them (`MemberWritten.readMember`,
`RangeWritten.readRange`, `RangesWritten.readRanges`, `OperatorWritten.readOperator`), so a chunk
that holds operators only is read as these operators (`readOperators_of_singles`).

The cut of a pattern into segments runs over a written operator as a whole, a class with a star or
an opening bracket in it included (`OperatorWritten.passes`). So the first segment of a pattern
holds its first stars and the operators up to the next star (`TermsWritten.scanChunk`). No text
is written by two lists of terms (`TermsWritten.unique`).
-/

set_option autoImplicit false

namespace PathAlgebra

variable {d : Dialect}

/-! ## Members and ranges -/

/-- A member starts with neither a dash nor a closing bracket. -/
theorem MemberWritten.eq_cons {c : Char} {t : Text} (h : MemberWritten d c t) :
    ∃ x u, t = x :: u ∧ x ≠ '-' ∧ x ≠ ']' := by
  cases h with
  | plain hdash hclose hesc => exact ⟨c, [], rfl, hdash, hclose⟩
  | escaped hesc => exact ⟨'\\', [c], rfl, by decide, by decide⟩

theorem RangeWritten.eq_cons {r : CharRange} {t : Text} (h : RangeWritten d r t) :
    ∃ x u, t = x :: u ∧ x ≠ '-' ∧ x ≠ ']' := by
  cases h with
  | one hmember => exact hmember.eq_cons
  | span hlo hhi =>
      obtain ⟨x, u, rfl, hx⟩ := hlo.eq_cons
      exact ⟨x, _, rfl, hx⟩

theorem RangesWritten.eq_cons {rs : List CharRange} {t : Text} (h : RangesWritten d rs t) :
    ∃ x u, t = x :: u ∧ x ≠ '-' ∧ x ≠ ']' := by
  cases h with
  | last hr => exact hr.eq_cons
  | more hr hrs =>
      obtain ⟨x, u, rfl, hx⟩ := hr.eq_cons
      exact ⟨x, _, rfl, hx⟩

/-- A member is read off a text that goes on behind it. -/
theorem MemberWritten.readMember {c : Char} {t : Text} (h : MemberWritten d c t) (n : Char)
    (rest : Text) : d.readMember (t ++ n :: rest) = some (c, n :: rest) := by
  cases h with
  | plain hdash hclose hesc =>
      have hplain : (d.escapes && c == '\\') = false := by
        cases hd : d.escapes with
        | false => rfl
        | true => simpa using hesc hd
      simp [Dialect.readMember, hdash, hclose, hplain]
  | escaped hesc => simp [Dialect.readMember, hesc]

/-- A range is read off a text that does not go on with a dash. -/
theorem RangeWritten.readRange {r : CharRange} {t : Text} (h : RangeWritten d r t) {n : Char}
    (hn : n ≠ '-') (rest : Text) : d.readRange (t ++ n :: rest) = some (r, n :: rest) := by
  cases h with
  | one hmember =>
      -- No dash follows, so the member is a range of its own.
      rw [Dialect.readRange, hmember.readMember]
      split
      · simp_all
      · simp_all
      · simp_all
  | span hlo hhi =>
      rw [Dialect.readRange, List.append_assoc, List.cons_append, hlo.readMember]
      simp [hhi.readMember]

namespace Dialect

/-- A range before a closing bracket is the last one. -/
theorem readRanges_last {r : CharRange} {t rest : Text}
    (h : d.readRange t = some (r, ']' :: rest)) : d.readRanges t = some ([r], rest) := by
  rw [readRanges]
  split
  · simp_all
  · simp_all
  · simp_all

/-- A range before another character is followed by more. -/
theorem readRanges_more {r : CharRange} {t rest : Text} {n : Char}
    (h : d.readRange t = some (r, n :: rest)) (hn : n ≠ ']') :
    d.readRanges t = (d.readRanges (n :: rest)).map fun (rs, rest) => (r :: rs, rest) := by
  rw [readRanges]
  split
  · simp_all
  · next heq =>
    rw [h] at heq
    simp only [Option.some.injEq, Prod.mk.injEq, List.cons.injEq] at heq
    exact absurd heq.2.1 hn
  · simp_all

/-- A text is read as its first operator and the operators behind it. -/
theorem readOperators_cons {op : Operator} {t rest : Text}
    (h : d.readOperator t = some (op, rest)) :
    d.readOperators t = (d.readOperators rest).map (op :: ·) := by
  cases t with
  | nil => simp [readOperator] at h
  | cons c t =>
      rw [readOperators]
      split
      · simp_all
      · simp_all

end Dialect

/-- The ranges of a class are read up to its closing bracket. -/
theorem RangesWritten.readRanges {rs : List CharRange} {t : Text} (h : RangesWritten d rs t)
    (rest : Text) : d.readRanges (t ++ ']' :: rest) = some (rs, rest) := by
  induction h with
  | last hr => exact Dialect.readRanges_last (hr.readRange (by decide) rest)
  | @more r rs t u hr hrs ih =>
      -- The first character of the next range shows that the bracket does not close yet.
      obtain ⟨x, v, rfl, hdash, hclose⟩ := hrs.eq_cons
      have hread := hr.readRange hdash (v ++ ']' :: rest)
      rw [List.append_assoc, List.cons_append, Dialect.readRanges_more hread hclose]
      rw [List.cons_append] at ih
      rw [ih]
      rfl

/-- An operator is read off the front of any text. -/
theorem OperatorWritten.readOperator {op : Operator} {t : Text} (h : OperatorWritten d op t)
    (rest : Text) : d.readOperator (t ++ rest) = some (op, rest) := by
  cases h with
  | any => rfl
  | @plain c hstar hany hclass hesc =>
      have hplain : (d.escapes && c == '\\') = false := by
        cases hd : d.escapes with
        | false => rfl
        | true => simpa using hesc hd
      simp_all [Dialect.readOperator]
  | escaped hesc => simp [Dialect.readOperator, hesc]
  | @charClass rs t hrs hneg =>
      -- Without `^` in front, the class reader goes to the ranges directly.
      obtain ⟨x, u, rfl, -⟩ := hrs.eq_cons
      have hx : x ≠ '^' := by simpa using hneg
      have hread := hrs.readRanges rest
      simp_all [Dialect.readOperator, Dialect.readClass]
  | negated hrs =>
      have hread := hrs.readRanges rest
      simp [Dialect.readOperator, Dialect.readClass, hread]

theorem OperatorWritten.ne_nil {op : Operator} {t : Text} (h : OperatorWritten d op t) :
    t ≠ [] := by
  cases h <;> simp

/-- A text of operators only is read as these operators. -/
theorem readOperators_of_singles {ops : List Operator} {t : Text}
    (h : TermsWritten d (ops.map .single) t) : d.readOperators t = some ops := by
  induction ops generalizing t with
  | nil =>
      cases h
      rw [Dialect.readOperators]
  | cons op ops ih =>
      cases h with
      | single hop hrest =>
          rw [Dialect.readOperators_cons (hop.readOperator _), ih hrest]
          rfl

/-! ## Running over operators -/

namespace Dialect

/-- A text that the cut runs over, with the bracket flag in front of it and behind it. -/
def Passes (d : Dialect) (before : Bool) (t : Text) (after : Bool) : Prop :=
  ∀ rest, d.spanChunk before (t ++ rest) =
    (t ++ (d.spanChunk after rest).1, (d.spanChunk after rest).2)

theorem passes_nil (inClass : Bool) : d.Passes inClass [] inClass :=
  fun _ => rfl

theorem Passes.append {before between after : Bool} {t u : Text} (ht : d.Passes before t between)
    (hu : d.Passes between u after) : d.Passes before (t ++ u) after := by
  intro rest
  rw [List.append_assoc, ht, hu, List.append_assoc]

/-- An escaped character leaves the bracket flag alone. -/
theorem passes_escaped (hd : d.escapes = true) (inClass : Bool) (c : Char) :
    d.Passes inClass ['\\', c] inClass := by
  intro rest
  simp [spanChunk, hd]

/-- A bracket sets or clears the flag; a star is run over inside brackets only. -/
theorem passes_plain (inClass : Bool) {c : Char} (hesc : d.escapes = true → c ≠ '\\')
    (hstar : c = '*' → inClass = true) :
    d.Passes inClass [c] (if c = '[' then true else if c = ']' then false else inClass) := by
  intro rest
  -- A backslash that does not escape is passed like any other character.
  by_cases hc : c = '\\'
  · subst hc
    have hd : d.escapes = false := by simpa using hesc
    simp [spanChunk, hd]
  · have hrun : ¬(c = '*' ∧ inClass = false) := by
      rintro ⟨hc, hflag⟩
      rw [hstar hc] at hflag
      cases hflag
    rw [List.singleton_append, spanChunk.eq_def]
    simp [hc, hrun]

/-- A character that is neither the escape nor a star is run over anywhere. -/
theorem passes_char (inClass : Bool) {c : Char} (h : c ≠ '\\' ∧ c ≠ '*') :
    d.Passes inClass [c] (if c = '[' then true else if c = ']' then false else inClass) :=
  passes_plain inClass (fun _ => h.1) fun hc => absurd hc h.2

/-- The cut stops at the end and at a star outside brackets. -/
theorem spanChunk_stop {rest : Text} (h : rest = [] ∨ ∃ u, rest = '*' :: u) :
    d.spanChunk false rest = ([], rest) := by
  rcases h with rfl | ⟨u, rfl⟩
  · rfl
  · rw [spanChunk.eq_def]
    simp

end Dialect

theorem MemberWritten.passes {c : Char} {t : Text} (h : MemberWritten d c t) :
    d.Passes true t true := by
  cases h with
  | plain hdash hclose hesc =>
      have hpass := Dialect.passes_plain true hesc (fun _ => rfl)
      simpa [hclose] using hpass
  | escaped hesc => exact Dialect.passes_escaped hesc true c

/-- The dash of a range is run over. -/
theorem RangeWritten.passes {r : CharRange} {t : Text} (h : RangeWritten d r t) :
    d.Passes true t true := by
  cases h with
  | one hmember => exact hmember.passes
  | span hlo hhi =>
      have hdash : d.Passes true ['-'] true :=
        Dialect.passes_char _ (by decide)
      exact hlo.passes.append (hdash.append hhi.passes)

theorem RangesWritten.passes {rs : List CharRange} {t : Text} (h : RangesWritten d rs t) :
    d.Passes true t true := by
  induction h with
  | last hr => exact hr.passes
  | more hr hrs ih => exact hr.passes.append ih

/-- The cut runs over a written operator and is outside brackets again behind it. -/
theorem OperatorWritten.passes {op : Operator} {t : Text} (h : OperatorWritten d op t) :
    d.Passes false t false := by
  -- The brackets of a class set and clear the flag, and every member stands between them.
  have hopen : d.Passes false ['['] true := Dialect.passes_char _ (by decide)
  have hclose : d.Passes true [']'] false := Dialect.passes_char _ (by decide)
  cases h with
  | any => exact Dialect.passes_char _ (by decide)
  | @plain c hstar hany hclass hesc =>
      have hpass := Dialect.passes_plain false hesc (fun hc => absurd hc hstar)
      simpa [hclass] using hpass
  | escaped hesc => exact Dialect.passes_escaped hesc false _
  | charClass hrs hneg => exact (hopen.append hrs.passes).append hclose
  | negated hrs =>
      have hneg : d.Passes true ['^'] true := Dialect.passes_char _ (by decide)
      exact (hopen.append (hneg.append hrs.passes)).append hclose

/-- The cut runs over a text of operators only. -/
theorem passes_of_singles {ops : List Operator} {t : Text}
    (h : TermsWritten d (ops.map .single) t) : d.Passes false t false := by
  induction ops generalizing t with
  | nil =>
      cases h
      exact Dialect.passes_nil false
  | cons op ops ih =>
      cases h with
      | single hop hrest => exact hop.passes.append (ih hrest)

/-! ## The first segment -/

/-- What the first segment of a written pattern is: the first stars and the operators up to the
next star, with the terms from there on written in the rest. -/
structure FirstSegment (d : Dialect) (ts : List Term) (segment : Segment) (rest : Text)
    (stars : Nat) (ops : List Operator) (more : List Term) : Prop where
  terms_eq : ts = List.replicate stars .star ++ (ops.map .single ++ more)
  starred_iff : segment.starred = true ↔ 0 < stars
  chunk : TermsWritten d (ops.map .single) segment.chunk
  rest : TermsWritten d more rest
  more_starts : more = [] ∨ ∃ us, more = .star :: us
  more_eq_nil : ops = [] → more = []

/-- An operator does not start with a star. -/
theorem OperatorWritten.eq_cons {op : Operator} {t : Text} (h : OperatorWritten d op t) :
    ∃ x u, t = x :: u ∧ isStar x = false := by
  cases h with
  | any => exact ⟨_, _, rfl, rfl⟩
  | plain hstar hany hclass hesc => exact ⟨_, _, rfl, by simpa [isStar] using hstar⟩
  | escaped hesc => exact ⟨_, _, rfl, rfl⟩
  | charClass hrs hneg => exact ⟨_, _, rfl, rfl⟩
  | negated hrs => exact ⟨_, _, rfl, rfl⟩

/-- No term is written by the empty text. -/
theorem TermsWritten.eq_nil_iff {ts : List Term} {p : Text} (h : TermsWritten d ts p) :
    ts = [] ↔ p = [] := by
  cases h with
  | nil => simp
  | star hp => simp
  | single hop hp => simp [hop.ne_nil]

/-- Written terms can follow each other. -/
theorem TermsWritten.append {ts us : List Term} {p q : Text} (hp : TermsWritten d ts p)
    (hq : TermsWritten d us q) : TermsWritten d (ts ++ us) (p ++ q) := by
  induction hp with
  | nil => exact hq
  | star _ ih => exact .star ih
  | single hop _ ih =>
      rw [List.append_assoc]
      exact .single hop ih

/-- The grammar is unambiguous: a text is written by one list of terms at most. -/
theorem TermsWritten.unique {ts us : List Term} {p : Text} (h : TermsWritten d ts p)
    (h' : TermsWritten d us p) : ts = us := by
  induction h generalizing us with
  | nil => exact (h'.eq_nil_iff.2 rfl).symm
  | @star ts p hp ih =>
      generalize htext : '*' :: p = text at h'
      cases h' with
      | nil => cases htext
      | star hp' =>
          obtain ⟨-, rfl⟩ := List.cons.inj htext
          rw [ih hp']
      | single hop hp' =>
          obtain ⟨x, u, rfl, hx⟩ := hop.eq_cons
          rw [List.cons_append, List.cons.injEq] at htext
          rw [← htext.1] at hx
          cases hx
  | @single op ts t p hop hp ih =>
      generalize htext : t ++ p = text at h'
      cases h' with
      | nil => exact absurd (List.append_eq_nil_iff.1 htext).1 hop.ne_nil
      | star hp' =>
          obtain ⟨x, u, rfl, hx⟩ := hop.eq_cons
          rw [List.cons_append, List.cons.injEq] at htext
          rw [htext.1] at hx
          cases hx
      | single hop' hp' =>
          -- One operator is read off the common text, with one rest.
          have hread := hop.readOperator p
          rw [htext, hop'.readOperator, Option.some.injEq, Prod.mk.injEq] at hread
          obtain ⟨rfl, rfl⟩ := hread
          rw [ih hp']

/-- The stars in front of a pattern are dropped as characters and as terms. -/
theorem TermsWritten.dropStars {ts : List Term} {p : Text} (h : TermsWritten d ts p) :
    ∃ stars us, ts = List.replicate stars .star ++ us ∧
      TermsWritten d us (p.dropWhile isStar) ∧ (∀ vs, us ≠ .star :: vs) ∧
      (p.head?.any isStar = true ↔ 0 < stars) := by
  induction h with
  | nil => exact ⟨0, [], rfl, .nil, by simp, by simp⟩
  | @star ts p hp ih =>
      obtain ⟨stars, us, rfl, hus, hhead, -⟩ := ih
      refine ⟨stars + 1, us, by rw [List.replicate_succ, List.cons_append], ?_, hhead, ?_⟩
      · rw [List.dropWhile_cons_of_pos rfl]
        exact hus
      · simp [isStar]
  | @single op ts t p hop hp ih =>
      obtain ⟨x, u, rfl, hx⟩ := hop.eq_cons
      -- The text of an operator ends the run of stars.
      refine ⟨0, .single op :: ts, rfl, ?_, by simp, by simp [hx]⟩
      rw [List.cons_append, List.dropWhile_cons_of_neg (by simp [hx])]
      exact .single hop hp

/-- The operators in front of a pattern end at its first star. -/
theorem TermsWritten.takeSingles {ts : List Term} {p : Text} (h : TermsWritten d ts p) :
    ∃ (ops : List Operator) (more : List Term) (t rest : Text),
      ts = ops.map .single ++ more ∧ p = t ++ rest ∧
      TermsWritten d (ops.map .single) t ∧ TermsWritten d more rest ∧
      ((more = [] ∧ rest = []) ∨ (∃ us u, more = .star :: us ∧ rest = '*' :: u)) := by
  induction h with
  | nil => exact ⟨[], [], [], [], rfl, rfl, .nil, .nil, .inl ⟨rfl, rfl⟩⟩
  | @star ts p hp ih =>
      exact ⟨[], .star :: ts, [], '*' :: p, rfl, rfl, .nil, .star hp, .inr ⟨ts, p, rfl, rfl⟩⟩
  | @single op ts t p hop hp ih =>
      obtain ⟨ops, more, u, rest, rfl, rfl, hops, hmore, hstarts⟩ := ih
      refine ⟨op :: ops, more, t ++ u, rest, rfl, ?_, .single hop hops, hmore, hstarts⟩
      rw [List.append_assoc]

/-- Scanning a written pattern cuts its terms in front of the next star. -/
theorem TermsWritten.scanChunk {ts : List Term} {p : Text} (h : TermsWritten d ts p) :
    ∃ stars ops more,
      FirstSegment d ts (d.scanChunk p).1 (d.scanChunk p).2 stars ops more := by
  obtain ⟨stars, us, hts, hus, hhead, hstars⟩ := h.dropStars
  obtain ⟨ops, more, t, rest, rfl, hp, hops, hmore, hstarts⟩ := hus.takeSingles
  -- The cut runs over the operators and stops behind them.
  have hstop : d.spanChunk false rest = ([], rest) := by
    apply Dialect.spanChunk_stop
    rcases hstarts with ⟨-, rfl⟩ | ⟨-, u, -, rfl⟩
    · exact .inl rfl
    · exact .inr ⟨u, rfl⟩
  have hspan : d.spanChunk false (p.dropWhile isStar) = (t, rest) := by
    rw [hp, passes_of_singles hops, hstop, List.append_nil]
  refine ⟨stars, ops, more, hts, ?_, ?_, ?_, ?_, ?_⟩
  · exact hstars
  · rw [Dialect.scanChunk, hspan]
    exact hops
  · rw [Dialect.scanChunk, hspan]
    exact hmore
  · rcases hstarts with ⟨rfl, -⟩ | ⟨us, -, rfl, -⟩
    · exact .inl rfl
    · exact .inr ⟨us, rfl⟩
  · -- A star behind no operator would have been one of the first stars.
    rintro rfl
    rcases hstarts with ⟨rfl, -⟩ | ⟨us, -, rfl, -⟩
    · rfl
    · exact absurd rfl (hhead us)

end PathAlgebra
