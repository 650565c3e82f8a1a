import Mathlib.Data.List.TakeWhile
import PathAlgebra.Pattern.Chunk
import PathAlgebra.Proofs.PatternGrammar

/-!
# Scanning and matching agree on chunks

A pattern is read twice. The scan cuts it into segments and tracks brackets by one flag; the pass
over a chunk reads classes, ranges and escapes. Here the two are put together.

The scan gives the pattern back: one scan takes a run of stars as long as it can be and a chunk up to
a star or to the end (`scanned`), so the segments write the pattern (`segmentsWritten`). The pass
over a chunk is an error for every name or for none (`matchChunk_error_or_ok`), and it is an error
for no chunk of a pattern exactly when the grammar writes the pattern (`wellFormed_iff_matchChunk`).
A chunk that is no error is written by operators, and takes one character for each
(`exists_operators_of_matchChunk`). `scan_and_match_agree` says all this of a pattern.
-/

set_option autoImplicit false

namespace PathAlgebra

/-! ## What operators stand for -/

/-- The characters that an operator is written for, the rule about the separator apart. -/
def Operator.StandsFor : Operator → Char → Prop
  | any, _ => True
  | literal l, c => c = l
  | charClass negated ranges, c => (∃ r ∈ ranges, r.first ≤ c ∧ c ≤ r.last) ↔ negated = false

/-- An operator accepts what it stands for. Only `?` leaves out the separator. -/
theorem Operator.accepts_iff {sep : Char} {op : Operator} {c : Char} :
    op.accepts sep c = true ↔ op.StandsFor c ∧ (op = .any → c ≠ sep) := by
  cases op with
  | any => simp [accepts, StandsFor]
  | literal l => simp [accepts, StandsFor]
  | charClass negated ranges =>
      have hheld : (ranges.any fun r => r.holds c) = true ↔
          ∃ r ∈ ranges, r.first ≤ c ∧ c ≤ r.last := by
        simp [CharRange.holds]
      rw [accepts, StandsFor, ← hheld]
      cases ranges.any fun r => r.holds c <;> cases negated <;> simp

/-- The start of a name holds a character for each operator. -/
structure TakenBy (sep : Char) (ops : List Operator) (s : Text) : Prop where
  long_enough : ops.length ≤ s.length
  each : ∀ x ∈ ops.zip s, x.1.StandsFor x.2 ∧ (x.1 = .any → x.2 ≠ sep)

theorem takenBy_iff {sep : Char} {ops : List Operator} {s : Text} :
    TakenBy sep ops s ↔
      ops.length ≤ s.length ∧ (ops.zip s).all (fun x => x.1.accepts sep x.2) = true := by
  have heach : (ops.zip s).all (fun x => x.1.accepts sep x.2) = true ↔
      ∀ x ∈ ops.zip s, x.1.StandsFor x.2 ∧ (x.1 = .any → x.2 ≠ sep) := by
    rw [List.all_eq_true]
    exact forall₂_congr fun x _ => Operator.accepts_iff
  rw [heach]
  exact ⟨fun h => ⟨h.long_enough, h.each⟩, fun h => ⟨h.1, h.2⟩⟩

/-! ## Scanning -/

/-- What one scan of a pattern gives: a run of stars as long as it can be, a chunk that is scanned
again as one chunk, and a rest that starts with the next run of stars. -/
structure Scanned (d : Dialect) (p : Text) (stars : Nat) (segment : Segment) (rest : Text) :
    Prop where
  text_eq : p = List.replicate stars '*' ++ (segment.chunk ++ rest)
  starred_iff : segment.starred = true ↔ 0 < stars
  stars_all : (segment.chunk ++ rest).head? ≠ some '*'
  chunk_whole : d.scanChunk segment.chunk = (⟨false, segment.chunk⟩, [])
  rest_starts : rest = [] ∨ rest.head? = some '*'

/-- The segments of repeated scans of a pattern. -/
inductive SegmentsWritten (d : Dialect) : List Segment → Text → Prop where
  | nil : SegmentsWritten d [] []
  | cons {p rest : Text} {stars : Nat} {segment : Segment} {segments : List Segment} :
      p ≠ [] → Scanned d p stars segment rest → SegmentsWritten d segments rest →
      SegmentsWritten d (segment :: segments) p

namespace Dialect

variable {d : Dialect} {p chunk : Text}

/-- The cut stops in front of a star, or at the end. -/
theorem spanChunk_rest (d : Dialect) (inClass : Bool) (t : Text) :
    (d.spanChunk inClass t).2 = [] ∨ (d.spanChunk inClass t).2.head? = some '*' := by
  fun_induction spanChunk d inClass t with
  | case1 => exact .inl rfl
  | case2 inClass e t hesc chunk rest hspan ih =>
      rw [hspan] at ih
      exact ih
  | case3 inClass t chunk rest hspan hplain ih =>
      rw [hspan] at ih
      exact ih
  | case4 inClass c t hc hstop =>
      rw [hstop.1]
      exact .inr rfl
  | case5 inClass c t hc hstop next chunk rest hspan ih =>
      rw [hspan] at ih
      exact ih

/-- Behind the stars of a scan there is no star. -/
theorem head?_scanChunk (d : Dialect) (p : Text) :
    ((d.scanChunk p).1.chunk ++ (d.scanChunk p).2).head? ≠ some '*' := by
  intro hhead
  have hstop := List.head?_dropWhile_not isStar p
  rw [scanChunk, spanChunk_append] at hhead
  rw [hhead] at hstop
  cases hstop

/-- A chunk is scanned again as one chunk. -/
theorem scanChunk_chunk (d : Dialect) (p : Text) :
    d.scanChunk (d.scanChunk p).1.chunk = (⟨false, (d.scanChunk p).1.chunk⟩, []) := by
  have hhead := head?_scanChunk d p
  have hcut : d.spanChunk false (d.scanChunk p).1.chunk = ((d.scanChunk p).1.chunk, []) :=
    d.spanChunk_chunk false _
  -- No star is taken off a chunk, since it starts with none.
  cases hchunk : (d.scanChunk p).1.chunk with
  | nil => rfl
  | cons c t =>
      rw [hchunk] at hhead hcut
      have hc : isStar c = false := by simpa [isStar] using hhead
      rw [scanChunk, List.dropWhile_cons_of_neg (by rw [hc]; exact Bool.false_ne_true), hcut]
      exact congrArg (fun starred => (Segment.mk starred (c :: t), [])) hc

theorem scanned (d : Dialect) (p : Text) :
    ∃ stars, Scanned d p stars (d.scanChunk p).1 (d.scanChunk p).2 := by
  have hstars : p.takeWhile isStar = List.replicate (p.takeWhile isStar).length '*' := by
    refine List.eq_replicate_of_mem fun c hc => ?_
    have hstar := List.mem_takeWhile_imp hc
    simpa [isStar] using hstar
  refine ⟨(p.takeWhile isStar).length, ?_, ?_, head?_scanChunk d p, scanChunk_chunk d p, ?_⟩
  · rw [← hstars, scanChunk, spanChunk_append, List.takeWhile_append_dropWhile]
  · cases p with
    | nil => simp [scanChunk]
    | cons c t =>
        cases hc : isStar c <;> simp [scanChunk, hc]
  · exact spanChunk_rest d false _

/-- The segments of a pattern write it. -/
theorem segmentsWritten (d : Dialect) (p : Text) : SegmentsWritten d (d.segments p) p := by
  induction p using segments.induct d with
  | case1 =>
      rw [segments]
      exact .nil
  | case2 c t ih =>
      obtain ⟨stars, hscan⟩ := d.scanned (c :: t)
      rw [segments]
      exact .cons (List.cons_ne_nil c t) hscan ih

/-! ## Matching -/

/-- A chunk is an error for every name or for none. -/
theorem matchChunk_error_or_ok (d : Dialect) (chunk : Text) :
    (∀ s, d.matchChunk chunk s = .error ⟨none⟩) ∨
      ∀ s, ∃ left, d.matchChunk chunk s = .ok left := by
  cases hread : d.readOperators chunk with
  | none =>
      left
      intro s
      rw [matchChunk_eq, hread]
  | some ops =>
      right
      intro s
      exact ⟨_, by rw [matchChunk_eq, hread]⟩

/-- A chunk is an error exactly when it cannot be read. -/
theorem matchChunk_ok_iff {s : Text} :
    (∃ left, d.matchChunk chunk s = .ok left) ↔ d.readOperators chunk ≠ none := by
  rw [matchChunk_eq]
  cases d.readOperators chunk <;> simp

/-- A pattern is well formed exactly when the pass is an error for none of its chunks. -/
theorem wellFormed_iff_matchChunk :
    d.WellFormed p ↔ ∀ g ∈ d.segments p, ∀ s, ∃ left, d.matchChunk g.chunk s = .ok left := by
  rw [wellFormed_iff_readable]
  refine forall₂_congr fun g _ => ?_
  simp only [matchChunk_ok_iff, forall_const]
  rfl

/-- The cut runs over a chunk of a pattern to its end. -/
theorem spanChunk_of_mem_segments {g : Segment} (hg : g ∈ d.segments p) :
    d.spanChunk false g.chunk = (g.chunk, []) := by
  induction p using segments.induct d with
  | case1 =>
      rw [segments] at hg
      cases hg
  | case2 c t ih =>
      rw [segments] at hg
      rcases List.mem_cons.1 hg with rfl | hg
      · exact d.spanChunk_chunk false _
      · exact ih hg

/-- A chunk of operators takes one character for each. -/
theorem matchChunk_of_termsWritten {ops : List Operator}
    (h : TermsWritten d (ops.map .single) chunk) (s : Text) :
    (TakenBy d.sep ops s → d.matchChunk chunk s = .ok (some (s.drop ops.length))) ∧
      (¬ TakenBy d.sep ops s → d.matchChunk chunk s = .ok none) := by
  have hmatch : d.matchChunk chunk s = .ok (Operator.run d.sep ops s) := by
    rw [matchChunk_eq, readOperators_of_singles h]
  rw [hmatch, Operator.run_eq]
  refine ⟨fun htaken => ?_, fun htaken => ?_⟩
  · rw [if_pos (takenBy_iff.1 htaken)]
  · rw [if_neg fun hall => htaken (takenBy_iff.2 hall)]

/-- A chunk of a pattern that is no error is written by operators. -/
theorem exists_operators_of_matchChunk {g : Segment} (hg : g ∈ d.segments p) {s : Text}
    (h : ∃ left, d.matchChunk g.chunk s = .ok left) :
    ∃ ops : List Operator, TermsWritten d (ops.map .single) g.chunk := by
  obtain ⟨ops, hops⟩ := Option.ne_none_iff_exists'.1 (matchChunk_ok_iff.1 h)
  exact ⟨ops, termsWritten_of_read hops (spanChunk_of_mem_segments hg)⟩

/-- Scanning and matching agree on every pattern. The segments write the pattern. A chunk is an error
for every name or for none, and the chunks of a pattern are no errors exactly when the pattern is
well formed. A chunk that is no error is written by operators: it takes one character for each when
the name starts with characters for all of them, and does not match otherwise. -/
theorem scan_and_match_agree (d : Dialect) (p : Text) :
    SegmentsWritten d (d.segments p) p ∧
      (∀ chunk, (∀ s, d.matchChunk chunk s = .error ⟨none⟩) ∨
        ∀ s, ∃ left, d.matchChunk chunk s = .ok left) ∧
      (d.WellFormed p ↔ ∀ g ∈ d.segments p, ∀ s, ∃ left, d.matchChunk g.chunk s = .ok left) ∧
      ∀ g ∈ d.segments p, ∀ name left, d.matchChunk g.chunk name = .ok left →
        ∃ ops : List Operator, TermsWritten d (ops.map .single) g.chunk ∧ ∀ s,
          (TakenBy d.sep ops s → d.matchChunk g.chunk s = .ok (some (s.drop ops.length))) ∧
            (¬ TakenBy d.sep ops s → d.matchChunk g.chunk s = .ok none) := by
  refine ⟨segmentsWritten d p, matchChunk_error_or_ok d, wellFormed_iff_matchChunk, ?_⟩
  intro g hg name left h
  obtain ⟨ops, hops⟩ := exists_operators_of_matchChunk hg ⟨left, h⟩
  exact ⟨ops, hops, matchChunk_of_termsWritten hops⟩

end Dialect

end PathAlgebra
