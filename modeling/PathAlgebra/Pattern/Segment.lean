import PathAlgebra.Pattern.Operator

/-!
# Segments of a pattern

A pattern is cut in front of each run of stars outside brackets. A segment is one such run,
possibly empty for the first segment, and the chunk of single-character operators after it.
Brackets are tracked by one flag: an opening bracket sets it, a closing one clears it, and an
escaped character does neither. Cutting loses nothing (`spanChunk_append`), and only the empty
pattern has no segments (`segments_eq_nil_iff`).
-/

set_option autoImplicit false

namespace PathAlgebra

/-- A run of stars, when there is one, and the chunk after it. -/
structure Segment where
  starred : Bool
  chunk : Text
  deriving DecidableEq

/-- A star. -/
def isStar (c : Char) : Bool := c == '*'

namespace Dialect

/-- A text cut in front of its first star outside brackets. -/
def spanChunk (d : Dialect) : Bool → Text → Text × Text
  | _, [] => ([], [])
  | inClass, c :: t =>
      if c = '\\' then
        match d.escapes, t with
        | true, e :: t => let (chunk, rest) := d.spanChunk inClass t; (c :: e :: chunk, rest)
        | _, t => let (chunk, rest) := d.spanChunk inClass t; (c :: chunk, rest)
      else if c = '*' ∧ inClass = false then ([], c :: t)
      else
        let inClass := if c = '[' then true else if c = ']' then false else inClass
        let (chunk, rest) := d.spanChunk inClass t
        (c :: chunk, rest)

/-- The first segment of a pattern and the pattern after it. -/
def scanChunk (d : Dialect) (p : Text) : Segment × Text :=
  let (chunk, rest) := d.spanChunk false (p.dropWhile isStar)
  (⟨p.head?.any isStar, chunk⟩, rest)

theorem spanChunk_append (d : Dialect) (inClass : Bool) (t : Text) :
    (d.spanChunk inClass t).1 ++ (d.spanChunk inClass t).2 = t := by
  fun_induction spanChunk d inClass t <;> simp_all

/-- A chunk is empty only at the end of the pattern, or in front of a star. -/
theorem spanChunk_fst_ne_nil {d : Dialect} {c : Char} {t : Text} (h : isStar c = false) :
    (d.spanChunk false (c :: t)).1 ≠ [] := by
  have hc : c ≠ '*' := by simpa [isStar] using h
  rw [spanChunk.eq_def]
  split
  · simp_all
  · next heq =>
    simp only [List.cons.injEq] at heq
    obtain ⟨rfl, rfl⟩ := heq
    split
    · split <;> simp
    · simp [hc]

theorem scanChunk_length_lt {d : Dialect} {c : Char} {t : Text} :
    (d.scanChunk (c :: t)).2.length < (c :: t).length := by
  have happend := congrArg List.length
    (d.spanChunk_append false ((c :: t).dropWhile isStar))
  rw [List.length_append] at happend
  have hdrop := (List.dropWhile_sublist (l := t) isStar).length_le
  simp only [scanChunk]
  by_cases h : isStar c = true
  -- Either a star goes before the chunk, or the chunk itself is not empty.
  · rw [List.dropWhile_cons_of_pos h] at happend ⊢
    simp only [List.length_cons]
    omega
  · have h : isStar c = false := by simpa using h
    have hchunk := List.length_pos_iff.2 (spanChunk_fst_ne_nil (d := d) (t := t) h)
    rw [List.dropWhile_cons_of_neg (by simp [h])] at happend ⊢
    omega

/-- The segments of a pattern in order. -/
def segments (d : Dialect) : Text → List Segment
  | [] => []
  | c :: t => (d.scanChunk (c :: t)).1 :: d.segments (d.scanChunk (c :: t)).2
  termination_by p => p.length
  decreasing_by exact scanChunk_length_lt

theorem segments_eq_nil_iff {d : Dialect} {p : Text} : d.segments p = [] ↔ p = [] := by
  cases p with
  | nil => simp [segments]
  | cons c t => simp [segments]

end Dialect

end PathAlgebra
