import Mathlib.Data.List.TakeWhile
import PathAlgebra.Proofs.PatternGrammar
import PathAlgebra.Proofs.PatternMatching

/-!
# Rejected patterns

A pattern is rejected for a name when the matcher reaches a chunk that cannot be read. It reaches a
chunk only behind a place for each chunk before it, so a malformed pattern can be rejected for one
name and answered with `false` for another (`rejects_depends_on_name`).

What one segment does is `rejected_cons_iff`; runs over segments follow by induction. The segments
in front of the first unreadable chunk settle when it is reached: for every name, if there are none
(`FirstUnreadable.rejects_of_nil`); for some name, unless one of them has an operator that accepts
no character (`FirstUnreadable.exists_rejects_iff`); for the empty name, only if there are none
(`FirstUnreadable.rejects_nil_iff`). So rejection is a matter of the pattern alone exactly for the
patterns of `rejects_independent_iff`.
-/

set_option autoImplicit false

namespace PathAlgebra

variable {d : Dialect} {front back segments more : List Segment} {s bad : Segment}
variable {p name : Text}

/-! ## A run over segments -/

/-- Matching a name against the segments is an error. -/
def Rejected (d : Dialect) (segments : List Segment) (name : Text) : Prop :=
  ∃ e, d.matchSegments segments name = .error e

theorem not_rejected_nil : ¬ Rejected d [] name := by
  rintro ⟨e, h⟩
  cases h

/-- One segment rejects a name when it cannot be read, or when its chunk has a place and the other
segments reject what is behind it. -/
theorem rejected_cons_iff :
    Rejected d (s :: more) name ↔
      s.Unreadable d ∨ ∃ ops rest, d.readOperators s.chunk = some ops ∧
        ¬ (s.starred = true ∧ s.chunk = []) ∧
        place d.sep ops more.isEmpty s.starred name = some rest ∧ Rejected d more rest := by
  rw [Rejected, Dialect.matchSegments_cons, Segment.Unreadable]
  by_cases hstar : s.starred = true ∧ s.chunk = []
  · -- A star alone is read and answered.
    rw [if_pos (by simpa using hstar), hstar.2, Dialect.readOperators]
    simp [hstar.1]
  · rw [if_neg (by simpa using hstar)]
    cases hread : d.readOperators s.chunk with
    | none => simp
    | some ops =>
        dsimp only
        cases hplace : place d.sep ops more.isEmpty s.starred name with
        | none => simp [hplace]
        | some rest => simp [hplace, hstar, Rejected]

/-- Only a chunk that cannot be read is a reason to reject. -/
theorem Rejected.exists_unreadable (h : Rejected d segments name) :
    ∃ s ∈ segments, s.Unreadable d := by
  induction segments generalizing name with
  | nil => exact absurd h not_rejected_nil
  | cons s more ih =>
      rcases rejected_cons_iff.1 h with hs | ⟨ops, rest, -, -, -, hrest⟩
      · exact ⟨s, List.mem_cons_self, hs⟩
      · obtain ⟨t, ht, hunread⟩ := ih hrest
        exact ⟨t, List.mem_cons_of_mem _ ht, hunread⟩

/-- A segment with an operator that accepts no character: its chunk has no place in any name. -/
def Segment.Impassable (d : Dialect) (s : Segment) : Prop :=
  ∃ ops op, d.readOperators s.chunk = some ops ∧ op ∈ ops ∧ op.AcceptsNone d.sep

/-- Nothing behind an impassable segment is reached. -/
theorem not_rejected_of_impassable (hread : ∀ s ∈ front, ¬ s.Unreadable d) (hs : s ∈ front)
    (himpassable : s.Impassable d) : ¬ Rejected d (front ++ back) name := by
  induction front generalizing name with
  | nil => cases hs
  | cons t front ih =>
      intro h
      rw [List.cons_append, rejected_cons_iff] at h
      rcases h with hunread | ⟨ops, rest, hops, -, hplace, hrest⟩
      · exact hread t List.mem_cons_self hunread
      · rcases List.mem_cons.1 hs with rfl | hs
        · -- The operator would have to accept a character at the place.
          obtain ⟨ops', op, hops', hop, hnone⟩ := himpassable
          rw [hops, Option.some.injEq] at hops'
          rw [← hops'] at hop
          obtain ⟨run, s', -, -, -, hhere, -⟩ := place_eq_some hplace
          have hrun := (placeHere_eq_some_iff.1 hhere).1
          rw [run_eq_none_of_acceptsNone hop hnone] at hrun
          cases hrun
        · exact ih (fun u hu => hread u (List.mem_cons_of_mem _ hu)) hs hrest

/-- Some name reaches a chunk behind segments that all let a character through. -/
theorem exists_rejected (hread : ∀ s ∈ front, ¬ s.Unreadable d)
    (hchunk : ∀ s ∈ front, s.chunk ≠ []) (hpass : ∀ s ∈ front, ¬ s.Impassable d)
    (hbad : bad.Unreadable d) : ∃ name, Rejected d (front ++ bad :: back) name := by
  induction front with
  | nil => exact ⟨[], rejected_cons_iff.2 (.inl hbad)⟩
  | cons s front ih =>
      obtain ⟨rest, hrest⟩ := ih (fun t ht => hread t (List.mem_cons_of_mem _ ht))
        (fun t ht => hchunk t (List.mem_cons_of_mem _ ht))
        (fun t ht => hpass t (List.mem_cons_of_mem _ ht))
      obtain ⟨ops, hops⟩ := Segment.exists_operators (hread s List.mem_cons_self)
      have haccept : ∀ op ∈ ops, ¬ op.AcceptsNone d.sep := fun op hop hnone =>
        hpass s List.mem_cons_self ⟨ops, op, hops, hop, hnone⟩
      obtain ⟨taken, htaken⟩ := exists_taken haccept
      -- In front of that name stands a text for the operators of this segment.
      have hplace : place d.sep ops (front ++ bad :: back).isEmpty s.starred (taken ++ rest) =
          some rest := by
        apply place_of_placeHere
        refine placeHere_eq_some_iff.2 ⟨run_eq_some_iff.2 ⟨taken, rfl, htaken⟩, ?_⟩
        simp
      refine ⟨taken ++ rest, rejected_cons_iff.2 (.inr ⟨ops, rest, hops, ?_, hplace, hrest⟩)⟩
      exact fun hstar => hchunk s List.mem_cons_self hstar.2

/-- The empty name has a place for no operator. -/
theorem rejected_empty_iff (hchunk : s.chunk = [] → s.starred = true) :
    Rejected d (s :: more) [] ↔ s.Unreadable d := by
  rw [rejected_cons_iff]
  refine or_iff_left ?_
  rintro ⟨ops, rest, hops, hstar, hplace, -⟩
  have hne : s.chunk ≠ [] := fun hnil => hstar ⟨hchunk hnil, hnil⟩
  obtain ⟨c, t, hcons⟩ := List.exists_cons_of_ne_nil hne
  rw [hcons, Dialect.readOperators] at hops
  split at hops
  · cases hops
  · obtain ⟨ops, -, rfl⟩ := Option.map_eq_some_iff.1 hops
    cases hplace

/-! ## Segments of a pattern -/

/-- An empty chunk is a star at the end of the pattern. -/
theorem scanChunk_of_chunk_eq_nil {c : Char} {t : Text} (h : (d.scanChunk (c :: t)).1.chunk = []) :
    (d.scanChunk (c :: t)).1.starred = true ∧ (d.scanChunk (c :: t)).2 = [] := by
  rw [Dialect.scanChunk] at h ⊢
  cases hdrop : (c :: t).dropWhile isStar with
  | nil =>
      have hall := List.dropWhile_eq_nil_iff.1 hdrop
      exact ⟨by simpa using hall c List.mem_cons_self, rfl⟩
  | cons x u =>
      rw [hdrop] at h
      have hx : isStar x = false := by
        have hhead := List.head?_dropWhile_not isStar (c :: t)
        rw [hdrop] at hhead
        simpa using hhead
      exact absurd h (Dialect.spanChunk_fst_ne_nil hx)

theorem starred_of_chunk_eq_nil (h : d.segments p = s :: more) (hs : s.chunk = []) :
    s.starred = true := by
  cases p with
  | nil => simp [Dialect.segments] at h
  | cons c t =>
      rw [Dialect.segments] at h
      obtain ⟨rfl, -⟩ := List.cons.inj h
      exact (scanChunk_of_chunk_eq_nil hs).1

/-- A segment with another one behind it has a chunk. -/
theorem chunk_ne_nil (h : d.segments p = front ++ bad :: back) : ∀ s ∈ front, s.chunk ≠ [] := by
  induction p using Dialect.segments.induct d generalizing front with
  | case1 => simp [Dialect.segments] at h
  | case2 c t ih =>
      cases front with
      | nil => simp
      | cons s front =>
          rw [Dialect.segments, List.cons_append] at h
          obtain ⟨rfl, hmore⟩ := List.cons.inj h
          intro u hu
          rcases List.mem_cons.1 hu with rfl | hu
          · intro hnil
            rw [(scanChunk_of_chunk_eq_nil hnil).2, Dialect.segments] at hmore
            cases front <;> cases hmore
          · exact ih hmore u hu

/-! ## Rejection of a pattern -/

/-- The pattern is an error for the name. The error names the pattern. -/
def Dialect.Rejects (d : Dialect) (p name : Text) : Prop :=
  d.matchName p name = .error ⟨some p⟩

instance (d : Dialect) (p name : Text) : Decidable (d.Rejects p name) :=
  inferInstanceAs (Decidable (_ = _))

/-- Every error of matching is a rejection of the pattern. -/
theorem Dialect.rejects_of_error {e : Malformed} (h : d.matchName p name = .error e) :
    d.Rejects p name := by
  rw [Rejects, h]
  rw [matchName] at h
  cases hrun : d.matchSegments (d.segments p) name with
  | error e' =>
      rw [hrun] at h
      cases h
      rfl
  | ok answer =>
      rw [hrun] at h
      cases h

theorem Dialect.rejects_iff : d.Rejects p name ↔ Rejected d (d.segments p) name := by
  rw [Rejects, matchName, Rejected]
  cases d.matchSegments (d.segments p) name with
  | error e => simp [Except.mapError]
  | ok answer => simp [Except.mapError]

/-- A name is rejected or answered. -/
theorem Dialect.exists_answer (h : ¬ d.Rejects p name) :
    ∃ answer, d.matchName p name = .ok answer := by
  cases hmatch : d.matchName p name with
  | error e => exact absurd (rejects_of_error hmatch) h
  | ok answer => exact ⟨answer, rfl⟩

/-- A rejected pattern is not well formed. -/
theorem Dialect.Rejects.not_wellFormed (h : d.Rejects p name) : ¬ d.WellFormed p := by
  obtain ⟨s, hs, hunread⟩ := (rejects_iff.1 h).exists_unreadable
  exact fun hp => wellFormed_iff_readable.1 hp s hs hunread

/-- The first chunk of a pattern that cannot be read, with the segments before and after it. -/
structure FirstUnreadable (d : Dialect) (p : Text) (front : List Segment) (bad : Segment)
    (back : List Segment) : Prop where
  segments_eq : d.segments p = front ++ bad :: back
  readable : ∀ s ∈ front, ¬ s.Unreadable d
  unreadable : bad.Unreadable d

/-- A pattern that is not well formed has a first chunk that cannot be read. -/
theorem not_wellFormed_iff :
    ¬ d.WellFormed p ↔ ∃ front bad back, FirstUnreadable d p front bad back := by
  constructor
  · intro h
    rw [wellFormed_iff_readable] at h
    cases hfind : (d.segments p).find? fun s => decide (s.Unreadable d) with
    | none =>
        rw [List.find?_eq_none] at hfind
        exact absurd (fun s hs => by simpa using hfind s hs) h
    | some bad =>
        obtain ⟨hbad, front, back, hsegments, hfront⟩ := List.find?_eq_some_iff_append.1 hfind
        refine ⟨front, bad, back, hsegments, ?_, by simpa using hbad⟩
        intro s hs
        simpa using hfront s hs
  · rintro ⟨front, bad, back, hsegments, -, hbad⟩ hp
    exact wellFormed_iff_readable.1 hp bad (by simp [hsegments]) hbad

namespace FirstUnreadable

/-- A chunk with nothing before it is reached for every name. -/
theorem rejects_of_nil (h : FirstUnreadable d p [] bad back) (name : Text) : d.Rejects p name := by
  rw [Dialect.rejects_iff, h.segments_eq]
  exact rejected_cons_iff.2 (.inl h.unreadable)

/-- Some name is rejected unless a segment in front has an operator that accepts no character. -/
theorem exists_rejects_iff (h : FirstUnreadable d p front bad back) :
    (∃ name, d.Rejects p name) ↔ ∀ s ∈ front, ¬ s.Impassable d := by
  constructor
  · rintro ⟨name, hname⟩ s hs himpassable
    rw [Dialect.rejects_iff, h.segments_eq] at hname
    exact not_rejected_of_impassable h.readable hs himpassable hname
  · intro hpass
    simp only [Dialect.rejects_iff, h.segments_eq]
    exact exists_rejected h.readable (chunk_ne_nil h.segments_eq) hpass h.unreadable

/-- The empty name is rejected only if the first chunk of all cannot be read. -/
theorem rejects_nil_iff (h : FirstUnreadable d p front bad back) :
    d.Rejects p [] ↔ front = [] := by
  constructor
  · intro hrejects
    cases front with
    | nil => rfl
    | cons s front =>
        have hsegments := h.segments_eq
        rw [Dialect.rejects_iff, hsegments, List.cons_append,
          rejected_empty_iff (starred_of_chunk_eq_nil hsegments)] at hrejects
        exact absurd hrejects (h.readable s List.mem_cons_self)
  · rintro rfl
    exact h.rejects_of_nil []

end FirstUnreadable

namespace Dialect

/-- Rejection is a matter of the pattern alone exactly when the pattern is well formed, or when
its first unreadable chunk is its first chunk or is behind an operator that accepts no character. -/
theorem rejects_independent_iff (d : Dialect) (p : Text) :
    (∀ m n, d.Rejects p m ↔ d.Rejects p n) ↔
      d.WellFormed p ∨ ∃ front bad back, FirstUnreadable d p front bad back ∧
        (front = [] ∨ ∃ s ∈ front, s.Impassable d) := by
  constructor
  · intro hsame
    by_cases hp : d.WellFormed p
    · exact .inl hp
    · obtain ⟨front, bad, back, hfirst⟩ := not_wellFormed_iff.1 hp
      refine .inr ⟨front, bad, back, hfirst, ?_⟩
      by_contra hneither
      obtain ⟨hfront, hpass⟩ := not_or.1 hneither
      -- Some name is rejected, so the empty name would be.
      obtain ⟨name, hname⟩ := hfirst.exists_rejects_iff.2 fun s hs himpassable =>
        hpass ⟨s, hs, himpassable⟩
      exact hfront (hfirst.rejects_nil_iff.1 ((hsame name []).1 hname))
  · rintro (hp | ⟨front, bad, back, hfirst, rfl | ⟨s, hs, himpassable⟩⟩) m n
    · exact iff_of_false (fun h => h.not_wellFormed hp) fun h => h.not_wellFormed hp
    · exact iff_of_true (hfirst.rejects_of_nil m) (hfirst.rejects_of_nil n)
    · have hnone : ∀ name, ¬ d.Rejects p name := fun name hname =>
        hfirst.exists_rejects_iff.1 ⟨name, hname⟩ s hs himpassable
      exact iff_of_false (hnone m) (hnone n)

/-- The pattern `a*[` is rejected for the name `a` and answered for `b`. -/
theorem rejects_depends_on_name :
    ¬ posix.WellFormed ['a', '*', '['] ∧ posix.Rejects ['a', '*', '['] ['a'] ∧
      posix.matchName ['a', '*', '['] ['b'] = .ok false := by
  have hrejects : posix.Rejects ['a', '*', '['] ['a'] := by decide +kernel
  exact ⟨hrejects.not_wellFormed, hrejects, by decide +kernel⟩

end Dialect

end PathAlgebra
