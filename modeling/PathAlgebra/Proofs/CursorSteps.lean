import Mathlib.Logic.Function.Iterate
import PathAlgebra.Cursor
import PathAlgebra.Proofs.AbsolutePaths

/-!
# Steps of a cursor

Over a volume with names behind it, each behind a separator, a cursor stands behind the names it has
passed and in front of those ahead (`Cursor.Stands`). A step goes over exactly one name
(`Stands.next`): the cursor is then on a part, whose bounds are those of the name
(`Cursor.OnPart`), with the text before and after it on either side (`OnPart.left_eq`,
`OnPart.part_eq`, `OnPart.right_eq`). So the parts ahead of a cursor are the names ahead
(`Stands.remaining_eq`), and a new cursor moved on a number of times has passed as many names
(`iterate_stands`). Behind the last name it stays (`hasNext_next`).
-/

set_option autoImplicit false

namespace PathAlgebra

open Dialect

namespace Cursor

variable {c c' : Cursor} {d : Dialect} {v p e : Text} {before after es : List Text}

/-- The cursor stands behind some names and in front of others. -/
structure Stands (c : Cursor) (v : Text) (before after : List Text) : Prop where
  rooted : RootedAs c.dialect v (before ++ after) c.path
  volumeLength_eq : c.volumeLength = v.length
  stop_eq : c.stop = (v ++ c.dialect.trail before).length

/-- The cursor is on the part of one name. -/
structure OnPart (c : Cursor) (v : Text) (before : List Text) (e : Text) (after : List Text) : Prop
    extends c.Stands v (before ++ [e]) after where
  start_eq : c.start = (v ++ c.dialect.trail before).length + 1

/-! ## One step -/

namespace Stands

/-- The path behind the cursor is that of the names ahead, but for the separator of a root without
names. -/
theorem exists_end (h : c.Stands v before after) :
    ∃ u, c.path = (v ++ c.dialect.trail before) ++ (c.dialect.trail after ++ u) ∧
      (u = [] ∨ after = [] ∧ u = [c.dialect.sep]) := by
  obtain ⟨u, hpath, hu⟩ := h.rooted.exists_end
  refine ⟨u, ?_, ?_⟩
  · rw [hpath, trail_append]
    simp only [List.append_assoc]
  · rcases hu with rfl | ⟨hnil, rfl⟩
    · exact .inl rfl
    · exact .inr ⟨(List.append_eq_nil_iff.1 hnil).2, rfl⟩

theorem nextStart_eq (h : c.Stands v before after) :
    c.nextStart = (v ++ c.dialect.trail before).length + 1 := by
  rw [nextStart, h.stop_eq]
  omega

/-- There is a next part exactly when there is a name ahead. -/
theorem hasNext_eq (h : c.Stands v before after) : c.hasNext = !after.isEmpty := by
  obtain ⟨u, hpath, hu⟩ := h.exists_end
  have hlength := (congrArg List.length hpath).trans List.length_append
  rw [hasNext, h.nextStart_eq, hlength]
  cases after with
  | nil =>
      have hend : u.length ≤ 1 := by
        rcases hu with rfl | ⟨-, rfl⟩
        · exact Nat.zero_le 1
        · exact Nat.le_refl 1
      simpa using hend
  | cons e after =>
      have hpos : 0 < e.length := List.length_pos_iff.2 (h.rooted.elements e (by simp)).ne_nil
      simp only [trail_cons, List.isEmpty_cons, Bool.not_false, decide_eq_true_eq, List.cons_append,
        List.length_cons, List.length_append]
      omega

/-- The cursor ends the path exactly when no name is ahead. A root without names has a separator
ahead even so. -/
theorem isLast_eq (h : c.Stands v before after) (hnames : before ++ after ≠ []) :
    c.isLast = after.isEmpty := by
  obtain ⟨u, hpath, hu⟩ := h.rooted.exists_end
  have hend : u = [] := hu.resolve_right fun hnil => hnames hnil.1
  rw [hend, List.append_nil, trail_append, ← List.append_assoc] at hpath
  have hlength : (c.path.length : Int) = c.stop + (c.dialect.trail after).length := by
    rw [hpath, List.length_append, h.stop_eq]
    rfl
  rw [isLast, hlength]
  cases after with
  | nil => simp
  | cons e after =>
      simp only [trail_cons, List.length_cons, List.isEmpty_cons, beq_eq_false_iff_ne]
      omega

/-- A step goes over one name. -/
theorem next (h : c.Stands v before (e :: after)) : c.next.OnPart v before e after := by
  have hmore : c.hasNext = true := h.hasNext_eq
  have hshift : before ++ e :: after = (before ++ [e]) ++ after := by simp
  obtain ⟨u, hpath, hu⟩ := h.exists_end
  have hend : u = [] := hu.resolve_right fun hnil => absurd hnil.1 (List.cons_ne_nil e after)
  rw [hend, List.append_nil, trail_cons] at hpath
  -- The part runs up to the separator of the next name, or to the end of the path.
  have hrun : (e ++ c.dialect.trail after).takeWhile (fun x => x != c.dialect.sep) = e := by
    have he : ∀ x ∈ e, (x != c.dialect.sep) = true := by
      intro x hx
      have hsep := (h.rooted.elements e (by simp)).sep_notMem
      simp only [bne_iff_ne]
      rintro rfl
      exact hsep hx
    rw [List.takeWhile_append_of_pos he]
    cases after with
    | nil => simp
    | cons f after =>
        rw [trail_cons, List.takeWhile_cons_of_neg (by simp), List.append_nil]
  have hbreak : c.breakFrom c.nextStart =
      (v ++ c.dialect.trail before).length + 1 + e.length := by
    have hcut : c.path = ((v ++ c.dialect.trail before) ++ [c.dialect.sep]) ++
        (e ++ c.dialect.trail after) := by
      rw [hpath]
      simp
    have hdrop : c.path.drop c.nextStart = e ++ c.dialect.trail after := by
      rw [hcut, h.nextStart_eq]
      exact List.drop_left' List.length_append
    rw [breakFrom, hdrop, hrun, h.nextStart_eq]
  refine ⟨⟨?_, h.volumeLength_eq, ?_⟩, h.nextStart_eq⟩
  · rw [← hshift]
    exact h.rooted
  · have hstop : c.next.stop = c.breakFrom c.nextStart := by
      rw [Cursor.next, hmore, if_pos rfl]
    have hdialect : c.next.dialect = c.dialect := rfl
    rw [hstop, hbreak, hdialect]
    simp only [trail_append, trail_cons, trail_nil, List.length_append, List.length_cons,
      List.append_nil]
    omega

end Stands

/-- Behind the last part there is no other. -/
theorem hasNext_next (h : c.hasNext = false) : c.next.hasNext = false := by
  have hstop : c.next.stop = c.nextStart := by
    rw [next, h]
    simp
  have hpath : c.next.path = c.path := rfl
  rw [hasNext, decide_eq_false_iff_not] at h ⊢
  rw [nextStart, hstop, hpath]
  omega

/-! ## On a part -/

namespace OnPart

theorem path_eq (h : c.OnPart v before e after) :
    c.path =
      ((v ++ c.dialect.trail before) ++ [c.dialect.sep]) ++ (e ++ c.dialect.trail after) := by
  obtain ⟨u, hpath, hu⟩ := h.rooted.exists_end
  have hend : u = [] := hu.resolve_right fun hnil => by simp at hnil
  rw [hpath, hend]
  simp

theorem length_left (h : c.OnPart v before e after) :
    ((v ++ c.dialect.trail before) ++ [c.dialect.sep]).length = c.start := by
  rw [h.start_eq, List.length_append]
  rfl

theorem length_leftPart (h : c.OnPart v before e after) :
    ((v ++ c.dialect.trail before) ++ [c.dialect.sep] ++ e).length = c.start + e.length := by
  rw [List.length_append, h.length_left]

theorem stop_eq_add (h : c.OnPart v before e after) : c.stop = (c.start + e.length : Nat) := by
  have hleft : (v ++ c.dialect.trail before) ++ [c.dialect.sep] ++ e =
      v ++ c.dialect.trail (before ++ [e]) := by simp
  rw [h.stop_eq, ← h.length_leftPart, hleft]

theorem left_eq (h : c.OnPart v before e after) :
    c.left = (v ++ c.dialect.trail before) ++ [c.dialect.sep] := by
  rw [left, h.path_eq]
  exact List.take_left' h.length_left

theorem part_eq (h : c.OnPart v before e after) : c.part = e := by
  have htake : c.path.take (c.start + e.length) =
      ((v ++ c.dialect.trail before) ++ [c.dialect.sep]) ++ e := by
    rw [h.path_eq, ← List.append_assoc]
    exact List.take_left' h.length_leftPart
  rw [part, h.stop_eq_add, Text.slice_natCast, htake]
  exact List.drop_left' h.length_left

theorem right_eq (h : c.OnPart v before e after) : c.right = c.dialect.trail after := by
  rw [right, h.stop_eq_add, Text.slice_natCast, List.take_length, h.path_eq, ← List.append_assoc]
  exact List.drop_left' h.length_leftPart

theorem element (h : c.OnPart v before e after) : IsElement c.dialect e :=
  h.rooted.elements e (by simp)

/-- Two cursors on the same part of the same path are the same. -/
theorem unique (h : c.OnPart v before e after) (h' : c'.OnPart v before e after)
    (hdialect : c'.dialect = c.dialect) (hpath : c'.path = c.path) : c' = c := by
  have hstart := h'.start_eq
  have hstop := h'.stop_eq
  rw [hdialect, ← h.start_eq] at hstart
  rw [hdialect, ← h.stop_eq] at hstop
  have hvolume := h'.volumeLength_eq.trans h.volumeLength_eq.symm
  cases c
  cases c'
  simp_all

end OnPart

/-! ## Many steps -/

theorem remaining_of_hasNext (h : c.hasNext = true) :
    c.remaining.1 = c.next.part :: c.next.remaining.1 := by
  rw [remaining, dif_pos h]

theorem remaining_of_not_hasNext (h : c.hasNext = false) : c.remaining.1 = [] := by
  rw [remaining, dif_neg (by simp [h])]

/-- The parts ahead are the names ahead. -/
theorem Stands.remaining_eq (h : c.Stands v before after) : c.remaining.1 = after := by
  induction after generalizing c before with
  | nil => exact remaining_of_not_hasNext h.hasNext_eq
  | cons e after ih =>
      rw [remaining_of_hasNext h.hasNext_eq, h.next.part_eq, ih h.next.toStands]

/-- A cursor that starts over has passed no name. -/
theorem stands_reset (h : RootedAs c.dialect v es c.path) : c.reset.Stands v [] es where
  rooted := h
  volumeLength_eq := h.volumeLength_eq
  stop_eq := by
    have hstop : c.reset.stop = c.dialect.volumeLength c.path := rfl
    rw [hstop, h.volumeLength_eq, trail_nil, List.append_nil]

theorem stands_ofPath (h : RootedAs d v es p) : (ofPath d p).Stands v [] es :=
  stands_reset (c := ⟨d, p, 0, 0, 0⟩) h

/-- Steps leave the path alone. -/
theorem iterate_path (c : Cursor) (n : Nat) :
    (next^[n] c).dialect = c.dialect ∧ (next^[n] c).path = c.path := by
  induction n with
  | zero => exact ⟨rfl, rfl⟩
  | succ n ih =>
      rw [Function.iterate_succ_apply']
      exact ih

/-- A new cursor moved on a number of times has passed as many names. -/
theorem iterate_stands (h : RootedAs d v es p) {n : Nat} (hn : n ≤ es.length) :
    (next^[n] (ofPath d p)).Stands v (es.take n) (es.drop n) := by
  induction n with
  | zero => exact stands_ofPath h
  | succ n ih =>
      have hstands := ih (Nat.le_of_succ_le hn)
      rw [List.drop_eq_getElem_cons hn] at hstands
      rw [Function.iterate_succ_apply', List.take_succ_eq_append_getElem hn]
      exact hstands.next.toStands

/-- Every step behind the last part moves the stop bound on by one. -/
theorem iterate_behind (h : c.hasNext = false) (hstop : 0 ≤ c.stop) (m : Nat) :
    (next^[m] c).hasNext = false ∧ (next^[m] c).stop = c.stop + m := by
  induction m with
  | zero => exact ⟨h, (Int.add_zero _).symm⟩
  | succ m ih =>
      obtain ⟨hmore, hm⟩ := ih
      rw [Function.iterate_succ_apply']
      refine ⟨hasNext_next hmore, ?_⟩
      have hnext : (next^[m] c).next.stop = (next^[m] c).nextStart := by
        rw [next, hmore]
        simp
      rw [hnext, nextStart, hm]
      omega

/-- Moved on once more, it is on the part of the next name. -/
theorem iterate_onPart (h : RootedAs d v es p) {k : Nat} (hk : k < es.length) :
    (next^[k + 1] (ofPath d p)).OnPart v (es.take k) es[k] (es.drop (k + 1)) := by
  have hstands := iterate_stands h (Nat.le_of_lt hk)
  rw [List.drop_eq_getElem_cons hk] at hstands
  rw [Function.iterate_succ_apply']
  exact hstands.next

end Cursor

end PathAlgebra
