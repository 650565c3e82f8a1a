import PathAlgebra.Proofs.CleanPaths

/-!
# Overlays edited step by step

An overlay is edited by appending a character, by moving its cursor back, and by putting a text in
front of its own slots. The same edits applied to a plain list give a draft (`Draft`): append at the
end, keep the first characters, put in front. A draft also notes whether its text has ever ceased to
be a beginning of the source, which is when the overlay takes slots of its own.

One edit keeps an overlay on its draft (`Keeps.edit`), whether the overlay still shares its source,
diverges at this very character, or writes over what an earlier move of the cursor has left behind.
So after any edits the overlay answers as the draft does (`edited_answers`), and it refuses to be
written in front of, and to show slots of its own, exactly until it has diverged.
-/

set_option autoImplicit false

namespace PathAlgebra

namespace Overlay

/-! ## Edits -/

/-- A change of an overlay. -/
inductive Edit where
  | append (c : Char)
  | moveTo (cursor : Nat)
  | prepend (t : Text)

/-- The overlay after an edit, or the reason why it refuses the edit. -/
def tryEdit (b : Overlay) : Edit → Except OverlayError Overlay
  | .append c => b.tryAppend c
  | .moveTo cursor => .ok (b.moveTo cursor)
  | .prepend t => b.prepend t

/-- The overlay after an edit. An edit that it refuses leaves it as it is. -/
def edit (b : Overlay) (e : Edit) : Overlay := (b.tryEdit e).toOption.getD b

/-- The overlay of a source behind a volume, after edits in order. -/
def edited (source volume : Text) (es : List Edit) : Overlay :=
  es.foldl edit (ofSource source (volume ++ source) volume.length)

/-- A plain text under the same edits. It has parted from the source when it has once ceased to be a
beginning of it. -/
structure Draft where
  text : Text
  parted : Bool

namespace Draft

/-- The draft after an edit. Nothing is put in front of a draft that has not parted. -/
def edit (source : Text) (s : Draft) : Edit → Draft
  | .append c => ⟨s.text ++ [c], s.parted || !(s.text ++ [c]).isPrefixOf source⟩
  | .moveTo cursor => ⟨s.text.take cursor, s.parted⟩
  | .prepend t => if s.parted then ⟨t ++ s.text, true⟩ else s

/-- The draft after edits in order, from nothing on. -/
def edited (source : Text) (es : List Edit) : Draft := es.foldl (edit source) ⟨[], false⟩

/-- A cursor is moved back, to a place in the text or to its end. -/
def Allows (s : Draft) : Edit → Prop
  | .moveTo cursor => cursor ≤ s.text.length
  | _ => True

instance (s : Draft) (e : Edit) : Decidable (s.Allows e) :=
  match e with
  | .append _ => inferInstanceAs (Decidable True)
  | .moveTo _ => inferInstanceAs (Decidable (_ ≤ _))
  | .prepend _ => inferInstanceAs (Decidable True)

/-- Each edit is allowed by the draft that the ones before it have left. -/
def AllowsAll (source : Text) : Draft → List Edit → Prop
  | _, [] => True
  | s, e :: es => s.Allows e ∧ AllowsAll source (s.edit source e) es

instance decidableAllowsAll (source : Text) :
    (s : Draft) → (es : List Edit) → Decidable (s.AllowsAll source es)
  | _, [] => inferInstanceAs (Decidable True)
  | s, e :: es =>
      have := decidableAllowsAll source (s.edit source e) es
      inferInstanceAs (Decidable (s.Allows e ∧ AllowsAll source (s.edit source e) es))

end Draft

/-! ## One edit -/

/-- The overlay stands for a draft: the draft is what is written on it, and it has slots of its own
when the draft has parted from the source. -/
structure Keeps (b : Overlay) (source volume : Text) (s : Draft) : Prop where
  spells : b.Spells (volume ++ source) volume.length s.text
  diverged_eq : b.diverged = s.parted

variable {b : Overlay} {source volume t : Text} {s : Draft} {e : Edit}

theorem ofSource_keeps (source volume : Text) :
    (ofSource source (volume ++ source) volume.length).Keeps source volume ⟨[], false⟩ where
  spells := by
    have hspells := ofSource_spells (volume ++ source) volume.length
    rw [List.drop_left] at hspells
    exact hspells
  diverged_eq := rfl

namespace Keeps

theorem tail_eq (h : b.Keeps source volume s) : b.source.toList = source := by
  rw [h.spells.source_eq, List.drop_left]

/-- There is always a place for one more character. -/
theorem tryAppend_eq (h : b.Keeps source volume s) (c : Char) :
    b.tryAppend c = .ok (b.append c) := by
  rw [tryAppend_of_cursor h.spells.cursor_eq, append_of_cursor h.spells.cursor_eq]

/-- An overlay takes slots of its own at the first character that leaves the source. -/
theorem diverged_append_eq (h : b.Keeps source volume s) (c : Char) :
    (b.append c).diverged = (s.parted || !(s.text ++ [c]).isPrefixOf source) := by
  cases hparted : s.parted with
  | true =>
      rw [Bool.true_or]
      exact diverged_append (h.diverged_eq.trans hparted) c
  | false =>
      rw [Bool.false_or]
      cases hbegins : (s.text ++ [c]).isPrefixOf source with
      | true =>
          have hshares : b.Shares (volume ++ source) volume.length s.text :=
            ⟨h.spells, h.diverged_eq.trans hparted⟩
          refine (hshares.append ?_).shared
          rw [List.drop_left]
          exact List.isPrefixOf_iff_prefix.1 hbegins
      | false =>
          -- A shared overlay would have written a beginning of its source.
          by_contra hshared
          have hprefix := (h.spells.append c).isPrefix (Bool.eq_false_iff.2 hshared)
          rw [List.drop_left, ← List.isPrefixOf_iff_prefix, hbegins] at hprefix
          cases hprefix

/-- A text can be put in front exactly when the overlay has diverged. -/
theorem prepend_cases (h : b.Keeps source volume s) (t : Text) :
    s.parted = false ∧ b.prepend t = .error .prependShared ∨
      s.parted = true ∧ ∃ b', b.prepend t = .ok b' ∧ b'.diverged = true := by
  rw [← h.diverged_eq, diverged, Overlay.prepend]
  cases b.slots with
  | none => exact .inl ⟨rfl, rfl⟩
  | some slots => exact .inr ⟨rfl, _, rfl, rfl⟩

/-- An edit of the overlay is the same edit of the draft. -/
theorem edit (h : b.Keeps source volume s) (he : s.Allows e) :
    (b.edit e).Keeps source volume (s.edit source e) := by
  cases e with
  | append c =>
      have hedit : b.edit (.append c) = b.append c := by
        rw [Overlay.edit, tryEdit, h.tryAppend_eq]
        rfl
      rw [hedit]
      exact ⟨h.spells.append c, h.diverged_append_eq c⟩
  | moveTo cursor => exact ⟨h.spells.moveTo he, h.diverged_eq⟩
  | prepend t =>
      have hspells := h.spells.prepend t
      rw [h.diverged_eq] at hspells
      rw [Overlay.edit, tryEdit, Draft.edit]
      rcases h.prepend_cases t with ⟨hparted, hrefused⟩ | ⟨hparted, b', htaken, hdiverged⟩
      · rw [hrefused, hparted]
        exact h
      · rw [hparted, if_pos rfl, htaken] at hspells ⊢
        exact ⟨hspells, hdiverged⟩

/-- A run of edits keeps the overlay on its draft. -/
theorem foldl {es : List Edit} (h : b.Keeps source volume s) (hes : s.AllowsAll source es) :
    (es.foldl Overlay.edit b).Keeps source volume (es.foldl (Draft.edit source) s) := by
  induction es generalizing b s with
  | nil => exact h
  | cons e es ih => exact ih (h.edit hes.1) hes.2

/-! ## What the overlay answers -/

theorem charAt_eq (h : b.Keeps source volume s) {i : Nat} (hi : i < s.text.length) :
    b.charAt i = .ok s.text[i] := by
  have hchar : b.charAt? i = some s.text[i] := by
    rw [h.spells.charAt?_eq hi, List.getElem?_eq_getElem hi]
  rw [charAt, place?, Text.index?_natCast, Option.bind_some, hchar]

theorem ownWritten_eq (h : b.Keeps source volume s) :
    b.ownWritten = if s.parted then .ok s.text else .error .writtenShared := by
  rw [ownWritten, h.diverged_eq, h.spells.written_eq]

theorem text_eq (h : b.Keeps source volume s) : b.text = volume ++ s.text := by
  rw [h.spells.text_eq, List.take_left]

theorem isPrefix (h : b.Keeps source volume s) (hparted : s.parted = false) :
    s.text <+: source := by
  have hprefix := h.spells.isPrefix (h.diverged_eq.trans hparted)
  rwa [List.drop_left] at hprefix

end Keeps

/-- After any edits that move the cursor back at most, an overlay answers as the draft under the same
edits does. Its cursor counts the characters of the draft, its text is the volume and the draft, and
below the cursor it holds the characters of the draft. It has diverged exactly when the draft has
parted; until then the draft is a beginning of the source, and the overlay refuses both to be written
in front of, which leaves it as it is, and to show what it has written of its own. Afterwards it does
neither. It always has a place for one more character. -/
theorem edited_answers (source volume : Text) (es : List Edit)
    (h : Draft.AllowsAll source ⟨[], false⟩ es) :
    (edited source volume es).cursor = (Draft.edited source es).text.length ∧
      (edited source volume es).text = volume ++ (Draft.edited source es).text ∧
      (∀ i (hi : i < (Draft.edited source es).text.length),
        (edited source volume es).charAt i = .ok (Draft.edited source es).text[i]) ∧
      (∀ c, ∃ b, (edited source volume es).tryAppend c = .ok b) ∧
      (edited source volume es).diverged = (Draft.edited source es).parted ∧
      ((Draft.edited source es).parted = true →
        (edited source volume es).ownWritten = .ok (Draft.edited source es).text ∧
          ∀ t, ∃ b, (edited source volume es).prepend t = .ok b) ∧
      ((Draft.edited source es).parted = false →
        (Draft.edited source es).text <+: source ∧
          (edited source volume es).ownWritten = .error .writtenShared ∧
          ∀ t, (edited source volume es).prepend t = .error .prependShared ∧
            (edited source volume es).edit (.prepend t) = edited source volume es) := by
  have hkeeps : (edited source volume es).Keeps source volume (Draft.edited source es) :=
    (ofSource_keeps source volume).foldl h
  refine ⟨hkeeps.spells.cursor_eq, hkeeps.text_eq, fun i hi => hkeeps.charAt_eq hi,
    fun c => ⟨_, hkeeps.tryAppend_eq c⟩, hkeeps.diverged_eq, fun hparted => ?_, fun hparted => ?_⟩
  · refine ⟨by rw [hkeeps.ownWritten_eq, if_pos hparted], fun t => ?_⟩
    rcases hkeeps.prepend_cases t with ⟨hnot, -⟩ | ⟨-, b', htaken, -⟩
    · rw [hparted] at hnot
      cases hnot
    · exact ⟨b', htaken⟩
  · refine ⟨hkeeps.isPrefix hparted, ?_, fun t => ?_⟩
    · rw [hkeeps.ownWritten_eq, hparted]
      rfl
    · rcases hkeeps.prepend_cases t with ⟨-, hrefused⟩ | ⟨hyes, -⟩
      · refine ⟨hrefused, ?_⟩
        rw [Overlay.edit, tryEdit, hrefused]
        rfl
      · rw [hparted] at hyes
        cases hyes

/-- An overlay of `abc` that diverges at its second character, is cut back to the first, and takes a
text in front of it: what is left over behind the cursor is written over. -/
theorem edited_answers_left_over :
    (Draft.mk [] false).AllowsAll "abc".toList
        [.append 'a', .append 'x', .append 'y', .moveTo 1, .prepend ".\\".toList, .append 'z'] ∧
      (edited "abc".toList "C:".toList
        [.append 'a', .append 'x', .append 'y', .moveTo 1, .prepend ".\\".toList,
          .append 'z']).text = "C:.\\az".toList ∧
      (edited "abc".toList "C:".toList
        [.append 'a', .append 'x', .append 'y', .moveTo 1, .prepend ".\\".toList,
          .append 'z']).charAt 3 = .ok 'z' := by
  have hallowed : (Draft.mk [] false).AllowsAll "abc".toList
      [.append 'a', .append 'x', .append 'y', .moveTo 1, .prepend ".\\".toList, .append 'z'] := by
    decide
  obtain ⟨-, htext, hchar, -⟩ := edited_answers "abc".toList "C:".toList _ hallowed
  exact ⟨hallowed, htext, hchar 3 (by decide)⟩

end Overlay

end PathAlgebra
