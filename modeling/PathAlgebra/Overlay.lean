import PathAlgebra.Text.Basic

/-!
# Overlays

An overlay is a text under construction that shares its characters with a given source for as
long as it is a beginning of that source. A cursor counts the characters written. The first
character that differs from the source makes the overlay diverge: it takes a copy of the whole
source into slots of its own and writes there from then on. Moving the cursor back erases;
the slots at and after the cursor keep what they held.

The cursor may be set anywhere. A negative one counts from the end of the characters, and one left
of them all has no place to write to.

`written` is the text under construction in either representation. An overlay whose cursor lies
within its characters (`Valid`) has written as many characters as its cursor says
(`cursor_eq_length`) and appends as a list does (`written_append`).
-/

set_option autoImplicit false

namespace PathAlgebra

/-- A text under construction over the characters of `source`. The finished text is `whole` up to
the end of the volume, then what is written. -/
structure Overlay where
  source : Array Char
  whole : Text
  volumeEnd : Int
  slots : Option (Array Char)
  cursor : Int

/-- A request that an overlay refuses. -/
inductive OverlayError where
  | prependShared
  | writtenShared
  | noSlot
  | noSlotToWrite
  | noSourceCharacter
  deriving DecidableEq

/-- The wording of a refusal. -/
def OverlayError.message : OverlayError → Text
  | prependShared => "prepend() called before the buffer diverged".toList
  | writtenShared => "written() called before the buffer diverged".toList
  | noSlot => "list index out of range".toList
  | noSlotToWrite => "list assignment index out of range".toList
  | noSourceCharacter => "string index out of range".toList

namespace Overlay

/-- The empty overlay of a source. -/
def ofSource (source whole : Text) (volumeEnd : Int) : Overlay :=
  ⟨source.toArray, whole, volumeEnd, none, 0⟩

/-- An overlay with slots of its own. -/
def diverged (b : Overlay) : Bool := b.slots.isSome

/-- The characters that the overlay stands on: its slots, or else its source. -/
def base (b : Overlay) : Array Char := b.slots.getD b.source

/-- The characters written so far. -/
def written (b : Overlay) : Text := Text.upTo b.base.toList b.cursor

/-- The slots with one character written at position `i`, or at the end when `i` is past it. -/
def writeAt (slots : Array Char) (i : Nat) (c : Char) : Array Char :=
  if h : i < slots.size then slots.set i c else slots.push c

/-- The position that a signed index names. -/
def place? (b : Overlay) (i : Int) : Option Nat := Text.index? b.base.size i

/-- The overlay with one more character at a position. The source is shared as long as it holds
this very character there. -/
def appendAt (b : Overlay) (i : Nat) (c : Char) : Overlay :=
  match b.slots with
  | none =>
      if b.source[i]? == some c then { b with cursor := b.cursor + 1 }
      else { b with slots := some (writeAt b.source i c), cursor := b.cursor + 1 }
  | some slots => { b with slots := some (writeAt slots i c), cursor := b.cursor + 1 }

/-- The overlay with one more character, or the reason why it has no place for it. -/
def tryAppend (b : Overlay) (c : Char) : Except OverlayError Overlay :=
  match b.place? b.cursor with
  | some i => .ok (b.appendAt i c)
  | none => .error (if b.diverged then .noSlotToWrite else .noSourceCharacter)

/-- The overlay with one more character. Without a place for it the overlay stays as it is. -/
def append (b : Overlay) (c : Char) : Overlay :=
  match b.place? b.cursor with
  | some i => b.appendAt i c
  | none => b

/-- The overlay with the characters of a text added in order. -/
def appendText (b : Overlay) (t : Text) : Overlay := t.foldl append b

/-- The overlay with its cursor moved. -/
def moveTo (b : Overlay) (cursor : Int) : Overlay := { b with cursor := cursor }

/-- The character at a position, written or left over. -/
def charAt? (b : Overlay) (i : Nat) : Option Char := b.base[i]?

/-- The character at a signed index, or the reason why there is none. -/
def charAt (b : Overlay) (i : Int) : Except OverlayError Char :=
  match (b.place? i).bind b.charAt? with
  | some c => .ok c
  | none => .error (if b.diverged then .noSlot else .noSourceCharacter)

/-- The characters written so far, for an overlay that has diverged. -/
def ownWritten (b : Overlay) : Except OverlayError Text :=
  if b.diverged then .ok b.written else .error .writtenShared

/-- The overlay with a text put in front of its own slots. -/
def prepend (b : Overlay) (t : Text) : Except OverlayError Overlay :=
  match b.slots with
  | none => .error .prependShared
  | some slots =>
      .ok { b with slots := some (t.toArray ++ slots), cursor := b.cursor + t.length }

/-- The finished text: the volume, then what is written. Before divergence both are read off
`whole`. -/
def text (b : Overlay) : Text :=
  if b.diverged then b.whole.upTo b.volumeEnd ++ b.written
  else b.whole.upTo (b.volumeEnd + b.cursor)

/-- An overlay whose cursor lies within its characters. -/
def Valid (b : Overlay) : Prop := 0 ≤ b.cursor ∧ b.cursor ≤ b.base.size

theorem ofSource_valid (source whole : Text) (n : Int) : (ofSource source whole n).Valid :=
  ⟨Int.le_refl 0, Int.natCast_nonneg _⟩

@[simp] theorem written_ofSource (source whole : Text) (n : Int) :
    (ofSource source whole n).written = [] := by
  simp [ofSource, written, Text.upTo, Text.position]

/-- The cursor of a valid overlay as a count. -/
theorem Valid.cursor_eq {b : Overlay} (h : b.Valid) :
    ∃ n : Nat, b.cursor = n ∧ n ≤ b.base.size :=
  ⟨b.cursor.toNat, by have := h.1; omega, by have := h.2; omega⟩

theorem written_of_cursor {b : Overlay} {n : Nat} (h : b.cursor = n) :
    b.written = b.base.toList.take n := by
  rw [written, h, Text.upTo_natCast]

/-- The cursor counts the characters written. -/
theorem cursor_eq_length {b : Overlay} (h : b.Valid) : b.cursor = b.written.length := by
  obtain ⟨n, hn, hsize⟩ := h.cursor_eq
  rw [written_of_cursor hn, hn, List.length_take, Array.length_toList, Nat.min_eq_left hsize]

/-- At a cursor that is a count there is always a place for the next character. -/
theorem tryAppend_of_cursor {b : Overlay} {n : Nat} (h : b.cursor = n) (c : Char) :
    b.tryAppend c = .ok (b.appendAt n c) := by
  rw [tryAppend, place?, h, Text.index?_natCast]

theorem append_of_cursor {b : Overlay} {n : Nat} (h : b.cursor = n) (c : Char) :
    b.append c = b.appendAt n c := by
  rw [append, place?, h, Text.index?_natCast]

@[simp] theorem cursor_appendAt (b : Overlay) (i : Nat) (c : Char) :
    (b.appendAt i c).cursor = b.cursor + 1 := by
  unfold appendAt
  split
  · split <;> rfl
  · rfl

/-- One character written at the end of the first `i`. -/
theorem take_writeAt {slots : Array Char} {i : Nat} (h : i ≤ slots.size) (c : Char) :
    (writeAt slots i c).toList.take (i + 1) = slots.toList.take i ++ [c] := by
  unfold writeAt
  split
  · next hi =>
    rw [Array.toList_set, List.take_set, List.take_add_one,
      List.getElem?_eq_getElem (by simpa using hi)]
    simp [Nat.min_eq_left h]
  · next hi =>
    obtain rfl : i = slots.size := by omega
    rw [Array.toList_push, List.take_of_length_le (by simp), List.take_of_length_le (by simp)]

/-- One more character after the first `i` characters of the overlay. -/
theorem take_base_appendAt {b : Overlay} {i : Nat} (h : i ≤ b.base.size) (c : Char) :
    (b.appendAt i c).base.toList.take (i + 1) = b.base.toList.take i ++ [c] := by
  unfold base at h
  unfold appendAt
  split
  · next hslots =>
    rw [hslots] at h
    split
    -- The source goes on with this very character: it is shared.
    · next hc =>
      have hc : b.source[i]? = some c := by simpa using hc
      simp only [base, hslots, Option.getD_none, List.take_add_one, Array.getElem?_toList, hc,
        Option.toList_some]
    -- The source goes on otherwise: its copy takes the character.
    · simp only [base, hslots, Option.getD_none, Option.getD_some]
      exact take_writeAt h c
  · next slots hslots =>
    rw [hslots] at h
    simp only [base, hslots, Option.getD_some]
    exact take_writeAt h c

theorem le_size_base_appendAt {b : Overlay} {i : Nat} (h : i ≤ b.base.size) (c : Char) :
    i + 1 ≤ (b.appendAt i c).base.size := by
  have := congrArg List.length (take_base_appendAt h c)
  simp only [List.length_take, List.length_append, Array.length_toList, List.length_cons,
    List.length_nil] at this
  omega

/-- Appending adds one character to what is written. -/
theorem written_append {b : Overlay} (h : b.Valid) (c : Char) :
    (b.append c).written = b.written ++ [c] := by
  obtain ⟨n, hn, hsize⟩ := h.cursor_eq
  have hn' : (b.appendAt n c).cursor = (n + 1 : Nat) := by rw [cursor_appendAt, hn]; rfl
  rw [append_of_cursor hn, written_of_cursor hn', written_of_cursor hn, take_base_appendAt hsize]

theorem Valid.append {b : Overlay} (h : b.Valid) (c : Char) : (b.append c).Valid := by
  obtain ⟨n, hn, hsize⟩ := h.cursor_eq
  have := le_size_base_appendAt hsize c
  rw [Valid, append_of_cursor hn, cursor_appendAt, hn]
  omega

/-- Moving the cursor back keeps the first characters. -/
theorem written_moveTo {b : Overlay} {n : Nat} (h : (n : Int) ≤ b.cursor) :
    (b.moveTo n).written = b.written.take n := by
  obtain ⟨m, hm⟩ : ∃ m : Nat, b.cursor = m := ⟨b.cursor.toNat, by omega⟩
  have hle : n ≤ m := by omega
  rw [written_of_cursor hm, written_of_cursor (b := b.moveTo n) rfl, List.take_take,
    Nat.min_eq_left hle]
  rfl

/-- Below the cursor the overlay holds what is written. -/
theorem charAt?_eq_written {b : Overlay} {i : Nat} (h : (i : Int) < b.cursor) :
    b.charAt? i = b.written[i]? := by
  obtain ⟨m, hm⟩ : ∃ m : Nat, b.cursor = m := ⟨b.cursor.toNat, by omega⟩
  rw [charAt?, written_of_cursor hm, List.getElem?_take_of_lt (by omega), Array.getElem?_toList]

/-- A text put in front of an overlay's own slots stands before what is written. -/
theorem written_prepend {b b' : Overlay} {t : Text} (hv : b.Valid) (h : b.prepend t = .ok b') :
    b'.written = t ++ b.written := by
  obtain ⟨n, hn, -⟩ := hv.cursor_eq
  unfold prepend at h
  split at h
  · simp at h
  · next slots hslots =>
    simp only [Except.ok.injEq] at h
    subst h
    rw [written_of_cursor hn, written_of_cursor (n := t.length + n) (by simp only [hn]; omega)]
    simp [base, hslots, List.take_length_add_append]

theorem Valid.prepend {b b' : Overlay} {t : Text} (hv : b.Valid) (h : b.prepend t = .ok b') :
    b'.Valid := by
  obtain ⟨h0, hsize⟩ := hv
  unfold Overlay.prepend at h
  split at h
  · simp at h
  · next slots hslots =>
    simp only [Except.ok.injEq] at h
    subst h
    simp only [base, hslots, Option.getD_some] at hsize
    simp only [Valid, base, Option.getD_some, Array.size_append, List.size_toArray]
    omega

/-- When the source is what follows the volume, the finished text is the volume and what is
written. -/
theorem text_eq {b : Overlay} (hv : b.Valid) {n : Nat} (hn : b.volumeEnd = n)
    (h : b.whole.drop n = b.source.toList) : b.text = b.whole.take n ++ b.written := by
  obtain ⟨m, hm, -⟩ := hv.cursor_eq
  unfold text diverged
  rw [written_of_cursor hm, hn, hm]
  cases hslots : b.slots with
  | some slots => rw [if_pos (by simp), Text.upTo_natCast]
  | none =>
      rw [if_neg (by simp), ← Int.natCast_add, Text.upTo_natCast, base, hslots,
        Option.getD_none, ← h, List.take_add]

theorem Valid.moveTo {b : Overlay} (h : b.Valid) {n : Nat} (hn : (n : Int) ≤ b.cursor) :
    (b.moveTo n).Valid :=
  ⟨Int.natCast_nonneg n, Int.le_trans hn h.2⟩

end Overlay

end PathAlgebra
