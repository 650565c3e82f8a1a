/-!
# Text

A path, a pattern and a name are lists of characters, so that every length, position and
comparison counts characters and orders them by code point. This module fixes the type, signed
positions, the cut at signed bounds (`upTo`, `slice`), and the two ends of the last run without a
separator (`lastRun`, `beforeLastRun`), which together give the text back
(`beforeLastRun_append_lastRun`).
-/

set_option autoImplicit false

namespace PathAlgebra

/-- A sequence of characters. -/
abbrev Text := List Char

namespace Text

/-- A signed bound as a position in a text: a negative bound counts from the end. -/
def position (t : Text) (i : Int) : Nat := if i < 0 then (i + t.length).toNat else i.toNat

/-- A signed index among `n` characters: a negative index counts from the end, and none is left
of the first one. -/
def index? (n : Nat) (i : Int) : Option Nat :=
  if 0 ≤ i then some i.toNat else if 0 ≤ i + n then some (i + n).toNat else none

/-- The characters up to a signed bound. -/
def upTo (t : Text) (stop : Int) : Text := t.take (t.position stop)

/-- The characters from one signed bound up to another, none when the bounds cross. -/
def slice (t : Text) (start stop : Int) : Text := (t.upTo stop).drop (t.position start)

/-- The characters after the last one that `isSep` accepts. -/
def lastRun (isSep : Char → Bool) (t : Text) : Text :=
  (t.reverse.takeWhile fun c => !isSep c).reverse

/-- The characters up to and with the last one that `isSep` accepts. -/
def beforeLastRun (isSep : Char → Bool) (t : Text) : Text :=
  (t.reverse.dropWhile fun c => !isSep c).reverse

@[simp] theorem position_natCast (t : Text) (n : Nat) : t.position n = n := by
  have h : ¬ (n : Int) < 0 := by omega
  simp [position, h]

@[simp] theorem index?_natCast (n i : Nat) : index? n i = some i := by
  simp [index?]

@[simp] theorem upTo_natCast (t : Text) (n : Nat) : t.upTo n = t.take n := by
  rw [upTo, position_natCast]

theorem slice_natCast (t : Text) (m n : Nat) : t.slice m n = (t.take n).drop m := by
  rw [slice, upTo_natCast, position_natCast]

theorem beforeLastRun_append_lastRun (isSep : Char → Bool) (t : Text) :
    beforeLastRun isSep t ++ lastRun isSep t = t := by
  rw [beforeLastRun, lastRun, ← List.reverse_append, List.takeWhile_append_dropWhile,
    List.reverse_reverse]

theorem not_isSep_of_mem_lastRun {isSep : Char → Bool} {t : Text} {c : Char}
    (h : c ∈ lastRun isSep t) : isSep c = false := by
  have h' := List.mem_reverse.1 h
  have := List.all_takeWhile (p := fun c => !isSep c) (l := t.reverse)
  simpa using List.all_eq_true.1 this c h'

end Text

end PathAlgebra
