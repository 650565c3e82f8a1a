import PathAlgebra.Volume
import PathAlgebra.Overlay

/-!
# Cleaning

Cleaning shortens a path by its text alone: repeated separators count once, `.` elements go, and
a `..` element goes together with the element before it. At a root a `..` has nothing to remove
and goes; in front of a relative path it stays. The volume keeps its place and separators become
native.

`sweep` runs over the elements of the path and writes the result into an overlay. Its floor is
where a `..` stops erasing: the root, or the end of the leading `..` elements. A Windows path
without a volume then passes `shield`: when the overlay has diverged, an element with `:` or a
leading `\??` may have come to the front from inside the path, and a `.` element is put before it
so that it is not read as a volume or as the device root.
-/

set_option autoImplicit false

namespace PathAlgebra

/-- A sweep over the elements of a path: the overlay, and the cursor that `..` does not erase
past. -/
structure Sweep where
  out : Overlay
  floor : Nat

namespace Dialect

/-- The position of the last separator before the cursor, or the floor if there is none above
it. The last character written is erased in any case. -/
def lastBreak (d : Dialect) (b : Overlay) (floor : Nat) : Nat → Nat
  | 0 => 0
  | i + 1 =>
      if i > floor && !(b.charAt? i).any d.isSep then d.lastBreak b floor i else i

/-- A separator, unless the cursor stands where the first element starts. -/
def separate (d : Dialect) (start : Nat) (b : Overlay) : Overlay :=
  if b.cursor == start then b else b.append d.sep

/-- One element of the path. The first element of a rooted path is written after the root
separator. -/
def sweepElement (d : Dialect) (rooted : Bool) (s : Sweep) (e : Text) : Sweep :=
  if e = [] ∨ e = ['.'] then s
  else if e = ['.', '.'] then
    if s.out.cursor > s.floor then
      { s with out := s.out.moveTo (d.lastBreak s.out s.floor s.out.cursor.toNat) }
    else if rooted then s
    else
      let out := (d.separate 0 s.out).appendText ['.', '.']
      ⟨out, out.cursor.toNat⟩
  else
    { s with out := (d.separate (if rooted then 1 else 0) s.out).appendText e }

/-- The sweep before its first element: a root separator is written if the tail has one. -/
def startSweep (d : Dialect) (p : Text) : Sweep :=
  let b := Overlay.ofSource (d.tail p) p (d.volumeLength p)
  if d.isRooted (d.tail p) then ⟨b.append d.sep, 1⟩ else ⟨b, 0⟩

/-- The overlay after the elements of the tail, with `.` for an empty result. -/
def sweep (d : Dialect) (p : Text) : Overlay :=
  let t := d.tail p
  let out := ((t.splitOnP d.isSep).foldl (d.sweepElement (d.isRooted t)) (d.startSweep p)).out
  if out.cursor == 0 then out.append '.' else out

/-- What has to stand before a result so that its front is not read as a volume or as the device
root. -/
def guardFor (d : Dialect) (t : Text) : Text :=
  if (t.takeWhile fun c => !d.isSep c).contains ':' then ['.', d.sep]
  else
    match t with
    | c :: '?' :: '?' :: _ => if d.isSep c then [d.sep, '.'] else []
    | _ => []

/-- The overlay with its guard. Only a Windows path without a volume whose overlay has diverged
takes one. -/
def shield (d : Dialect) (b : Overlay) : Overlay :=
  match d with
  | posix => b
  | windows =>
      if b.volumeEnd == 0 then (b.prepend (windows.guardFor b.written)).toOption.getD b
      else b

/-- The shortest path equivalent to a path by its text alone. -/
def clean (d : Dialect) (p : Text) : Text :=
  if d.tail p = [] then
    if (d.volume p).isShare then d.fromSlash p else p ++ ['.']
  else d.fromSlash (d.shield (d.sweep p)).text

end Dialect

end PathAlgebra
