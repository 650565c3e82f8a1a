import PathAlgebra.Join
import PathAlgebra.Text.Quoted

/-!
# Cursors

A cursor walks over the parts of an absolute, clean path, one part between separators at a time;
the volume is not a part. `start` and `stop` are the bounds of the current part. `next` moves to
the following part, `reset` goes back to before the first one, and `replacePart` puts another
path in the place of the current part, as following a symbolic link does.

With `stop` as the end of what has been walked over, a successful `next` always moves it forward
(`stop_lt_stop_next`), so the parts ahead of a cursor are finitely many.
-/

set_option autoImplicit false

namespace PathAlgebra

/-- A path with the bounds of its current part. The stop bound is one below the start of the next
part and can be −1. -/
structure Cursor where
  dialect : Dialect
  path : Text
  start : Nat
  stop : Int
  volumeLength : Nat

/-- A copy of a cursor is refused: a cursor stands for one walk. -/
inductive CursorError where
  | notCopied
  deriving DecidableEq

/-- The wording of the refusal. -/
def CursorError.message : CursorError → Text
  | notCopied => "PathIterator cursors cannot be copied".toList

namespace Cursor

/-- The cursor before the first part. -/
def reset (c : Cursor) : Cursor :=
  { c with
    stop := c.dialect.volumeLength c.path
    volumeLength := c.dialect.volumeLength c.path }

/-- A cursor before the first part of a path. -/
def ofPath (d : Dialect) (p : Text) : Cursor := reset ⟨d, p, 0, 0, 0⟩

/-- The position of the first native separator from a position on, or the end of the path. -/
def breakFrom (c : Cursor) (i : Nat) : Nat :=
  i + ((c.path.drop i).takeWhile fun x => x != c.dialect.sep).length

/-- The start of the part after the current one. -/
def nextStart (c : Cursor) : Nat := (c.stop + 1).toNat

/-- Whether there is a part after the current one. -/
def hasNext (c : Cursor) : Bool := c.nextStart < c.path.length

/-- The cursor on the next part, or behind the path when there is none. -/
def next (c : Cursor) : Cursor :=
  { c with
    start := c.nextStart
    stop := if c.hasNext then c.breakFrom c.nextStart else c.nextStart }

/-- The current part. -/
def part (c : Cursor) : Text := c.path.slice c.start c.stop

/-- The path before the current part. -/
def left (c : Cursor) : Text := c.path.take c.start

/-- The path up to the end of the current part. -/
def leftPart (c : Cursor) : Text := c.path.slice 0 c.stop

/-- The path after the current part. -/
def right (c : Cursor) : Text := c.path.slice c.stop c.path.length

/-- The path from the current part on. -/
def rightPart (c : Cursor) : Text := c.path.drop c.start

/-- Whether the current part ends the path. -/
def isLast (c : Cursor) : Bool := c.stop == c.path.length

/-- The volume of the path. -/
def volumeName (c : Cursor) : Text := c.path.take c.volumeLength

/-- The path with another path in the place of the current part. An absolute one also replaces
what comes before. -/
def pathWith (c : Cursor) (p : Text) : Text :=
  if c.dialect.isAbs p then c.dialect.join [p, c.right]
  else c.dialect.join [c.left, p, c.right]

/-- The cursor with its current part replaced, and whether it starts over. It starts over when
the path before the part has changed or no part is left there; otherwise its next part is the
first one of the replacement. -/
def replacePart (c : Cursor) (p : Text) : Cursor × Bool :=
  let path := c.pathWith p
  if path.length ≤ c.start ∨ path.take c.start ≠ c.left then
    (({ c with path := path } : Cursor).reset, true)
  else ({ c with path := path, stop := c.start - 1 }, false)

/-- A walk that goes on stops further on. -/
theorem stop_lt_stop_next {c : Cursor} (h : c.hasNext = true) : c.stop < c.next.stop := by
  simp only [next, h, if_true, breakFrom, nextStart]
  omega

/-- The parts ahead of the cursor, and the cursor behind the path. -/
def remaining (c : Cursor) : List Text × Cursor :=
  if _h : c.hasNext then
    let (parts, last) := c.next.remaining
    (c.next.part :: parts, last)
  else ([], c.next)
  termination_by (c.path.length - c.stop).toNat
  decreasing_by
    have hstop := stop_lt_stop_next _h
    have hpath : c.next.path = c.path := rfl
    have hlt : c.nextStart < c.path.length := by simpa [hasNext] using _h
    unfold nextStart at hlt
    rw [hpath]
    omega

/-- The parts of a path. -/
def parts (d : Dialect) (p : Text) : List Text := (ofPath d p).remaining.1

/-- Copying is always refused. -/
def copy (_ : Cursor) : Except CursorError Cursor := .error .notCopied

/-- The cursor in words: the path and the two bounds. -/
def describe (c : Cursor) : Text :=
  "PathIterator(".toList ++ c.path.quoted ++ ", start=".toList ++ (toString c.start).toList ++
    ", end=".toList ++ (toString c.stop).toList ++ [')']

end Cursor

end PathAlgebra
