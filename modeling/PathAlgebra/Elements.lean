import PathAlgebra.Volume

/-!
# Elements and normal forms

The elements of a path are the runs between separators, empty runs and `.` aside. Resolving them
is a stack discipline: each element goes on the stack, and a `..` takes off the element below it
unless that is itself a `..`. With nothing to take off, a `..` is dropped at a root and stays
elsewhere. The normal form of a path writes the resolved elements with native separators.
-/

set_option autoImplicit false

namespace PathAlgebra

/-- The element that names the parent directory. -/
def parentElement : Text := ['.', '.']

/-- The stack, newest element first, after one more element. -/
def pushElement (rooted : Bool) (stack : List Text) (e : Text) : List Text :=
  if e = parentElement then
    match stack with
    | [] => if rooted then [] else [parentElement]
    | top :: rest => if top = parentElement then parentElement :: stack else rest
  else e :: stack

/-- The elements that are left when each `..` has taken off what it can. -/
def resolve (rooted : Bool) (es : List Text) : List Text :=
  (es.foldl (pushElement rooted) []).reverse

namespace Dialect

/-- The elements of a text: its runs between separators that are not empty and not `.`. -/
def elements (d : Dialect) (t : Text) : List Text :=
  (t.splitOnP d.isSep).filter fun e => e ≠ [] ∧ e ≠ ['.']

/-- A list of elements as a text, with a separator in front when it is rooted; `.` when that
would be empty. -/
def writeElements (d : Dialect) (rooted : Bool) (es : List Text) : Text :=
  match (if rooted then [d.sep] else []) ++ [d.sep].intercalate es with
  | [] => ['.']
  | t => t

/-- The normal form of a text without a volume. -/
def normalForm (d : Dialect) (t : Text) : Text :=
  d.writeElements (d.isRooted t) (resolve (d.isRooted t) (d.elements t))

end Dialect

end PathAlgebra
