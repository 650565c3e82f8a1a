import PathAlgebra.Glob.Source

/-!
# Walking a tree

A system finds a path by walking: from the root or from the working directory, one element after
the other. An empty element and `.` stay where they are and `..` goes up, but only at a
directory; at the root `..` stays. Any other element has to be a name in the directory. Nothing
leads on from an element that is missing (`walkElements_append_none`): unlike cleaning, walking
does not let a `..` undo it.
-/

set_option autoImplicit false

namespace PathAlgebra

namespace Tree

/-- The path of a place, given by the names that lead to it from the root, innermost first. -/
def placePath (place : List Text) : Text := '/' :: ['/'].intercalate place.reverse

/-- The place that one element leads to from a place, when that is a directory. -/
def walkElement (t : Tree) (place : List Text) (e : Text) : Option (List Text) :=
  match t.dirs.lookup (placePath place) with
  | none => none
  | some names =>
      if e = [] ∨ e = ['.'] then some place
      else if e = ['.', '.'] then some place.tail
      else if names.contains e then some (e :: place)
      else none

/-- The place that elements lead to, one after the other. -/
def walkElements (t : Tree) (place : List Text) : List Text → Option (List Text)
  | [] => some place
  | e :: es => (t.walkElement place e).bind fun next => t.walkElements next es

/-- The greatest length of a path in bytes. -/
def pathLimit : Nat := 4095

/-- The place that a path leads to from a working directory. The empty path leads nowhere, and
neither does one that is too long. -/
def walk (t : Tree) (work : List Text) (p : Text) : Option (List Text) :=
  if p = [] ∨ pathLimit < p.foldl (fun n c => n + c.utf8Size) 0 then none
  else t.walkElements (if p.head? = some '/' then [] else work) (p.splitOnP (· == '/'))

/-- The tree as a source that finds its paths by walking. -/
def walkedSource (t : Tree) (work : List Text) : Source where
  present p := (t.walk work p).isSome
  list p :=
    match t.walk work p with
    | some place => t.list (placePath place)
    | none => .error "not found".toList

theorem walkElements_append (t : Tree) (place : List Text) (es es' : List Text) :
    t.walkElements place (es ++ es') =
      (t.walkElements place es).bind fun next => t.walkElements next es' := by
  induction es generalizing place with
  | nil => rfl
  | cons e es ih =>
      rw [List.cons_append, walkElements, walkElements]
      cases t.walkElement place e with
      | none => rfl
      | some next => exact ih next

/-- Nothing leads on from a missing element. -/
theorem walkElements_append_none {t : Tree} {place es : List Text}
    (h : t.walkElements place es = none) (es' : List Text) :
    t.walkElements place (es ++ es') = none := by
  rw [walkElements_append, h]
  rfl

end Tree

end PathAlgebra
