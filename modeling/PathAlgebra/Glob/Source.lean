import PathAlgebra.Text.Basic

/-!
# Sources of names

What expanding a pattern asks of a file system: whether a path is present, and the names in a
directory. A listing can fail, with a reason. A tree is a source given as data: it finds its
paths as they are written.
-/

set_option autoImplicit false

namespace PathAlgebra

/-- A file system as far as expansion asks it. -/
structure Source where
  present : Text → Bool
  list : Text → Except Text (List Text)

/-- Directories with the names in them, other files, and paths that cannot be listed. -/
structure Tree where
  dirs : List (Text × List Text)
  files : List Text
  unreadable : List Text

namespace Tree

/-- The names of a directory, or the reason why they cannot be had. -/
def list (t : Tree) (p : Text) : Except Text (List Text) :=
  if t.unreadable.contains p then .error "denied".toList
  else if t.files.contains p then .error "not a directory".toList
  else
    match t.dirs.lookup p with
    | some names => .ok names
    | none => .error "not found".toList

/-- The files and the directories of the tree are present. -/
def present (t : Tree) (p : Text) : Bool := t.files.contains p || (t.dirs.lookup p).isSome

/-- The tree as a source that finds its paths as they are written. -/
def source (t : Tree) : Source := ⟨t.present, t.list⟩

end Tree

end PathAlgebra
