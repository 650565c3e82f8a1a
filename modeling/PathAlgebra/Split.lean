import PathAlgebra.Clean

/-!
# Splitting

A path is cut after its last separator into a directory part and a file part, and the two parts
give the path back (`split_append`). The volume always belongs to the directory part. The
directory of a path is its directory part cleaned, with the volume kept as written but for its
separators; the base name of a path is its last element.
-/

set_option autoImplicit false

namespace PathAlgebra

namespace Dialect

/-- The directory part and the file part of a path, cut after the last separator that follows
the volume. -/
def split (d : Dialect) (p : Text) : Text × Text :=
  (p.take (d.volumeLength p) ++ (d.tail p).beforeLastRun d.isSep, (d.tail p).lastRun d.isSep)

/-- The two parts of a path without the last character of the directory part: the separator
between them, when the path is absolute. -/
def splitAbs (d : Dialect) (p : Text) : Text × Text :=
  ((d.split p).1.dropLast, (d.split p).2)

/-- All but the last element of a path, cleaned. A share stands alone when nothing follows it. -/
def dirname (d : Dialect) (p : Text) : Text :=
  let dir := d.clean ((d.tail p).beforeLastRun d.isSep)
  if dir = ['.'] ∧ (d.volume p).isShare then d.volumeName p else d.volumeName p ++ dir

/-- A path without the separators at its end. -/
def trimEnd (d : Dialect) (p : Text) : Text := (p.reverse.dropWhile d.isSep).reverse

/-- The last element of a path: `.` for the empty path, and the separator where nothing but a
volume and separators is left. -/
def basename (d : Dialect) (p : Text) : Text :=
  if p = [] then ['.']
  else
    match (d.tail (d.trimEnd p)).lastRun d.isSep with
    | [] => [d.sep]
    | name => name

theorem split_append (d : Dialect) (p : Text) : (d.split p).1 ++ (d.split p).2 = p := by
  rw [split, List.append_assoc, Text.beforeLastRun_append_lastRun, tail,
    List.take_append_drop]

/-- Without a volume the directory is the directory part, cleaned. -/
theorem dirname_of_none {d : Dialect} {p : Text} (h : d.volume p = .none) :
    d.dirname p = d.clean (d.split p).1 := by
  have hlength : d.volumeLength p = 0 := by rw [volumeLength, h]; rfl
  have hname : d.volumeName p = [] := by
    rw [volumeName, hlength]
    rfl
  have hshare (dir : Text) : ¬ (dir = ['.'] ∧ (d.volume p).isShare = true) := by
    rintro ⟨-, hshare⟩
    rw [h] at hshare
    cases hshare
  rw [dirname, if_neg (hshare _), hname, split, hlength]
  rfl

end Dialect

end PathAlgebra
