import PathAlgebra.Text.Basic

/-!
# The two path dialects

A path is read under one of two syntaxes. The POSIX dialect has the separator `/` alone. The
Windows dialect writes `\` and reads `/` as well. A separator is native when the dialect writes
it; `fromSlash` turns slashes into native separators and `toSlash` turns them back.
-/

set_option autoImplicit false

namespace PathAlgebra

/-- The syntax that a path is read and written in. -/
inductive Dialect where
  | posix
  | windows
  deriving DecidableEq

/-- Either slash. -/
def isSlash (c : Char) : Bool := c == '\\' || c == '/'

namespace Dialect

/-- The separator that the dialect writes. -/
def sep : Dialect → Char
  | posix => '/'
  | windows => '\\'

/-- The characters that the dialect reads as separators. -/
def isSep : Dialect → Char → Bool
  | posix, c => c == '/'
  | windows, c => isSlash c

/-- A text of exactly one separator. -/
def isSepText (d : Dialect) : Text → Bool
  | [c] => d.isSep c
  | _ => false

/-- A text that starts with a separator. -/
def isRooted (d : Dialect) (t : Text) : Bool := t.head?.any d.isSep

/-- The text with each `/` written natively. -/
def fromSlash (d : Dialect) (t : Text) : Text :=
  t.map fun c => if c == '/' then d.sep else c

/-- The text with each native separator written `/`. -/
def toSlash (d : Dialect) (t : Text) : Text :=
  t.map fun c => if c == d.sep then '/' else c

@[simp] theorem isSep_sep (d : Dialect) : d.isSep d.sep = true := by
  cases d <;> rfl

@[simp] theorem fromSlash_length (d : Dialect) (t : Text) :
    (d.fromSlash t).length = t.length := by
  simp [fromSlash]

theorem fromSlash_posix (t : Text) : posix.fromSlash t = t := by
  have h : (fun c : Char => if c == '/' then posix.sep else c) = id := by
    funext c
    by_cases hc : c = '/' <;> simp [sep, hc]
  rw [fromSlash, h, List.map_id]

theorem toSlash_posix (t : Text) : posix.toSlash t = t := by
  have h : (fun c : Char => if c == posix.sep then '/' else c) = id := by
    funext c
    by_cases hc : c = '/' <;> simp [sep, hc]
  rw [toSlash, h, List.map_id]

/-- A text in native spelling holds no slash but the native one. -/
theorem slash_notMem_fromSlash (t : Text) : '/' ∉ windows.fromSlash t := by
  intro h
  obtain ⟨c, -, hc⟩ := List.mem_map.1 h
  by_cases h' : c = '/' <;> simp [sep, h'] at hc

end Dialect

end PathAlgebra
