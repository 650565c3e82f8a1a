import PathAlgebra.Dialect
import PathAlgebra.Text.Blank
import PathAlgebra.Value

/-!
# Operating systems

The kinds of operating system whose paths are handled, and how one is named: by its code, or by
its name without regard to letter case and surrounding blanks, with `posix` as a second name for
Linux. Every kind is read from its own code and its own name (`parse_code`, `parse_name`).
-/

set_option autoImplicit false

namespace PathAlgebra

/-- A kind of operating system. -/
inductive OsKind where
  | unknown
  | linux
  | windows
  | darwin
  deriving DecidableEq

/-- A value that names no operating system. -/
inductive OsError where
  | invalid (value : Value)

/-- The wording of the complaint. -/
def OsError.message : OsError → Text
  | invalid value =>
      "Invalid OS type: ".toList ++ value.describe ++
        ". Expected 'linux', 'darwin', 'windows', 'posix' or 'unknown'.".toList

namespace OsKind

/-- All kinds in the order of their codes. -/
def all : List OsKind := [unknown, linux, windows, darwin]

/-- The code of a kind. -/
def code : OsKind → Nat
  | unknown => 0
  | linux => 1
  | windows => 2
  | darwin => 3

/-- The name of a kind, in lower case. -/
def name : OsKind → Text
  | unknown => ['u', 'n', 'k', 'n', 'o', 'w', 'n']
  | linux => ['l', 'i', 'n', 'u', 'x']
  | windows => ['w', 'i', 'n', 'd', 'o', 'w', 's']
  | darwin => ['d', 'a', 'r', 'w', 'i', 'n']

/-- The name of a kind, in upper case. -/
def upperName (k : OsKind) : Text := k.name.map Char.toUpper

/-- The name of a kind with a capital letter. -/
def title (k : OsKind) : Text := (k.name.take 1).map Char.toUpper ++ k.name.drop 1

/-- The kind with a code. -/
def ofCode? (n : Int) : Option OsKind := all.find? fun k => (k.code : Int) == n

/-- The kind with a name, in any letter case and between blanks. -/
def ofName? (t : Text) : Option OsKind :=
  let key := t.trim.lowerCase
  if key = ['p', 'o', 's', 'i', 'x'] then some linux else all.find? fun k => k.name == key

/-- The kind that a value names. -/
def parse (v : Value) : Except OsError OsKind :=
  let found :=
    match v with
    | .int n => ofCode? n
    | .text t => ofName? t
    | _ => none
  match found with
  | some k => .ok k
  | none => .error (.invalid v)

/-- The kind of a running system, by the name of its platform. -/
def ofPlatform (platform : Text) : OsKind :=
  if linux.name.isPrefixOf platform then linux
  else if platform = darwin.name then darwin
  else if platform = ['w', 'i', 'n', '3', '2'] then windows
  else unknown

/-- The dialect of a kind. An unknown system has the POSIX one. -/
def dialect : OsKind → Dialect
  | windows => .windows
  | _ => .posix

theorem parse_code (k : OsKind) : parse (.int k.code) = .ok k := by
  cases k <;> rfl

theorem parse_name (k : OsKind) : parse (.text k.name) = .ok k := by
  cases k <;> rfl

end OsKind

end PathAlgebra
