import PathAlgebra.Decimal.Shortest
import PathAlgebra.Text.Quoted

/-!
# Values

The values that a caller can hand over where the name of an operating system is asked for, and
the text that an error message shows for them.
-/

set_option autoImplicit false

namespace PathAlgebra

/-- A value of any kind. The entries of a record keep their order. -/
inductive Value where
  | null
  | bool (b : Bool)
  | int (n : Int)
  | real (x : Float)
  | text (t : Text)
  | list (items : List Value)
  | record (entries : List (Text × Value))

namespace Value

/-- Reals are written without an exponent from 10⁻⁴ up to 10¹⁶, and with `e`, a sign and at least
two digits elsewhere. -/
def realFormat : DecimalFormat := ⟨-4, 15, 'e', 2⟩

/-- Texts with a comma and a space between them. -/
def commaSeparated (ts : List Text) : Text := [',', ' '].intercalate ts

mutual

/-- The text of a value. -/
def describe : Value → Text
  | null => "None".toList
  | bool true => "True".toList
  | bool false => "False".toList
  | int n => (toString n).toList
  | real x => Decimal.renderFloat realFormat x
  | text t => t.quoted
  | list items => '[' :: commaSeparated (describeItems items) ++ [']']
  | record entries => '\x7b' :: commaSeparated (describeEntries entries) ++ ['\x7d']

/-- The texts of the items of a list. -/
def describeItems : List Value → List Text
  | [] => []
  | v :: vs => describe v :: describeItems vs

/-- The texts of the entries of a record. -/
def describeEntries : List (Text × Value) → List Text
  | [] => []
  | (key, v) :: es => (key.quoted ++ [':', ' '] ++ describe v) :: describeEntries es

end

end Value

end PathAlgebra
