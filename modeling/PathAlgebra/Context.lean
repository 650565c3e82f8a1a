import PathAlgebra.OsKind

/-!
# Contexts

A context fixes the operating system that path operations work for. An unknown system stands for
the one that the program runs on, when that is known. Contexts are values: two with the same
system are equal, none can be changed, and one that is saved and restored on the same platform is
the same context (`restore_save`).
-/

set_option autoImplicit false

namespace PathAlgebra

/-- The operating system that operations work for. -/
structure Context where
  kind : OsKind
  deriving DecidableEq

/-- A request to change a context. -/
inductive ContextError where
  | immutable
  deriving DecidableEq

/-- The wording of the refusal. -/
def ContextError.message : ContextError → Text
  | immutable => "PathSemantics is immutable".toList

namespace Context

/-- The context for a kind of system on a platform. -/
def ofKind (platform : Text) : OsKind → Context
  | .unknown => ⟨OsKind.ofPlatform platform⟩
  | k => ⟨k⟩

/-- The context that a value names. -/
def parse (platform : Text) (v : Value) : Except OsError Context :=
  (OsKind.parse v).map (ofKind platform)

/-- The dialect of the paths. -/
def dialect (c : Context) : Dialect := c.kind.dialect

/-- Setting or deleting an attribute is always refused. -/
def change (_ : Context) (_attribute : Text) : Except ContextError Context := .error .immutable

/-- The code that a context is saved as. -/
def save (c : Context) : Nat := c.kind.code

/-- The context that is restored from a code. -/
def restore (platform : Text) (code : Nat) : Except OsError Context :=
  parse platform (.int code)

/-- The context in words. -/
def describe (c : Context) : Text := "PathSemantics(".toList ++ c.kind.title.quoted ++ [')']

/-- The operations bound to a context, in words. -/
def describeOperations (c : Context) : Text :=
  "PathUtils(".toList ++ c.kind.title.quoted ++ [')']

/-- A context equals no plain value, not even the code of its own system. -/
def equalsValue (_ : Context) (_ : Value) : Bool := false

/-- The number of different contexts in a list. -/
def countDistinct (cs : List Context) : Nat := cs.eraseDups.length

theorem ofKind_ofKind (platform : Text) (k : OsKind) :
    ofKind platform (ofKind platform k).kind = ofKind platform k := by
  cases k with
  | unknown =>
      rw [ofKind]
      cases h : OsKind.ofPlatform platform <;> simp [ofKind, h]
  | linux => rfl
  | windows => rfl
  | darwin => rfl

/-- A context saved and restored on its platform is the same context. -/
theorem restore_save (platform : Text) (k : OsKind) :
    restore platform (ofKind platform k).save = .ok (ofKind platform k) := by
  rw [restore, save, parse, OsKind.parse_code]
  exact congrArg Except.ok (ofKind_ofKind platform k)

end Context

end PathAlgebra
