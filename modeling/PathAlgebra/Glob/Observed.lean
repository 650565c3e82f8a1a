import PathAlgebra.Pattern.Match

/-!
# Observed results

A result of expansion together with what was asked of the source on the way, in order, and which
listings failed. An error keeps what was observed before it.
-/

set_option autoImplicit false

namespace PathAlgebra

/-- Something asked of a source, or a listing that failed and was ignored. -/
inductive Event where
  | lookup (path : Text)
  | listing (path : Text)
  | unreadable (path reason : Text)
  deriving DecidableEq

/-- The record of a failed listing. -/
def Event.report? : Event → Option Text
  | unreadable path reason =>
      some ("glob: ignoring unreadable directory ".toList ++ path.quoted ++ ": ".toList ++ reason)
  | _ => none

/-- A result and the events on the way to it. -/
structure Observed (α : Type) where
  result : Except Malformed α
  events : List Event

namespace Observed

variable {α β : Type}

/-- A result with nothing observed. -/
def ofExcept (r : Except Malformed α) : Observed α := ⟨r, []⟩

/-- A continuation runs on a good result; the events of both follow each other. -/
def andThen (x : Observed α) (f : α → Observed β) : Observed β :=
  match x.result with
  | .error e => ⟨.error e, x.events⟩
  | .ok a => ⟨(f a).result, x.events ++ (f a).events⟩

instance : Monad Observed where
  pure a := ofExcept (.ok a)
  bind := andThen

theorem pure_eq (a : α) : (pure a : Observed α) = ⟨.ok a, []⟩ := rfl

theorem bind_ok {x : Observed α} {a : α} (h : x.result = .ok a) (f : α → Observed β) :
    x >>= f = ⟨(f a).result, x.events ++ (f a).events⟩ := by
  show andThen x f = _
  simp [andThen, h]

theorem bind_error {x : Observed α} {e : Malformed} (h : x.result = .error e)
    (f : α → Observed β) : x >>= f = ⟨.error e, x.events⟩ := by
  show andThen x f = _
  simp [andThen, h]

end Observed

end PathAlgebra
