import PathAlgebra.Clean
import PathAlgebra.Text.LowerCase

/-!
# Relative paths

The path that leads from a base to a target, by their text alone. Both are cleaned and their
common leading elements dropped; what is left of the base is climbed with one `..` per element,
and what is left of the target is appended. There is no such path when the two start at
different roots, or when the base goes on with `..`, since the way back from an unnamed parent is
not known.

Names are compared exactly under the POSIX dialect and without letter case under the Windows
dialect. Two cleaned paths that differ as texts may still have equal elements throughout, a share
against the same share with its root separator for one; `firstDifference` then has no answer.
-/

set_option autoImplicit false

namespace PathAlgebra

/-- Why a target has no path from a base. -/
inductive RelativeError where
  | unrelated (base target : Text)
  | noDifference (base target : Text)
  deriving DecidableEq

/-- The wording of the reason. -/
def RelativeError.message : RelativeError → Text
  | unrelated base target =>
      "Rel: can't make ".toList ++ target ++ " relative to ".toList ++ base
  | noDifference base target =>
      "Rel: no element tells ".toList ++ target ++ " from ".toList ++ base

namespace Dialect

/-- Whether two names are the same name. -/
def sameWord : Dialect → Text → Text → Bool
  | posix, a, b => a == b
  | windows, a, b => a.lowerCase == b.lowerCase

/-- The first element of a native text. -/
def firstElement (d : Dialect) (t : Text) : Text := t.takeWhile fun c => c != d.sep

/-- The part of a native text after its first element, separator included. -/
def afterFirst (d : Dialect) (t : Text) : Text := t.dropWhile fun c => c != d.sep

theorem afterFirst_length_le (d : Dialect) (t : Text) : (d.afterFirst t).length ≤ t.length :=
  (List.dropWhile_sublist _).length_le

/-- The two texts from their first differing elements on; none when both are used up with equal
elements. -/
def firstDifference (d : Dialect) (base target : Text) : Option (Text × Text) :=
  if d.sameWord (d.firstElement target) (d.firstElement base) then
    match _hb : d.afterFirst base, _ht : d.afterFirst target with
    | [], [] => none
    | [], _ :: target' => d.firstDifference [] target'
    | _ :: base', [] => d.firstDifference base' []
    | _ :: base', _ :: target' => d.firstDifference base' target'
  else some (base, target)
  termination_by base.length + target.length
  decreasing_by
    all_goals
      have hbase := d.afterFirst_length_le base
      have htarget := d.afterFirst_length_le target
      simp_all only [List.length_cons, List.length_nil]
      omega

/-- The part of a cleaned base that is compared: nothing for `.`, and the root for a share with
nothing after it. -/
def relativeBase (d : Dialect) (base : Text) : Text :=
  match (d.clean base).drop (d.volumeLength base) with
  | ['.'] => []
  | [] => if (d.volume base).isShare then [d.sep] else []
  | t => t

/-- The part of a cleaned target that is compared. -/
def relativeTarget (d : Dialect) (target : Text) : Text :=
  (d.clean target).drop (d.volumeLength target)

/-- The way from one text to another whose first elements differ. -/
def ascend (d : Dialect) (base target : Text) : Text :=
  match base with
  | [] => target
  | _ =>
      ['.', '.'] ++ (List.replicate (base.count d.sep) [d.sep, '.', '.']).flatten ++
        if target = [] then [] else d.sep :: target

/-- The path from a base to a target. -/
def rel (d : Dialect) (base target : Text) : Except RelativeError Text :=
  if d.sameWord (d.clean target) (d.clean base) then .ok ['.']
  else
    let b := d.relativeBase base
    let t := d.relativeTarget target
    if (b.head? == some d.sep) != (t.head? == some d.sep) ||
        !d.sameWord (d.volumeName base) (d.volumeName target) then
      .error (.unrelated base target)
    else
      match d.firstDifference b t with
      | none => .error (.noDifference base target)
      | some (b, t) =>
          if d.firstElement b = ['.', '.'] then .error (.unrelated base target)
          else .ok (d.ascend b t)

end Dialect

end PathAlgebra
