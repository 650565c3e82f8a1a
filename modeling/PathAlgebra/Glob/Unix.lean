import PathAlgebra.Glob.Expand
import PathAlgebra.Glob.Walk

/-!
# Expanding on a Unix system

`unixSource` is the part of a file system that every Unix system has in common: the root, its
device directory and the null device, and a working directory of which nothing is known.

A path of such a system has no null character. A text with one is not present, but a request to
list it is refused, and the refusal ends the expansion (`globUnix`): it is no directory that could
be left out. The pattern is still read first, so a malformed one is reported as such
(`globUnix_of_malformed`).
-/

set_option autoImplicit false

namespace PathAlgebra

/-- The working directory of a system of which nothing more is known: two levels below the root,
and named by no listing. -/
def unknownDirectory : List Text := ["work".toList, "home".toList]

/-- The root, its device directory and the null device, and the unknown working directory. -/
def unixTree : Tree where
  dirs := [
    ("/".toList, ["dev".toList]),
    ("/dev".toList, ["null".toList]),
    ("/home".toList, []),
    ("/home/work".toList, [])]
  files := ["/dev/null".toList]
  unreadable := []

/-- The part of a file system that every Unix system has in common. -/
def unixSource : Source := unixTree.walkedSource unknownDirectory

/-- Why expansion on a Unix system fails. -/
inductive UnixError where
  | malformed (e : Malformed)
  | nullCharacter
  deriving DecidableEq

/-- The wording of a failure. -/
def UnixError.message : UnixError → Text
  | malformed e => e.message
  | nullCharacter => "embedded null byte".toList

/-- Whether an event asks for the names in a text with a null character. -/
def Event.asksNull : Event → Bool
  | listing p => p.contains '\x00'
  | _ => false

/-- The paths of a Unix system that match a pattern. What leads to a request does not depend on
its answer, so a refused request is found among the events. -/
def Dialect.globUnix (d : Dialect) (pattern : Text) : Except UnixError (List Text) :=
  let seen := d.glob unixSource pattern
  if seen.events.any Event.asksNull then .error .nullCharacter
  else seen.result.mapError .malformed

/-- A pattern that is malformed at once is reported before the system is asked. -/
theorem Dialect.globUnix_of_malformed {d : Dialect} {pattern : Text} {e : Malformed}
    (h : d.matchName pattern [] = .error e) : d.globUnix pattern = .error (.malformed e) := by
  have hglob : d.glob unixSource pattern = .ofExcept (.error e) := by rw [glob, h]
  rw [globUnix, hglob]
  rfl

end PathAlgebra
