import PathAlgebra.Glob.Observed
import PathAlgebra.Glob.Source
import PathAlgebra.Join
import PathAlgebra.Split

/-!
# Expanding a pattern

Expansion lists the paths of a source that match a pattern. The pattern is read first, so that a
malformed one is an error before the source is asked. A pattern without special characters is
looked up as a path. Any other is split: its directory part is expanded in turn if it has special
characters, and the file part is matched against the names in each directory found. Names are in
code point order within a directory, and a directory that cannot be listed counts as empty.

The recursion ends because a directory part with special characters is shorter than its pattern
(`directoryPattern_length_lt`). A guard against a directory part that is the pattern again, which
would be expanded forever, is therefore left out here: it would refuse nothing. Expansion with the
guard is written out as `globWithin` and is the same expansion (`globWithin_eq`).
-/

set_option autoImplicit false

namespace PathAlgebra

namespace Dialect

/-- A directory part as a pattern of its own, without the separator at its end, after the length
of the part of it that is not read as a pattern. A root stays as it is, nothing becomes `.`, and
a bare drive gets a `.`. -/
def directoryPattern : Dialect → Text → Nat × Text
  | posix, dir =>
      if dir = [] then (0, ['.'])
      else if dir = [posix.sep] then (0, dir)
      else (0, dir.dropLast)
  | windows, dir =>
      let n := windows.volumeLength dir
      if dir = [] then (0, ['.'])
      else if n + 1 = dir.length ∧ dir.getLast?.any isSlash then (n + 1, dir)
      else if n = dir.length ∧ dir.length = 2 then (n, dir ++ ['.'])
      else (min n (dir.length - 1), dir.dropLast)

/-- Whether a directory part has special characters behind its volume. -/
def needsExpansion (d : Dialect) (dir : Nat × Text) : Bool := d.hasMeta (dir.2.drop dir.1)

theorem split_fst_length_le (d : Dialect) (p : Text) : (d.split p).1.length ≤ p.length := by
  have := congrArg List.length (d.split_append p)
  rw [List.length_append] at this
  omega

theorem dropLast_length_lt {dir : Text} (h : dir ≠ []) : dir.dropLast.length < dir.length := by
  have := List.length_pos_iff.2 h
  rw [List.length_dropLast]
  omega

/-- A directory part that needs expansion loses its last character. -/
theorem directoryPattern_length_lt {d : Dialect} {dir : Text}
    (h : d.needsExpansion (d.directoryPattern dir) = true) :
    (d.directoryPattern dir).2.length < dir.length := by
  cases d with
  | posix =>
      simp only [directoryPattern] at h ⊢
      split at h
      · simp [needsExpansion, hasMeta, isMeta] at h
      · split at h
        · simp [needsExpansion, hasMeta, isMeta, sep, *] at h
        · next hne hroot =>
          rw [if_neg hne, if_neg hroot]
          exact dropLast_length_lt hne
  | windows =>
      simp only [directoryPattern] at h ⊢
      split at h
      · simp [needsExpansion, hasMeta, isMeta] at h
      · next hne =>
        split at h
        -- A root is not read as a pattern, and neither is a bare drive with its dot.
        · next hroot => simp [needsExpansion, hasMeta, hroot.1] at h
        · next hroot =>
          split at h
          · next hdrive =>
            rw [needsExpansion, hdrive.1, List.drop_left] at h
            simp [hasMeta, isMeta] at h
          · next hdrive =>
            rw [if_neg hne, if_neg hroot, if_neg hdrive]
            exact dropLast_length_lt hne

/-- The names that match a pattern, as paths in a directory. -/
def matching (d : Dialect) (dir pattern : Text) : List Text → Except Malformed (List Text)
  | [] => .ok []
  | name :: names =>
      match d.matchName pattern name with
      | .error e => .error e
      | .ok found =>
          (d.matching dir pattern names).map fun paths =>
            if found then d.join [dir, name] :: paths else paths

/-- The paths in one directory that match a pattern. -/
def expandIn (d : Dialect) (source : Source) (pattern dir : Text) : Observed (List Text) :=
  match source.list dir with
  | .error reason => ⟨.ok [], [.listing dir, .unreadable dir reason]⟩
  | .ok names =>
      ⟨d.matching dir pattern (names.mergeSort fun a b => !decide (b < a)), [.listing dir]⟩

/-- The paths in several directories that match a pattern. -/
def expandInAll (d : Dialect) (source : Source) (pattern : Text) :
    List Text → Observed (List Text)
  | [] => pure []
  | dir :: dirs => do
      let found ← d.expandIn source pattern dir
      let more ← d.expandInAll source pattern dirs
      pure (found ++ more)

/-- The paths of a source that match a pattern. -/
def glob (d : Dialect) (source : Source) (pattern : Text) : Observed (List Text) :=
  match d.matchName pattern [] with
  | .error e => .ofExcept (.error e)
  | .ok _ =>
      if d.hasMeta pattern then
        let dir := d.directoryPattern (d.split pattern).1
        if _h : d.needsExpansion dir then
          d.glob source dir.2 >>= d.expandInAll source (d.split pattern).2
        else d.expandIn source (d.split pattern).2 dir.2
      else ⟨.ok (if source.present pattern then [pattern] else []), [.lookup pattern]⟩
  termination_by pattern.length
  decreasing_by
    exact Nat.lt_of_lt_of_le (directoryPattern_length_lt _h) (d.split_fst_length_le pattern)

end Dialect

end PathAlgebra
