import PathAlgebra.Proofs.Decompositions
import PathAlgebra.Proofs.PlainPaths

/-!
# Absolute paths split in front of their last separator

A clean absolute path that is no device name is its volume and a rooted text behind it, or a share
with nothing behind it. A rooted text has a last separator, and the split takes it out
(`RootedAs.splitAbs_cases`): the directory and the file with a separator between them are the path,
and the directory still has the whole volume.

A bare share has no separator behind its volume. The cut is made one character before the end all
the same, and the last character of the share is lost. So the parts give the path back exactly when
the path is no bare share (`splitAbs_exact_iff`).
-/

set_option autoImplicit false

namespace PathAlgebra

open Dialect

variable {d : Dialect} {v p : Text} {es : List Text}

/-- A path that ends with its volume or with a separator has no file. -/
theorem Dialect.split_of_lastRun (h : (d.tail p).lastRun d.isSep = []) : d.split p = (p, []) := by
  have hfile : (d.split p).2 = [] := h
  have happend := split_append d p
  rw [hfile, List.append_nil] at happend
  exact Prod.ext happend hfile

/-- A path of a volume and names is split around its last separator, unless it is a bare share, which
loses its last character. -/
theorem RootedAs.splitAbs_cases (h : RootedAs d v es p) :
    (∃ t file, d.splitAbs p = (v ++ t, file) ∧ p = v ++ t ++ d.sep :: file ∧
        ∀ c ∈ file, d.isSep c = false) ∨
      ((d.volume p).isShare = true ∧ d.tail p = []) ∧ d.splitAbs p = (p.dropLast, []) := by
  cases es using List.reverseRecOn with
  | append_singleton ss s =>
      left
      refine ⟨d.trail ss, s, h.splitAbs_eq, ?_, h.last.no_sep⟩
      conv_lhs => rw [h.text_concat]
      simp
  | nil =>
      rcases h.tail_eq with htail | ⟨-, htail, -, hshare⟩
      · -- The root is the only separator.
        have hroot : d.tail p = [d.sep] := htail
        have hlast : (d.tail p).lastRun d.isSep = [] := by
          rw [hroot]
          cases d <;> rfl
        have hvolume : p.take (d.volumeLength p) = v := by
          rcases h.text_eq with htext | ⟨-, htext, -⟩
          · rw [h.volumeLength_eq, htext, List.take_left]
          · rw [h.volumeLength_eq, htext, List.take_length]
        have hpath : p = v ++ [d.sep] := by
          rw [← hvolume, ← hroot, tail, List.take_append_drop]
        left
        refine ⟨[], [], ?_, by rw [List.append_nil]; exact hpath, by simp⟩
        rw [splitAbs, split_of_lastRun hlast, hpath, List.dropLast_concat, List.append_nil]
      · right
        have hlast : (d.tail p).lastRun d.isSep = [] := by
          rw [htail]
          rfl
        refine ⟨⟨hshare, htail⟩, ?_⟩
        rw [splitAbs, split_of_lastRun hlast]

namespace Dialect

/-- A clean absolute path that is no device name is split around its last separator: the two parts
with a separator between them are the path, the file has no separator, and the directory begins with
the volume. This is so exactly when the path is no bare share; a bare share loses its last
character. -/
theorem splitAbs_exact_iff (habs : d.isAbs p = true)
    (hdevice : d = .windows → isReservedName p = false) (hclean : d.clean p = p) :
    ((d.splitAbs p).1 ++ d.sep :: (d.splitAbs p).2 = p ∧
        (∀ c ∈ (d.splitAbs p).2, d.isSep c = false) ∧
        d.volumeName p <+: (d.splitAbs p).1 ↔ ¬ (d = .windows ∧ IsBareShare p)) ∧
      (d = .windows → IsBareShare p → d.splitAbs p = (p.dropLast, [])) := by
  have hanchored : d.Anchored p := ⟨habs, hdevice⟩
  rcases (hanchored.rootedAs_of_clean hclean).splitAbs_cases with
    ⟨t, file, hsplit, hpath, hfile⟩ | ⟨hbare, hsplit⟩
  · have hnot : ¬ (d = .windows ∧ IsBareShare p) := by
      rintro ⟨rfl, -, htail⟩
      have hlength := congrArg List.length hpath
      have hvolume := List.length_drop (i := windows.volumeLength p) (l := p)
      rw [← tail, htail, List.length_nil, ← volumeName_length] at hvolume
      simp only [List.length_append, List.length_cons] at hlength
      omega
    refine ⟨iff_of_true ?_ hnot, fun hd hbare => absurd ⟨hd, hbare⟩ hnot⟩
    rw [hsplit]
    exact ⟨hpath.symm, hfile, List.prefix_append _ _⟩
  · cases d with
    | posix => cases hbare.1
    | windows =>
        refine ⟨iff_of_false ?_ fun hnot => hnot ⟨rfl, hbare⟩, fun _ _ => hsplit⟩
        rintro ⟨hjoined, -, -⟩
        -- A share does not end with a separator.
        obtain ⟨c, -, hlast, hslash⟩ := getLast?_of_bareShare hbare
        have hname : windows.volumeName p = p := by
          rw [← clean_of_bareShare hbare, hclean]
        rw [hname, ← hjoined, hsplit, List.getLast?_concat, Option.some.injEq] at hlast
        rw [← hlast] at hslash
        cases hslash

/-- The root of a share. -/
theorem splitAbs_exact_iff_root :
    (windows.isAbs "\\\\h\\s\\".toList = true ∧ isReservedName "\\\\h\\s\\".toList = false ∧
        windows.clean "\\\\h\\s\\".toList = "\\\\h\\s\\".toList ∧
        ¬ IsBareShare "\\\\h\\s\\".toList) ∧
      windows.splitAbs "\\\\h\\s\\".toList = ("\\\\h\\s".toList, []) ∧
      "\\\\h\\s".toList ++ windows.sep :: [] = "\\\\h\\s\\".toList ∧
      windows.volumeName "\\\\h\\s\\".toList <+: "\\\\h\\s".toList := by
  have habs : windows.isAbs "\\\\h\\s\\".toList = true := by decide
  have hdevice : isReservedName "\\\\h\\s\\".toList = false := by decide
  have hclean : windows.clean "\\\\h\\s\\".toList = "\\\\h\\s\\".toList := by decide
  have hbare : ¬ IsBareShare "\\\\h\\s\\".toList := by decide
  have hsplit : windows.splitAbs "\\\\h\\s\\".toList = ("\\\\h\\s".toList, []) := by decide
  have hexact := (splitAbs_exact_iff habs (fun _ => hdevice) hclean).1.2 fun h => hbare h.2
  rw [hsplit] at hexact
  exact ⟨⟨habs, hdevice, hclean, hbare⟩, hsplit, hexact.1, hexact.2.2⟩

/-- A bare share is absolute and clean, and the last character of its name is lost. -/
theorem splitAbs_loses_character :
    windows.isAbs "\\\\host\\share".toList = true ∧
      isReservedName "\\\\host\\share".toList = false ∧
      windows.clean "\\\\host\\share".toList = "\\\\host\\share".toList ∧
      windows.splitAbs "\\\\host\\share".toList = ("\\\\host\\shar".toList, []) ∧
      "\\\\host\\shar".toList ++ windows.sep :: [] ≠ "\\\\host\\share".toList := by
  decide

end Dialect

end PathAlgebra
