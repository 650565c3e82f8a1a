import PathAlgebra.Proofs.DeviceNames

/-!
# Paths made absolute

A path that is not absolute is made so by joining it to a working directory. The directory has to be
anchored: a device name is absolute as well, but nothing can go on from it. Whatever is joined to an
anchored directory goes on behind its root, so the result is anchored (`anchored_join`), and however
many `..` it has, cleaning keeps it so. What comes out is absolute and clean, and making it absolute
again does not look at any directory (`absPath_stable`).

Behind a bare share the result need not be on that share. The share `\\h\s:` ends with a colon, and
behind a colon a path follows without a separator; it goes on with the name of the share.
-/

set_option autoImplicit false

namespace PathAlgebra

namespace Dialect

variable {d : Dialect} {cwd p q : Text}

/-- Cleaning keeps an absolute path absolute: a device name is left as it is, and a root stays. -/
theorem isAbs_clean (h : d.isAbs p = true) : d.isAbs (d.clean p) = true := by
  cases d with
  | posix =>
      rw [isAbs_posix] at h ⊢
      rw [clean_posix, isRooted_normalForm, h]
  | windows =>
      rw [isAbs_windows_iff] at h ⊢
      rcases h with hdevice | hanchored
      · left
        apply isReservedName_clean_iff.2
        exact leavesDevice_of_isReservedName hdevice
      · right
        exact anchored_clean_iff.2 hanchored

/-- What is joined to an anchored directory is anchored and clean. -/
theorem anchored_join (h : d.Anchored cwd) (p : Text) :
    d.Anchored (d.join [cwd, p]) ∧ d.clean (d.join [cwd, p]) = d.join [cwd, p] :=
  (h.concat [p]).join

-- The name of a share that ends with a colon goes on with what is joined to it.
example : windows.join ["\\\\h\\s:".toList, "x".toList] = "\\\\h\\s:x".toList := by decide

/-- A path made absolute from an anchored directory is absolute and clean. -/
theorem isAbs_absPath (h : d.Anchored cwd) (p : Text) :
    d.isAbs (d.absPath p cwd) = true ∧ d.clean (d.absPath p cwd) = d.absPath p cwd := by
  rw [absPath]
  split
  · next habs => exact ⟨isAbs_clean habs, clean_clean d p⟩
  · obtain ⟨hanchored, hclean⟩ := anchored_join h p
    exact ⟨hanchored.1, hclean⟩

/-- An absolute and clean path is made absolute by leaving it as it is. -/
theorem absPath_eq_self (habs : d.isAbs q = true) (hclean : d.clean q = q) (cwd : Text) :
    d.absPath q cwd = q := by
  rw [absPath, if_pos habs, hclean]

/-- From a working directory that is absolute and no device name, every path is made absolute and
clean, and making the result absolute again from any other directory changes nothing. -/
theorem absPath_stable (habs : d.isAbs cwd = true)
    (hdevice : d = .windows → isReservedName cwd = false) (p : Text) :
    d.isAbs (d.absPath p cwd) = true ∧ d.clean (d.absPath p cwd) = d.absPath p cwd ∧
      ∀ cwd', d.absPath (d.absPath p cwd) cwd' = d.absPath p cwd := by
  obtain ⟨hresult, hclean⟩ := isAbs_absPath ⟨habs, hdevice⟩ p
  exact ⟨hresult, hclean, fun cwd' => absPath_eq_self hresult hclean cwd'⟩

/-- More `..` than there are names, from the root of a share. -/
theorem absPath_stable_share :
    (windows.isAbs "//h/s".toList = true ∧ isReservedName "//h/s".toList = false) ∧
      windows.absPath "..\\../c:\\.".toList "//h/s".toList = "\\\\h\\s\\c:".toList ∧
      windows.isAbs "\\\\h\\s\\c:".toList = true ∧
      windows.absPath "\\\\h\\s\\c:".toList "C:\\x".toList = "\\\\h\\s\\c:".toList := by
  have habs : windows.isAbs "//h/s".toList = true := by decide
  have hdevice : isReservedName "//h/s".toList = false := by decide
  have hresult : windows.absPath "..\\../c:\\.".toList "//h/s".toList = "\\\\h\\s\\c:".toList := by
    decide
  have hstable := absPath_stable habs (fun _ => hdevice) "..\\../c:\\.".toList
  rw [hresult] at hstable
  exact ⟨⟨habs, hdevice⟩, hresult, hstable.1, hstable.2.2 _⟩

end Dialect

end PathAlgebra
