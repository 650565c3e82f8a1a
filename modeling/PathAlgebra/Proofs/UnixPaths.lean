import PathAlgebra.Proofs.NativeSpelling
import PathAlgebra.Proofs.RelativeAnswers
import PathAlgebra.Proofs.Splitting

/-!
# Unix paths under the Windows dialect

A Unix path with a root is placed on the default drive, and one without is only written with native
separators. Behind the drive nothing of the path can be read as a volume, a device root or a guard:
what follows the drive is its normal form (`fromUnixPath_of_root`), which both dialects spell alike
but for the separators as long as the path has no backslash (`fromUnixPath_eq_clean`).

Without a root nothing stands in front of the path, and the Windows dialect reads more in it than a
Unix system does: `c:/x` starts with a drive, `\\h\s` is a single Unix name and a share, and `nul` is
a device (`ReadAsVolume`). Those are the only relative Unix paths that do not stay relative
(`fromUnixPath_relative_iff`).
-/

set_option autoImplicit false

namespace PathAlgebra

open Dialect

/-! ## Device names -/

/-- A device name has neither slash, so it is the same in native spelling. -/
theorem isReservedName_fromSlash (p : Text) :
    isReservedName (windows.fromSlash p) = isReservedName p := by
  rw [Bool.eq_iff_iff]
  constructor
  · intro h
    have hsep := (isElement_of_isReservedName h).sep_notMem
    have hslash : '/' ∉ p := fun hm => hsep (List.mem_map_of_mem hm)
    rwa [fromSlash_of_notMem hslash] at h
  · intro h
    have hslash : '/' ∉ p := by
      intro hm
      have hnone := (isElement_of_isReservedName h).no_sep '/' hm
      cases hnone
    rwa [fromSlash_of_notMem hslash]

/-! ## Paths with a root -/

namespace Dialect

variable {p t : Text}

/-- A path on a drive with a root behind the drive is anchored. -/
theorem anchored_drive {c : Char} (hc : c.isAlpha = true) (ht : windows.isRooted t = true) :
    windows.Anchored (c :: ':' :: t) := by
  rw [anchored_windows_iff, volume_drive hc, tail_drive hc]
  exact ⟨by decide, fun _ => ht⟩

/-- A Unix path with a root is cleaned behind the default drive. -/
theorem fromUnixPath_of_root (h : p.head? = some '/') :
    windows.fromUnixPath p = 'C' :: ':' :: windows.normalForm p := by
  have hattach : attach defaultVolume (windows.fromSlash p) = 'C' :: ':' :: windows.fromSlash p :=
    rfl
  rw [fromUnixPath, if_pos (by rw [h]; rfl), join_windows_pair hattach (List.cons_ne_nil _ _),
    clean_drive (by decide), normalForm_fromSlash]

/-- A Unix path with a root and without a backslash is placed on the default drive as it is cleaned
under the POSIX dialect, in native spelling, and is absolute there. -/
theorem fromUnixPath_eq_clean (hroot : p.head? = some '/') (hback : '\\' ∉ p) :
    windows.fromUnixPath p = ['C', ':'] ++ windows.fromSlash (posix.clean p) ∧
      windows.isAbs (windows.fromUnixPath p) = true := by
  have hplaced := fromUnixPath_of_root hroot
  have hrooted : windows.isRooted (windows.normalForm p) = true := by
    rw [isRooted_normalForm, isRooted_eq hback, isRooted, hroot]
    rfl
  constructor
  · rw [hplaced, normalForm_windows hback, clean_posix]
    rfl
  · rw [hplaced]
    exact (anchored_drive (by decide) hrooted).1

/-- What looks like a share, a drive and a device mark are names behind the default drive. -/
theorem fromUnixPath_eq_clean_marks :
    ("//host/../c:/??//x".toList.head? = some '/' ∧ '\\' ∉ "//host/../c:/??//x".toList) ∧
      posix.clean "//host/../c:/??//x".toList = "/c:/??/x".toList ∧
      windows.fromUnixPath "//host/../c:/??//x".toList = "C:\\c:\\??\\x".toList ∧
      windows.isAbs "C:\\c:\\??\\x".toList = true := by
  have hroot : "//host/../c:/??//x".toList.head? = some '/' := by decide
  have hback : '\\' ∉ "//host/../c:/??//x".toList := by decide
  have hclean : posix.clean "//host/../c:/??//x".toList = "/c:/??/x".toList := by decide
  obtain ⟨hplaced, habs⟩ := fromUnixPath_eq_clean hroot hback
  rw [hclean] at hplaced
  rw [hplaced] at habs
  exact ⟨⟨hroot, hback⟩, hclean, hplaced, habs⟩

end Dialect

/-! ## Paths without a root -/

/-- A text that the Windows dialect does not read as names from the current directory: it starts with
a drive, it starts with a share, or it is a device name. -/
inductive ReadAsVolume (p : Text) : Prop where
  | drive {c : Char} : c.isAlpha = true → [c, ':'] <+: p → ReadAsVolume p
  | share {u : Text} : ShareWritten u → u <+: p → ReadAsVolume p
  | device : isReservedName p = true → ReadAsVolume p

theorem readAsVolume_iff {p : Text} :
    ReadAsVolume p ↔ windows.volume p ≠ .none ∨ isReservedName p = true := by
  constructor
  · intro h
    cases h with
    | @drive c hc hbegins =>
        obtain ⟨t, rfl⟩ := hbegins
        have hvol : windows.volume ([c, ':'] ++ t) = .drive := volume_drive hc t
        left
        rw [hvol]
        decide
    | share hu hbegins =>
        obtain ⟨n, hvol⟩ := exists_share (isShare_volume_iff.2 ⟨_, hu, hbegins⟩)
        left
        rw [hvol]
        simp
    | device hdevice => exact .inr hdevice
  · rintro (hvolume | hdevice)
    · cases hvol : windows.volume p with
      | none => exact absurd hvol hvolume
      | drive =>
          obtain ⟨c, rest, rfl, hc⟩ := volume_eq_drive_iff.1 hvol
          exact .drive hc (List.prefix_append [c, ':'] rest)
      | share n =>
          obtain ⟨u, hu, hbegins⟩ := isShare_volume_iff.1 (by rw [hvol]; rfl)
          exact .share hu hbegins
    · exact .device hdevice

instance (p : Text) : Decidable (ReadAsVolume p) := decidable_of_iff _ readAsVolume_iff.symm

namespace Dialect

variable {p : Text}

theorem fromUnixPath_of_not_root (h : p.head? ≠ some '/') :
    windows.fromUnixPath p = windows.fromSlash p := by
  rw [fromUnixPath, if_neg (by simpa using h)]

/-- A Unix path with a root has the default drive for its volume. -/
theorem volumeName_fromUnixPath_of_root (h : p.head? = some '/') :
    windows.volumeName (windows.fromUnixPath p) = defaultVolume := by
  have hvol : windows.volume ('C' :: ':' :: windows.normalForm p) = .drive :=
    volume_drive (by decide) _
  rw [fromUnixPath_of_root h, volumeName, volumeLength, hvol]
  rfl

/-- A Unix path is relative and has no volume under the Windows dialect exactly when it has no root
and is not read as a volume or a device there. -/
theorem fromUnixPath_relative_iff (p : Text) :
    windows.isAbs (windows.fromUnixPath p) = false ∧
        windows.volumeName (windows.fromUnixPath p) = [] ↔
      p.head? ≠ some '/' ∧ ¬ ReadAsVolume p := by
  by_cases hroot : p.head? = some '/'
  · rw [volumeName_fromUnixPath_of_root hroot]
    refine iff_of_false ?_ fun h => h.1 hroot
    rintro ⟨-, hnil⟩
    cases hnil
  · rw [fromUnixPath_of_not_root hroot, relative_windows_iff, volume_fromSlash,
      isReservedName_fromSlash, readAsVolume_iff]
    simp [hroot]

/-- A relative Unix path whose first name looks like a drive. -/
theorem fromUnixPath_not_relative :
    "c:/x".toList.head? ≠ some '/' ∧ windows.fromUnixPath "c:/x".toList = "c:\\x".toList ∧
      windows.isAbs "c:\\x".toList = true ∧ windows.volumeName "c:\\x".toList = "c:".toList := by
  decide

end Dialect

end PathAlgebra
