import PathAlgebra.Proofs.AbsolutePaths

/-!
# Device names that cleaning leaves

A Windows path is absolute by its root, or because it is a reserved device name as a whole. Cleaning
keeps the volume and the root behind it, so a path with a root keeps it and no other path gets one
(`anchored_clean_iff`). But a device name can be what is left of a longer path: `.\NUL` and `NUL\`
are relative, and both are cleaned to the device `NUL`, since the guard in front of a cleaned path
looks for a colon and for the device root only. So cleaning keeps an absolute path absolute, and
makes another absolute exactly when it leaves a device name of it (`isAbs_clean_iff`). Under the
POSIX dialect it never does.
-/

set_option autoImplicit false

namespace PathAlgebra

/-! ## Device names as elements -/

/-- What holds of the characters of every device name, in upper case and in lower case alike, holds
of the characters of a device name in any spelling. -/
theorem of_mem_reservedName {f : Char → Bool} (hupper : ∀ c, f c.toUpper = f c)
    (hnames : (reservedNames.all fun n => n.all f) = true) {p : Text} (h : isReservedName p = true)
    {c : Char} (hc : c ∈ p) : f c = true := by
  rw [← hupper]
  have hname := List.all_eq_true.1 hnames _ (List.contains_iff_mem.1 h)
  exact List.all_eq_true.1 hname _ (List.mem_map_of_mem hc)

theorem isElement_of_isReservedName {p : Text} (h : isReservedName p = true) :
    IsElement .windows p where
  ne_nil := by
    rintro rfl
    exact absurd h (by decide)
  ne_dot := by
    rintro rfl
    exact absurd h (by decide)
  no_sep c hc := by
    have hslash := of_mem_reservedName (f := fun c => !isSlash c)
      (fun c => congrArg not (keepsVolumes_toUpper.isSlash_eq c)) (by decide) h hc
    exact Bool.not_eq_eq_eq_not.1 hslash

/-- A device name has no colon, so no guard is put in front of it. -/
theorem colon_notMem_of_isReservedName {p : Text} (h : isReservedName p = true) : ':' ∉ p := by
  intro hm
  have hcolon := of_mem_reservedName (f := fun c => !(c == ':'))
    (fun c => congrArg not (keepsVolumes_toUpper.colon_eq c)) (by decide) h hm
  exact absurd hcolon (by decide)

namespace Dialect

variable {d : Dialect} {p e : Text}

theorem writeElements_singleton (he : IsElement d e) : d.writeElements false [e] = e := by
  rw [writeElements_unrooted (List.forall_mem_singleton.2 he) (List.cons_ne_nil e []),
    List.intercalate_singleton]

/-- A single element is its own normal form. -/
theorem normalForm_of_isElement (he : IsElement d e) : d.normalForm e = e := by
  have hnormal := normalForm_writeElements (List.forall_mem_singleton.2 he)
    (resolved_cons List.not_mem_nil e)
  rwa [writeElements_singleton he] at hnormal

/-! ## What is left of a path -/

/-- A relative path without a volume, of which resolving leaves a device name alone. -/
structure LeavesDevice (p : Text) : Prop where
  volume_eq : windows.volume p = .none
  relative : windows.isRooted p = false
  device : ∃ e, windows.resolvedElements p = [e] ∧ isReservedName e = true

/-- A path that is a device name is left as it is. -/
theorem leavesDevice_of_isReservedName (h : isReservedName p = true) : LeavesDevice p := by
  have helement := isElement_of_isReservedName h
  have hnormal := normalForm_of_isElement helement
  refine ⟨volume_of_isReservedName h, ?_, p, ?_, h⟩
  · have hroot : windows.isRooted ([windows.sep].intercalate [p]) = false :=
      isRooted_intercalate fun e he => List.mem_singleton.1 he ▸ helement.isRun
    rwa [List.intercalate_singleton] at hroot
  · rw [← elements_normalForm, hnormal, elements_of_isElement helement]

/-- Cleaning gives a device name exactly when it leaves one. -/
theorem isReservedName_clean_iff : isReservedName (windows.clean p) = true ↔ LeavesDevice p := by
  constructor
  · intro hdevice
    have helement := isElement_of_isReservedName hdevice
    have hleft := leavesDevice_of_isReservedName hdevice
    have hvolume : windows.volume p = .none := by
      rw [← (cleanForm p).volume_eq]
      exact hleft.volume_eq
    have hroot : windows.isRooted p = false := by
      have hsame := (cleanForm p).isRooted_tail_eq
      rw [tail_eq_self hvolume, tail_eq_self hleft.volume_eq, hleft.relative] at hsame
      exact hsame.symm
    refine ⟨hvolume, hroot, windows.clean p, ?_, hdevice⟩
    rcases clean_of_none hvolume with hclean | ⟨hg, hclean⟩
    · rw [← elements_normalForm, ← hclean, elements_of_isElement helement]
    -- A guard holds a separator, and a device name does not.
    · have hsep : windows.sep ∈ windows.guardFor (windows.normalForm p) := by
        rcases guardFor_cases windows p with ⟨h, -⟩ | ⟨h, -⟩ | ⟨h, -⟩
        · exact absurd h hg
        · rw [h]
          decide
        · rw [h]
          decide
      exact absurd (hclean ▸ List.mem_append_left _ hsep) helement.sep_notMem
  · rintro ⟨hvolume, hroot, e, helements, hdevice⟩
    have helement := isElement_of_isReservedName hdevice
    have hnormal : windows.normalForm p = e := by
      rw [normalForm_eq, hroot, helements, writeElements_singleton helement]
    rcases clean_of_none hvolume with hclean | ⟨hg, -⟩
    · rw [hclean, hnormal]
      exact hdevice
    -- Nothing in front of a device name needs a guard.
    · rcases guardFor_cases windows p with ⟨h, -⟩ | ⟨-, -, f, fs, hcons, hcolon⟩ | ⟨-, t, ht⟩
      · exact absurd h hg
      · rw [helements] at hcons
        rw [← (List.cons.inj hcons).1] at hcolon
        exact absurd hcolon (colon_notMem_of_isReservedName hdevice)
      · rw [hnormal] at ht
        exact absurd (by rw [← ht]; exact List.mem_cons_self) helement.sep_notMem

/-! ## Absolute paths -/

/-- A Windows path is absolute as a device name or by its root. -/
theorem isAbs_windows_iff :
    windows.isAbs p = true ↔ isReservedName p = true ∨ windows.Anchored p := by
  rw [Anchored]
  cases hdevice : isReservedName p with
  | false => simp
  | true => simp [isAbs, hdevice]

/-- Cleaning keeps a root and makes none. -/
theorem anchored_clean_iff : windows.Anchored (windows.clean p) ↔ windows.Anchored p := by
  rw [anchored_windows_iff, anchored_windows_iff, (cleanForm p).volume_eq,
    (cleanForm p).isRooted_tail_eq]

/-- A cleaned path is absolute exactly when the path was, or when it is a Windows path of which
cleaning leaves a device name alone. -/
theorem isAbs_clean_iff (d : Dialect) (p : Text) :
    d.isAbs (d.clean p) = true ↔ d.isAbs p = true ∨ d = .windows ∧ LeavesDevice p := by
  cases d with
  | posix => simp [isAbs_posix, clean_posix, isRooted_normalForm]
  | windows =>
      rw [isAbs_windows_iff, isAbs_windows_iff, anchored_clean_iff, isReservedName_clean_iff,
        and_iff_right rfl]
      constructor
      · rintro (hleft | hanchored)
        · exact .inr hleft
        · exact .inl (.inr hanchored)
      · rintro ((hdevice | hanchored) | hleft)
        · exact .inl (leavesDevice_of_isReservedName hdevice)
        · exact .inr hanchored
        · exact .inl hleft

/-- A path to the name of a device in the current directory is relative, and is cleaned to the
device. -/
theorem clean_leaves_device :
    windows.isAbs ".\\NUL".toList = false ∧ windows.clean ".\\NUL".toList = "NUL".toList ∧
      windows.isAbs "NUL".toList = true :=
  ⟨by decide, by decide +kernel, by decide⟩

end Dialect

end PathAlgebra
