import PathAlgebra.Proofs.Beginnings
import PathAlgebra.Proofs.LetterCase

/-!
# Paths in native spelling

The two slashes read alike, so a Windows path and its native spelling have one volume, one root and
the same elements. What they are cleaned to differs at most in the guard. Only a path whose elements
are not kept in place takes one (`isGuarded_iff`), and a path that keeps a `/` does not keep its
elements in place, where its native spelling may (`keptInPlace_iff`).

So a path is cleaned as its native spelling is, except where such a `/` alone brings the guard on
(`GuardedBySlash`, `clean_fromSlash_iff`). There `/??/x` gets a guard, which keeps it from becoming
the device root that `\??\x` is.
-/

set_option autoImplicit false

namespace PathAlgebra

namespace Dialect

variable {p q : Text}

/-! ## Elements -/

/-- The elements of a text do not depend on the kind of its slashes. -/
theorem elements_fromSlash (t : Text) :
    windows.elements (windows.fromSlash t) = windows.elements t := by
  have hsplit : (windows.fromSlash t).splitOnP windows.isSep =
      (t.splitOnP windows.isSep).map windows.fromSlash := splitOnP_map (native_congr isSlash rfl) t
  have hruns : ∀ e ∈ t.splitOnP windows.isSep, '/' ∉ e := by
    intro e he hm
    have hslash := (mem_of_mem_splitOnP he '/' hm).2
    cases hslash
  rw [elements, hsplit, map_fromSlash_of_notMem hruns, elements]

theorem normalForm_fromSlash (t : Text) :
    windows.normalForm (windows.fromSlash t) = windows.normalForm t := by
  rw [normalForm, isRooted_fromSlash, elements_fromSlash, normalForm]

/-! ## Paths with a volume -/

/-- Behind a volume a path is cleaned as its native spelling is. -/
theorem clean_fromSlash_of_volume (hvol : windows.volume p ≠ .none) :
    windows.clean (windows.fromSlash p) = windows.clean p := by
  by_cases htail : windows.tail p = []
  · have htail' : windows.tail (windows.fromSlash p) = [] := by
      rw [tail_fromSlash, htail]
      rfl
    rw [clean, if_pos htail', volume_fromSlash, clean, if_pos htail]
    cases h : windows.volume p with
    | none => exact absurd h hvol
    | drive =>
        obtain ⟨c, rest, rfl, hc⟩ := volume_eq_drive_iff.1 h
        have hrest : rest = [] := by rwa [tail_drive hc] at htail
        rw [hrest, fromSlash_drive hc]
        rfl
    | share n => exact fromSlash_fromSlash windows p
  · have hpos : 0 < windows.volumeLength p :=
      Nat.pos_of_ne_zero (mt volumeLength_eq_zero_iff.1 hvol)
    have htail' : windows.tail (windows.fromSlash p) ≠ [] := by
      rw [tail_fromSlash]
      exact mt List.map_eq_nil_iff.1 htail
    have hlength : windows.volumeLength (windows.fromSlash p) = windows.volumeLength p :=
      congrArg Volume.length (volume_fromSlash p)
    rw [clean_eq_append htail' (.inr (hlength ▸ hpos)), clean_eq_append htail (.inr hpos),
      ← volumeName, ← volumeName, volumeName_fromSlash, tail_fromSlash, normalForm_fromSlash]

/-! ## Elements kept in place -/

/-- A text without a `/` is a beginning of the path as written when it is one of the path in native
spelling and the path has no `/` there. -/
theorem isPrefix_iff_fromSlash {u : Text} (hu : '/' ∉ u) :
    u <+: p ↔ u <+: windows.fromSlash p ∧ '/' ∉ p.take u.length := by
  constructor
  · rintro ⟨t, rfl⟩
    rw [fromSlash_append, fromSlash_of_notMem hu, List.take_left]
    exact ⟨List.prefix_append u _, hu⟩
  · rintro ⟨hbegins, hslash⟩
    have htake : (windows.fromSlash p).take u.length = p.take u.length := by
      rw [fromSlash, ← List.map_take]
      exact fromSlash_of_notMem hslash
    rw [List.prefix_iff_eq_take, htake] at hbegins
    rw [hbegins]
    exact List.take_prefix _ p

/-- A `/` of the path where what is left of its first elements is spelled. -/
def SlashKept (p : Text) : Prop :=
  ∃ es, es <+: windows.elements p ∧
    '/' ∈ p.take (windows.spell (windows.isRooted p) (resolve (windows.isRooted p) es)).length

/-- What is left of the first elements of a path has no `/`. -/
theorem slash_notMem_spell {es : List Text} (hes : es <+: windows.elements p) {rooted : Bool} :
    '/' ∉ windows.spell rooted (resolve rooted es) := by
  intro hm
  have helement : ∀ e ∈ resolve rooted es, IsElement windows e := fun e he =>
    isElement_of_mem_elements (hes.subset (mem_of_mem_resolve he))
  rcases native_of_mem_spell helement hm with h | h
  · exact absurd h (by decide)
  · exact absurd h (by decide)

/-- The elements of a path are kept in place when those of its native spelling are and none of the
separators kept is a `/`. -/
theorem keptInPlace_iff :
    windows.KeptInPlace p ↔ windows.KeptInPlace (windows.fromSlash p) ∧ ¬ SlashKept p := by
  unfold KeptInPlace SlashKept
  rw [isRooted_fromSlash, elements_fromSlash]
  constructor
  · intro hkept
    constructor
    · exact fun es hes => ((isPrefix_iff_fromSlash (slash_notMem_spell hes)).1 (hkept es hes)).1
    · rintro ⟨es, hes, hslash⟩
      exact ((isPrefix_iff_fromSlash (slash_notMem_spell hes)).1 (hkept es hes)).2 hslash
  · rintro ⟨hkept, hslash⟩ es hes
    refine (isPrefix_iff_fromSlash (slash_notMem_spell hes)).2 ⟨hkept es hes, fun hm => ?_⟩
    exact hslash ⟨es, hes, hm⟩

/-! ## Guards -/

/-- A path that takes a guard only for its spelling: its front is one that takes guards, its native
spelling is cleaned in place, and one of the separators kept there is a `/`. -/
structure GuardedBySlash (p : Text) : Prop where
  no_volume : windows.volume p = .none
  front : windows.ColonFirst p ∨ windows.DeviceFirst (windows.normalForm p)
  native_kept : windows.KeptInPlace (windows.fromSlash p)
  slash_kept : SlashKept p

/-- A path in native spelling takes no guard for a `/`. -/
theorem not_guardedBySlash_fromSlash (p : Text) : ¬ GuardedBySlash (windows.fromSlash p) := by
  intro h
  obtain ⟨es, -, hslash⟩ := h.slash_kept
  exact slash_notMem_fromSlash p (List.mem_of_mem_take hslash)

/-- A path is guarded when its native spelling is, and otherwise for a `/`. -/
theorem isGuarded_iff_fromSlash (p : Text) :
    IsGuarded p ↔ IsGuarded (windows.fromSlash p) ∨ GuardedBySlash p := by
  rw [isGuarded_iff, isGuarded_iff, volume_fromSlash, normalForm_fromSlash, keptInPlace_iff,
    not_and_not_right]
  constructor
  · rintro ⟨hvol, hguard, hplace⟩
    by_cases hkept : windows.KeptInPlace (windows.fromSlash p)
    · exact .inr ⟨hvol, (guardFor_ne_nil_iff windows p).1 hguard, hkept, hplace hkept⟩
    · exact .inl ⟨hvol, hguard, hkept⟩
  · rintro (⟨hvol, hguard, hkept⟩ | ⟨hvol, hfront, -, hslash⟩)
    · exact ⟨hvol, hguard, fun h => absurd h hkept⟩
    · exact ⟨hvol, (guardFor_ne_nil_iff windows p).2 hfront, fun _ => hslash⟩

/-- The native spelling of a path with a guard for a `/` has none. -/
theorem GuardedBySlash.not_isGuarded (h : GuardedBySlash p) :
    ¬ IsGuarded (windows.fromSlash p) :=
  fun hguarded => (isGuarded_iff.1 hguarded).2.2 h.native_kept

theorem guardedBySlash_iff :
    GuardedBySlash p ↔ IsGuarded p ∧ ¬ IsGuarded (windows.fromSlash p) := by
  rw [isGuarded_iff_fromSlash p, or_and_right, and_not_self_iff, false_or]
  exact (and_iff_left_of_imp GuardedBySlash.not_isGuarded).symm

instance (p : Text) : Decidable (GuardedBySlash p) := decidable_of_iff _ guardedBySlash_iff.symm

/-- Paths with one normal form are cleaned alike when both of them are guarded or neither is. -/
theorem clean_eq_clean_iff (hp : windows.volume p = .none) (hq : windows.volume q = .none)
    (h : windows.normalForm q = windows.normalForm p) :
    windows.clean q = windows.clean p ↔ (IsGuarded q ↔ IsGuarded p) := by
  have hguard : IsGuarded p ↔ windows.clean p ≠ windows.normalForm p := and_iff_right hp
  have hguard' : IsGuarded q ↔ windows.clean q ≠ windows.normalForm p := by
    rw [← h]
    exact and_iff_right hq
  constructor
  · intro hclean
    rw [hguard, hguard', hclean]
  · intro hiff
    by_cases hguarded : IsGuarded p
    · rw [(hiff.2 hguarded).clean_eq, hguarded.clean_eq, h]
    · have hplain : windows.clean p = windows.normalForm p := not_not.1 (mt hguard.2 hguarded)
      have hplain' : windows.clean q = windows.normalForm p :=
        not_not.1 (mt (hiff.1 ∘ hguard'.2) hguarded)
      rw [hplain, hplain']

/-- Two spellings of a path are cleaned alike when both of them take a guard for a `/` or neither
does. -/
theorem clean_eq_clean_of_fromSlash (h : windows.fromSlash q = windows.fromSlash p) :
    windows.clean q = windows.clean p ↔ (GuardedBySlash q ↔ GuardedBySlash p) := by
  have hvolume : windows.volume q = windows.volume p := by
    rw [← volume_fromSlash, h, volume_fromSlash]
  by_cases hvol : windows.volume p = .none
  · have hnormal : windows.normalForm q = windows.normalForm p := by
      rw [← normalForm_fromSlash, h, normalForm_fromSlash]
    have hguard := isGuarded_iff_fromSlash q
    rw [h] at hguard
    rw [clean_eq_clean_iff hvol (hvolume.trans hvol) hnormal, hguard, isGuarded_iff_fromSlash p]
    by_cases hnative : IsGuarded (windows.fromSlash p)
    · have hslash : ¬ GuardedBySlash p := fun hp => hp.not_isGuarded hnative
      have hslash' : ¬ GuardedBySlash q := fun hq => hq.not_isGuarded (h ▸ hnative)
      simp only [hnative, hslash, hslash', true_or]
    · simp only [hnative, false_or]
  · have hclean := clean_fromSlash_of_volume hvol
    have hclean' := clean_fromSlash_of_volume (hvolume ▸ hvol)
    rw [h] at hclean'
    exact iff_of_true (hclean'.symm.trans hclean)
      (iff_of_false (fun hq => hvol (hvolume ▸ hq.no_volume)) fun hp => hvol hp.no_volume)

/-- A path is cleaned as its native spelling is, unless it takes a guard for a `/`; then it is
cleaned to what its native spelling is cleaned to behind this guard. Two spellings of one path are
cleaned alike when both of them take such a guard or neither does. -/
theorem clean_fromSlash_iff (p : Text) :
    (windows.clean (windows.fromSlash p) = windows.clean p ↔ ¬ GuardedBySlash p) ∧
      (GuardedBySlash p →
        windows.clean p = ['.', '\\'] ++ windows.clean (windows.fromSlash p) ∧
            windows.ColonFirst p ∨
          windows.clean p = ['\\', '.'] ++ windows.clean (windows.fromSlash p) ∧
            windows.DeviceFirst (windows.normalForm p)) ∧
      ∀ q, windows.fromSlash q = windows.fromSlash p →
        (windows.clean q = windows.clean p ↔ (GuardedBySlash q ↔ GuardedBySlash p)) := by
  refine ⟨?_, fun hslash => ?_, fun q => clean_eq_clean_of_fromSlash⟩
  · rw [clean_eq_clean_of_fromSlash (fromSlash_fromSlash windows p)]
    simp only [not_guardedBySlash_fromSlash, false_iff]
  · have hnative : windows.clean (windows.fromSlash p) = windows.normalForm p := by
      by_contra hne
      rw [← normalForm_fromSlash] at hne
      exact hslash.not_isGuarded ⟨(volume_fromSlash p).trans hslash.no_volume, hne⟩
    have hguarded : IsGuarded p := (isGuarded_iff_fromSlash p).2 (.inr hslash)
    rw [hguarded.clean_eq, hnative]
    rcases guardFor_cases windows p with ⟨h, -⟩ | ⟨h, hcolon⟩ | ⟨h, hdevice⟩
    · exact absurd h hguarded.guardFor_ne_nil
    · exact .inl ⟨by rw [h]; rfl, hcolon⟩
    · exact .inr ⟨by rw [h]; rfl, hdevice⟩

/-- Both spellings of a path that looks like the device root and has a `/` take the guard. -/
theorem clean_fromSlash_guarded :
    GuardedBySlash "/??/x".toList ∧
      windows.clean "/??/x".toList = "\\.".toList ++ windows.clean "\\??\\x".toList ∧
      windows.fromSlash "/??\\x".toList = windows.fromSlash "/??/x".toList ∧
      windows.clean "/??\\x".toList = windows.clean "/??/x".toList := by
  have hslash : GuardedBySlash "/??/x".toList := by decide +kernel
  have hslash' : GuardedBySlash "/??\\x".toList := by decide +kernel
  have hnative : windows.fromSlash "/??\\x".toList = windows.fromSlash "/??/x".toList := by decide
  obtain ⟨-, hbehind, hspelling⟩ := clean_fromSlash_iff "/??/x".toList
  refine ⟨hslash, ?_, hnative, (hspelling _ hnative).2 (iff_of_true hslash' hslash)⟩
  rcases hbehind hslash with ⟨-, hcolon⟩ | ⟨hdevice, -⟩
  · exact absurd hcolon.1 (by decide)
  · exact hdevice

/-- The native spelling of the device root is cleaned to itself, another spelling of it is not. -/
theorem clean_device_spellings :
    windows.clean (windows.fromSlash "/??/x".toList) = "\\??\\x".toList ∧
      windows.clean "/??/x".toList = "\\.\\??\\x".toList ∧
      windows.clean (windows.fromSlash "/??/x".toList) ≠ windows.clean "/??/x".toList := by
  decide +kernel

end Dialect

end PathAlgebra
