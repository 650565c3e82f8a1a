import PathAlgebra.Proofs.Beginnings
import PathAlgebra.Proofs.LetterCase

/-!
# Absolute paths

An anchored path starts at a root: the root separator under the POSIX dialect, and a share, or a
drive with a separator behind it, under the Windows dialect (`anchored_posix_iff`,
`anchored_windows_iff`). A reserved device name is absolute too, but it is no place that a path
could go on from, and it has no volume (`volume_of_isReservedName`). An anchored path stays
anchored when text is put behind it (`Anchored.of_isPrefix`), so when elements are joined to it
(`Anchored.concat`), and when it is cleaned (`Anchored.clean`). Behind its root more text leaves the
volume as it is (`volume_of_isPrefix`).

A clean anchored path is its volume and names behind it, each with a separator in front
(`Anchored.rootedAs`). Such a path is its own cleaned path (`RootedAs.clean_eq`).
-/

set_option autoImplicit false

namespace PathAlgebra

/-! ## Device names -/

/-- A device name has no volume. -/
theorem volume_of_isReservedName {p : Text} (h : isReservedName p = true) :
    Dialect.windows.volume p = .none := by
  have hnames : ∀ n ∈ reservedNames, Dialect.windows.volume n = .none := by decide
  rw [← keepsVolumes_toUpper.volume_map p]
  exact hnames _ (List.contains_iff_mem.1 h)

namespace Dialect

variable {d : Dialect} {b e p q : Text}

/-! ## Roots -/

/-- An absolute path that is no device name. -/
def Anchored (d : Dialect) (p : Text) : Prop :=
  d.isAbs p = true ∧ (d = .windows → isReservedName p = false)

theorem isAbs_posix (p : Text) : posix.isAbs p = posix.isRooted p := by
  cases p with
  | nil => rfl
  | cons c p => rfl

theorem anchored_posix_iff : posix.Anchored p ↔ posix.isRooted p = true := by
  rw [Anchored, isAbs_posix]
  simp

/-- A Windows path is anchored by a share, or by a drive with a separator behind it. -/
theorem anchored_windows_iff :
    windows.Anchored p ↔ windows.volume p ≠ .none ∧
      (windows.volume p = .drive → windows.isRooted (windows.tail p) = true) := by
  have hdevice : windows.volume p ≠ .none → isReservedName p = false :=
    fun hvol => Bool.eq_false_iff.2 fun h => hvol (volume_of_isReservedName h)
  have hdrop : windows.volume p = .drive →
      (p.drop 2).head?.any isSlash = windows.isRooted (windows.tail p) := by
    intro hvol
    rw [tail, volumeLength, hvol]
    rfl
  rw [Anchored, isAbs]
  cases hvol : windows.volume p with
  | none => simp
  | drive =>
      rw [hvol] at hdevice hdrop
      simp only [hdrop, hdevice (by simp)]
      simp
  | share n =>
      rw [hvol] at hdevice
      simp [hdevice]

theorem Anchored.ne_nil (h : d.Anchored p) : p ≠ [] := by
  rintro rfl
  cases d with
  | posix => cases anchored_posix_iff.1 h
  | windows => exact (anchored_windows_iff.1 h).1 rfl

/-- What follows the volume of an anchored path is nothing or starts with a separator. -/
theorem Anchored.isRooted_tail (h : d.Anchored p) (htail : d.tail p ≠ []) :
    d.isRooted (d.tail p) = true := by
  cases d with
  | posix => exact anchored_posix_iff.1 h
  | windows =>
      obtain ⟨hvol, hdrive⟩ := anchored_windows_iff.1 h
      cases hcase : windows.volume p with
      | none => exact absurd hcase hvol
      | drive => exact hdrive hcase
      | share n => exact (isRooted_tail_of_share (by rw [hcase]; rfl)).resolve_left htail

/-- An anchored path with nothing behind its volume is a share. -/
theorem Anchored.isShare_of_tail_eq_nil (h : d.Anchored p) (htail : d.tail p = []) :
    (d.volume p).isShare = true := by
  cases d with
  | posix => exact absurd htail h.ne_nil
  | windows =>
      obtain ⟨hvol, hdrive⟩ := anchored_windows_iff.1 h
      cases hcase : windows.volume p with
      | none => exact absurd hcase hvol
      | drive =>
          have hroot := hdrive hcase
          rw [htail] at hroot
          cases hroot
      | share n => rfl

/-! ## Text behind a root -/

/-- More text behind a root leaves the volume as it is. -/
theorem volume_of_isPrefix (h : d.Anchored b) (htail : d.tail b ≠ []) (hq : b <+: q) :
    d.volume q = d.volume b := by
  cases d with
  | posix => rfl
  | windows =>
      obtain ⟨t, rfl⟩ := hq
      cases hvol : windows.volume b with
      | none => exact absurd hvol (anchored_windows_iff.1 h).1
      | drive =>
          obtain ⟨c, rest, rfl, hc⟩ := volume_eq_drive_iff.1 hvol
          exact volume_eq_drive_iff.2 ⟨c, rest ++ t, rfl, hc⟩
      | share n =>
          have hroot := h.isRooted_tail htail
          rw [tail, volumeLength, hvol] at hroot
          obtain ⟨u, rest, rfl, hu, -, rfl⟩ := volume_eq_share_iff.1 hvol
          rw [Volume.length, List.drop_left] at hroot
          refine volume_eq_share_iff.2 ⟨u, rest ++ t, List.append_assoc u rest t, hu, .inr ?_, rfl⟩
          cases rest with
          | nil => cases hroot
          | cons c rest => exact hroot

theorem tail_of_isPrefix (h : d.Anchored b) (htail : d.tail b ≠ []) (hq : b <+: q) :
    d.tail b <+: d.tail q := by
  rw [tail, tail, volumeLength, volumeLength, volume_of_isPrefix h htail hq, ← volumeLength]
  obtain ⟨t, rfl⟩ := hq
  rw [List.drop_append_of_le_length (volumeLength_le d b)]
  exact List.prefix_append _ t

/-- More text leaves an anchored path anchored. -/
theorem Anchored.of_isPrefix (h : d.Anchored b) (hq : b <+: q) : d.Anchored q := by
  by_cases htail : d.tail b = []
  · have hshare := h.isShare_of_tail_eq_nil htail
    cases d with
    | posix => cases hshare
    | windows =>
        -- The name of a bare share may go on, but it stays the name of a share.
        obtain ⟨u, hu, hbegins⟩ := isShare_volume_iff.1 hshare
        obtain ⟨n, hvol⟩ := exists_share (isShare_volume_iff.2 ⟨u, hu, hbegins.trans hq⟩)
        rw [anchored_windows_iff, hvol]
        exact ⟨by simp, by simp⟩
  · have hroot : d.isRooted (d.tail q) = true := by
      rw [isRooted_of_isPrefix htail (tail_of_isPrefix h htail hq)]
      exact h.isRooted_tail htail
    cases d with
    | posix => exact anchored_posix_iff.2 hroot
    | windows =>
        rw [anchored_windows_iff, volume_of_isPrefix h htail hq]
        exact ⟨(anchored_windows_iff.1 h).1, fun _ => hroot⟩

/-- Text with a separator in front, behind the name of the volume of an anchored path, is anchored
with that volume. -/
theorem Anchored.name_append {t : Text} (h : d.Anchored p) (ht : d.isRooted t = true) :
    d.volumeName (d.volumeName p ++ t) = d.volumeName p ∧ d.tail (d.volumeName p ++ t) = t ∧
      d.Anchored (d.volumeName p ++ t) := by
  have hvolume : d.volume (d.volumeName p ++ t) = d.volume p := by
    cases d with
    | posix => rfl
    | windows =>
        exact volume_volumeName_append (fun hnone => absurd hnone (anchored_windows_iff.1 h).1)
          fun _ => .inr ht
  obtain ⟨hname, htail⟩ := volumeName_append hvolume
  refine ⟨hname, htail, ?_⟩
  cases d with
  | posix => exact anchored_posix_iff.2 ht
  | windows =>
      rw [anchored_windows_iff, hvolume, htail]
      exact ⟨(anchored_windows_iff.1 h).1, fun _ => ht⟩

/-! ## Joined paths -/

/-- Elements are put together behind the first one, if it is not empty. -/
theorem isPrefix_concat (hb : b ≠ []) (es : List Text) : b <+: d.concat (b :: es) := by
  cases d with
  | posix =>
      rw [concat, List.dropWhile_cons_of_neg (by simpa using hb)]
      cases es with
      | nil => exact ⟨[], by rw [List.append_nil, List.intercalate_singleton]⟩
      | cons e es =>
          rw [List.intercalate_cons_of_ne_nil (List.cons_ne_nil e es), List.append_assoc]
          exact List.prefix_append _ _
  | windows =>
      have hkept := foldl_attach (P := fun t => b <+: t)
        (fun t e ht hprefix => hprefix.trans (attached ht e).isPrefix) es hb (List.prefix_refl b)
      exact hkept.2

/-- Elements put together behind an anchored path are anchored. -/
theorem Anchored.concat (h : d.Anchored b) (es : List Text) : d.Anchored (d.concat (b :: es)) :=
  h.of_isPrefix (isPrefix_concat h.ne_nil es)

/-! ## Names behind a root -/

/-- Names with a separator in front of each. -/
def trail (d : Dialect) (es : List Text) : Text := es.flatMap fun e => d.sep :: e

@[simp] theorem trail_nil (d : Dialect) : d.trail [] = [] := rfl

@[simp] theorem trail_cons (d : Dialect) (e : Text) (es : List Text) :
    d.trail (e :: es) = d.sep :: (e ++ d.trail es) := rfl

@[simp] theorem trail_append (d : Dialect) (es fs : List Text) :
    d.trail (es ++ fs) = d.trail es ++ d.trail fs := List.flatMap_append

/-- Names with a separator in front of each and behind them start with one. -/
theorem isRooted_trail_concat (d : Dialect) (es : List Text) :
    d.isRooted (d.trail es ++ [d.sep]) = true := by
  cases es with
  | nil => exact isSep_sep d
  | cons e es => exact isSep_sep d

/-- Names behind a root are spelled with a separator in front of each. -/
theorem spell_eq_trail {es : List Text} (h : es ≠ []) : d.spell true es = d.trail es := by
  have hcons (e : Text) (es : List Text) :
      d.sep :: [d.sep].intercalate (e :: es) = d.trail (e :: es) := by
    induction es generalizing e with
    | nil => simp
    | cons f es ih =>
        rw [List.intercalate_cons_of_ne_nil (List.cons_ne_nil f es), List.append_assoc,
          List.singleton_append, ih, trail_cons d e]
  obtain ⟨e, es, rfl⟩ := List.exists_cons_of_ne_nil h
  exact hcons e es

theorem elements_trail {es : List Text} (h : ∀ e ∈ es, IsElement d e) :
    d.elements (d.trail es) = es := by
  by_cases hes : es = []
  · rw [hes, trail_nil, elements_nil]
  · rw [← spell_eq_trail hes, elements_spell h]

end Dialect

/-- A path that is a volume and names behind it, each with a separator in front. A root without
names is written as a separator, but a share can stand alone. -/
structure RootedAs (d : Dialect) (v : Text) (es : List Text) (p : Text) : Prop where
  volumeName_eq : d.volumeName p = v
  elements : ∀ e ∈ es, IsElement d e
  no_parent : parentElement ∉ es
  text_eq : p = v ++ d.spell true es ∨ es = [] ∧ p = v ∧ (d.volume p).isShare = true

namespace RootedAs

open Dialect

variable {d : Dialect} {v p q : Text} {es : List Text}

theorem resolved (h : RootedAs d v es p) : Resolved true es :=
  resolved_of_notMem h.no_parent

theorem volumeLength_eq (h : RootedAs d v es p) : d.volumeLength p = v.length := by
  rw [← volumeName_length, h.volumeName_eq]

/-- What follows the volume is spelled from the names, or nothing. -/
theorem tail_eq (h : RootedAs d v es p) :
    d.tail p = d.spell true es ∨
      es = [] ∧ d.tail p = [] ∧ p = v ∧ (d.volume p).isShare = true := by
  rw [tail, h.volumeLength_eq]
  rcases h.text_eq with htext | ⟨hes, htext, hshare⟩
  · left
    conv_lhs => rw [htext]
    rw [List.drop_left]
  · refine .inr ⟨hes, ?_, htext, hshare⟩
    conv_lhs => rw [htext]
    rw [List.drop_length]

theorem elements_tail (h : RootedAs d v es p) : d.elements (d.tail p) = es := by
  rcases h.tail_eq with htail | ⟨hes, htail, -, -⟩
  · rw [htail, elements_spell h.elements]
  · rw [htail, hes, elements_nil]

/-- The path ends behind its names, or with the separator of a root without names. -/
theorem exists_end (h : RootedAs d v es p) :
    ∃ u, p = v ++ (d.trail es ++ u) ∧ (u = [] ∨ es = [] ∧ u = [d.sep]) := by
  rcases h.text_eq with htext | ⟨hes, htext, -⟩
  · by_cases hes : es = []
    · exact ⟨[d.sep], by rw [htext, hes]; rfl, .inr ⟨hes, rfl⟩⟩
    · exact ⟨[], by rw [List.append_nil, ← spell_eq_trail hes, ← htext], .inl rfl⟩
  · exact ⟨[], by rw [hes, trail_nil, List.append_nil, List.append_nil, htext], .inl rfl⟩

theorem normalForm_spell (h : RootedAs d v es p) :
    d.normalForm (d.spell true es) = d.spell true es := by
  have hwrite := normalForm_writeElements h.elements h.resolved
  rwa [writeElements_of_ne_nil (by simp [spell])] at hwrite

/-- Names behind a volume are a clean path. -/
theorem clean_eq (h : RootedAs d v es p) : d.clean p = p := by
  rcases h.tail_eq with htail | ⟨-, htail, htext, hshare⟩
  · have hne : d.tail p ≠ [] := by
      rw [htail]
      simp [spell]
    have hnormal : d.normalForm (d.tail p) = d.tail p := by rw [htail, h.normalForm_spell]
    have hp : d.fromSlash (p.take (d.volumeLength p)) ++ d.tail p = p := by
      have hname : d.fromSlash (p.take (d.volumeLength p)) = v := h.volumeName_eq
      rw [hname, htail]
      rcases h.text_eq with htext | ⟨-, htext, hshare⟩
      · exact htext.symm
      · rw [tail, h.volumeLength_eq, htext, List.drop_length] at hne
        exact absurd rfl hne
    by_cases hv : d = .posix ∨ 0 < d.volumeLength p
    · rw [clean_eq_append hne hv, hnormal, hp]
    · obtain ⟨hd, hzero⟩ := not_or.1 hv
      cases d with
      | posix => exact absurd rfl hd
      | windows =>
          have hnone := volumeLength_eq_zero_iff.1 (Nat.eq_zero_of_not_pos hzero)
          rw [tail_eq_self hnone] at hnormal
          exact clean_of_normal hnone hnormal
  · rw [clean, if_pos htail, if_pos hshare, htext, ← h.volumeName_eq, volumeName,
      fromSlash_fromSlash]

/-- Behind a Windows volume the path is anchored, and so is every such POSIX path. -/
theorem anchored (h : RootedAs d v es p) (hv : d = .windows → v ≠ []) : d.Anchored p := by
  have hroot : d.tail p = [] ∨ d.isRooted (d.tail p) = true := by
    rcases h.tail_eq with htail | ⟨-, htail, -⟩
    · rw [htail]
      exact .inr (isRooted_spell h.elements)
    · exact .inl htail
  cases d with
  | posix =>
      rcases h.tail_eq with htail | ⟨-, -, -, hshare⟩
      · rw [anchored_posix_iff, ← tail_posix p, htail]
        exact isRooted_spell h.elements
      · cases hshare
  | windows =>
      rw [anchored_windows_iff]
      constructor
      · intro hnone
        rw [← h.volumeName_eq, volumeName_eq_nil hnone] at hv
        exact hv rfl rfl
      · intro hdrive
        rcases h.tail_eq with htail | ⟨-, -, -, hshare⟩
        · rw [htail]
          exact isRooted_spell h.elements
        · rw [hdrive] at hshare
          cases hshare

end RootedAs

namespace Dialect

variable {d : Dialect} {p : Text}

/-- Cleaning an anchored path leaves its volume and the names that it resolves to. -/
theorem Anchored.rootedAs (h : d.Anchored p) :
    RootedAs d (d.volumeName p) (resolve true (d.elements (d.tail p))) (d.clean p) := by
  have hresolved := resolve_resolved true (d.elements (d.tail p))
  have hvolume : d.volume (d.clean p) = d.volume p := by
    cases d with
    | posix => rfl
    | windows => exact (cleanForm p).volume_eq
  have hname : d.volumeName (d.clean p) = d.volumeName p := by
    cases d with
    | posix => rfl
    | windows => exact (cleanForm p).volumeName_eq
  refine ⟨hname, fun e he => isElement_of_mem_elements (mem_of_mem_resolve he),
    hresolved.parentElement_notMem, ?_⟩
  by_cases htail : d.tail p = []
  · right
    have hshare := h.isShare_of_tail_eq_nil htail
    have hall : p.take (d.volumeLength p) = p :=
      List.take_of_length_le (List.drop_eq_nil_iff.1 htail)
    refine ⟨?_, ?_, hvolume ▸ hshare⟩
    · rw [htail, elements_nil]
      rfl
    · rw [clean, if_pos htail, if_pos hshare, volumeName, hall]
  · left
    have hpos : d = .posix ∨ 0 < d.volumeLength p := by
      cases d with
      | posix => exact .inl rfl
      | windows =>
          right
          exact Nat.pos_of_ne_zero (mt volumeLength_eq_zero_iff.1 (anchored_windows_iff.1 h).1)
    rw [clean_eq_append htail hpos, normalForm, h.isRooted_tail htail,
      writeElements_of_ne_nil (by simp [spell]), volumeName]

theorem Anchored.volumeName_ne_nil (h : d.Anchored p) (hd : d = .windows) :
    d.volumeName p ≠ [] := by
  subst hd
  intro hnil
  have hlength := volumeName_length windows p
  rw [hnil] at hlength
  exact (anchored_windows_iff.1 h).1 (volumeLength_eq_zero_iff.1 hlength.symm)

/-- Cleaning leaves an anchored path anchored. -/
theorem Anchored.clean (h : d.Anchored p) : d.Anchored (d.clean p) :=
  h.rootedAs.anchored h.volumeName_ne_nil

/-- Joining to an anchored text gives a clean anchored path. -/
theorem Anchored.join {es : List Text} (h : d.Anchored (d.concat es)) :
    d.Anchored (d.join es) ∧ d.clean (d.join es) = d.join es := by
  rw [join_eq_clean h.ne_nil]
  exact ⟨h.clean, h.rootedAs.clean_eq⟩

/-- A clean anchored path is its volume and its elements. -/
theorem Anchored.rootedAs_of_clean (h : d.Anchored p) (hclean : d.clean p = p) :
    RootedAs d (d.volumeName p) (d.elements (d.tail p)) p := by
  have hrooted := h.rootedAs
  rw [hclean] at hrooted
  have helements := hrooted.elements_tail
  rwa [← helements] at hrooted

end Dialect

end PathAlgebra
