import PathAlgebra.Proofs.Beginnings
import PathAlgebra.Proofs.LetterCase

/-!
# Plain Windows paths

A cleaned Windows path gets a guard because of a colon or a question mark. A plain path has a colon
only in its drive and no question mark, so it is cleaned to its volume and the normal form of what
follows it (`clean_of_plain`). Only a bare share, with nothing behind it, is cleaned to its volume
alone.

Joining a text to a cleaned plain path goes on from its elements behind the same volume, and only
separators and dots come in between (`Continues`), so there is still nothing to guard
(`join_clean_of_plain`). A share is a root by itself (`startsAtRoot`): what is joined to a bare one
is rooted behind it.
-/

set_option autoImplicit false

namespace PathAlgebra

open Dialect

/-- A Windows path with a colon in its drive at most, and without a question mark. -/
structure IsPlain (p : Text) : Prop where
  drive_of_colon : ':' ∈ p → windows.volume p = .drive
  no_colon : ':' ∉ windows.tail p
  no_mark : '?' ∉ p

instance (p : Text) : Decidable (IsPlain p) :=
  decidable_of_iff ((':' ∈ p → windows.volume p = .drive) ∧ ':' ∉ windows.tail p ∧ '?' ∉ p)
    ⟨fun ⟨hdrive, hcolon, hmark⟩ => ⟨hdrive, hcolon, hmark⟩,
      fun ⟨hdrive, hcolon, hmark⟩ => ⟨hdrive, hcolon, hmark⟩⟩

/-- A share with nothing behind it. -/
def IsBareShare (p : Text) : Prop := (windows.volume p).isShare = true ∧ windows.tail p = []

instance (p : Text) : Decidable (IsBareShare p) := inferInstanceAs (Decidable (_ ∧ _))

namespace Dialect

variable {p : Text}

/-- A path with a drive, or without a volume, is no bare share. -/
theorem not_isBareShare {v : Volume} (hvol : windows.volume p = v) (h : v.isShare = false) :
    ¬ IsBareShare p := by
  rintro ⟨hshare, -⟩
  rw [hvol, h] at hshare
  cases hshare

theorem mem_of_mem_tail {d : Dialect} {c : Char} (hc : c ∈ d.tail p) : c ∈ p :=
  (List.drop_sublist _ _).subset hc

end Dialect

theorem IsPlain.no_mark_tail {p : Text} (h : IsPlain p) : '?' ∉ windows.tail p :=
  fun hm => h.no_mark (mem_of_mem_tail hm)

namespace Dialect

variable {p : Text}

/-! ## Cleaning -/

/-- Without a guard a path is cleaned to its volume and the normal form of what follows it. -/
theorem clean_of_not_guarded (h : ¬ IsGuarded p) (hbare : ¬ IsBareShare p) :
    windows.clean p = windows.volumeName p ++ windows.normalForm (windows.tail p) := by
  by_cases hvol : windows.volume p = .none
  · rw [volumeName_eq_nil hvol, tail_eq_self hvol, List.nil_append]
    by_contra hguard
    exact h ⟨hvol, hguard⟩
  · have hform := cleanForm p
    generalize windows.clean p = q at hform
    cases hform with
    | share hshare htail => exact absurd ⟨by rw [hshare]; rfl, htail⟩ hbare
    | behind hsome hshare => rfl
    | plain hnone hnormal => exact absurd hnone hvol
    | guarded hnone hg => exact absurd hnone hvol

/-- On a drive what follows the drive is cleaned to its normal form. -/
theorem clean_drive {c : Char} (hc : c.isAlpha = true) (t : Text) :
    windows.clean (c :: ':' :: t) = c :: ':' :: windows.normalForm t := by
  have hvol := volume_drive hc t
  have hguard : ¬ IsGuarded (c :: ':' :: t) := by
    rintro ⟨hnone, -⟩
    rw [hvol] at hnone
    cases hnone
  have hbare : ¬ IsBareShare (c :: ':' :: t) := not_isBareShare hvol rfl
  have hname : windows.volumeName (c :: ':' :: t) = [c, ':'] := by
    rw [volumeName, volumeLength, hvol]
    exact fromSlash_drive hc
  rw [clean_of_not_guarded hguard hbare, hname, tail_drive hc]
  rfl

/-- Without a colon and a question mark behind the volume there is nothing to guard. -/
theorem not_isGuarded_of_marks (hcolon : ':' ∉ windows.tail p) (hmark : '?' ∉ windows.tail p) :
    ¬ IsGuarded p := by
  intro hguarded
  rw [tail_eq_self hguarded.1] at hcolon hmark
  rcases guardFor_cases windows p with ⟨h, -⟩ | ⟨-, -, e, es, heq, hc⟩ | ⟨-, t, ht⟩
  · exact absurd h hguarded.guardFor_ne_nil
  · have he : e ∈ windows.resolvedElements p := by
      rw [heq]
      exact List.mem_cons_self
    exact absurd (mem_of_mem_resolvedElements he hc) hcolon
  · have hc : '?' ∈ windows.normalForm p := by simp [← ht]
    exact absurd hc (notMem_normalForm (by decide) (by decide) hmark)

theorem clean_of_marks (hcolon : ':' ∉ windows.tail p) (hmark : '?' ∉ windows.tail p)
    (hbare : ¬ IsBareShare p) :
    windows.clean p = windows.volumeName p ++ windows.normalForm (windows.tail p) :=
  clean_of_not_guarded (not_isGuarded_of_marks hcolon hmark) hbare

/-- Without a volume as well the path is cleaned to its normal form. -/
theorem clean_of_no_volume (hvol : windows.volume p = .none) (hcolon : ':' ∉ p) (hmark : '?' ∉ p) :
    windows.clean p = windows.normalForm p := by
  have hbare : ¬ IsBareShare p := not_isBareShare hvol rfl
  rw [clean_of_marks (fun hm => hcolon (mem_of_mem_tail hm)) (fun hm => hmark (mem_of_mem_tail hm))
    hbare, volumeName_eq_nil hvol, tail_eq_self hvol, List.nil_append]

theorem not_isGuarded_of_plain (h : IsPlain p) : ¬ IsGuarded p :=
  not_isGuarded_of_marks h.no_colon h.no_mark_tail

theorem clean_of_plain (h : IsPlain p) (hbare : ¬ IsBareShare p) :
    windows.clean p = windows.volumeName p ++ windows.normalForm (windows.tail p) :=
  clean_of_not_guarded (not_isGuarded_of_plain h) hbare

theorem clean_of_bareShare (h : IsBareShare p) : windows.clean p = windows.volumeName p := by
  have hall : p.take (windows.volumeLength p) = p :=
    List.take_of_length_le (List.drop_eq_nil_iff.1 h.2)
  rw [clean, if_pos h.2, if_pos h.1, volumeName, hall]

theorem isBareShare_clean (h : IsBareShare p) : IsBareShare (windows.clean p) := by
  have hvolume := (cleanForm p).volume_eq
  refine ⟨hvolume ▸ h.1, ?_⟩
  rw [tail, volumeLength, hvolume, clean_of_bareShare h, ← volumeLength, ← volumeName_length,
    List.drop_length]

/-! ## Characters of cleaned paths -/

theorem mem_volumeName {c : Char} (hc : c ∈ windows.volumeName p) : c = '\\' ∨ c ∈ p := by
  rcases mem_fromSlash hc with h | h
  · exact .inl h
  · exact .inr ((List.take_sublist _ _).subset h)

theorem isAscii_volumeName (h : IsAscii p) : IsAscii (windows.volumeName p) := by
  intro c hc
  rcases mem_volumeName hc with rfl | hc
  · decide
  · exact h c hc

theorem isAscii_of_mem_resolvedElements (h : IsAscii p) {e : Text}
    (he : e ∈ windows.resolvedElements (windows.tail p)) : IsAscii e :=
  fun c hc => h c (mem_of_mem_tail (mem_of_mem_resolvedElements he hc))

theorem isAscii_writeElements {rooted : Bool} {es : List Text} (h : ∀ e ∈ es, IsAscii e) :
    IsAscii (windows.writeElements rooted es) := by
  intro c hc
  rcases mem_of_mem_writeElements hc with rfl | rfl | ⟨e, he, hc⟩
  · decide
  · decide
  · exact h e he c hc

theorem isAscii_append {t u : Text} (ht : IsAscii t) (hu : IsAscii u) : IsAscii (t ++ u) := by
  intro c hc
  rcases List.mem_append.1 hc with hc | hc
  · exact ht c hc
  · exact hu c hc

/-- A cleaned path has characters of the path, separators and dots. -/
theorem mem_of_mem_clean {c : Char} (hc : c ∈ windows.clean p) : c = '\\' ∨ c = '.' ∨ c ∈ p := by
  have hform := cleanForm p
  generalize windows.clean p = q at hform hc
  cases hform with
  | share hvol htail =>
      rcases mem_fromSlash hc with h | h
      · exact .inl h
      · exact .inr (.inr h)
  | behind hvol hshare =>
      rcases List.mem_append.1 hc with h | h
      · rcases mem_volumeName h with h | h
        · exact .inl h
        · exact .inr (.inr h)
      · rcases mem_of_mem_normalForm h with h | h | h
        · exact .inl h
        · exact .inr (.inl h)
        · exact .inr (.inr (mem_of_mem_tail h))
  | plain hvol hnone => exact mem_of_mem_normalForm hc
  | guarded hvol hg =>
      rcases List.mem_append.1 hc with h | h
      · rcases guardFor_cases windows p with ⟨hguard, -⟩ | ⟨hguard, -⟩ | ⟨hguard, -⟩
        · exact absurd hguard hg
        · rw [hguard] at h
          rcases (by simpa using h : c = '.' ∨ c = windows.sep) with h | h
          · exact .inr (.inl h)
          · exact .inl h
        · rw [hguard] at h
          rcases (by simpa using h : c = windows.sep ∨ c = '.') with h | h
          · exact .inl h
          · exact .inr (.inl h)
      · exact mem_of_mem_normalForm h

theorem isAscii_clean (h : IsAscii p) : IsAscii (windows.clean p) := by
  intro c hc
  rcases mem_of_mem_clean hc with rfl | rfl | hc
  · decide
  · decide
  · exact h c hc

/-! ## Roots -/

/-- Whether a path starts at a root behind its volume. A share is a root by itself. -/
def startsAtRoot (p : Text) : Bool :=
  windows.isRooted (windows.tail p) || (windows.volume p).isShare

theorem startsAtRoot_of_not_bareShare (h : ¬ IsBareShare p) :
    startsAtRoot p = windows.isRooted (windows.tail p) := by
  rw [startsAtRoot]
  cases hshare : (windows.volume p).isShare with
  | false => rw [Bool.or_false]
  | true =>
      rw [(isRooted_tail_of_share hshare).resolve_left fun htail => h ⟨hshare, htail⟩]
      rfl

theorem resolved_startsAtRoot (p : Text) :
    Resolved (startsAtRoot p) (windows.resolvedElements (windows.tail p)) := by
  by_cases hbare : IsBareShare p
  · rw [hbare.2]
    exact resolved_nil _
  · rw [startsAtRoot_of_not_bareShare hbare]
    exact resolvedElements_resolved windows (windows.tail p)

end Dialect

/-! ## Joining -/

theorem hasPrefixFold_mark_iff {c : Char} {t u : Text} :
    hasPrefixFold (c :: t) ('?' :: u) = true ↔ c = '?' ∧ hasPrefixFold t u = true := by
  have hstep : hasPrefixFold (c :: t) ('?' :: u) =
      ('?'.toUpper == c.toUpper && hasPrefixFold t u) := rfl
  rw [hstep, Bool.and_eq_true, beq_iff_eq, eq_comm, ← toUpper_eq_mark_iff]
  rfl

/-- A text without a question mark does not start as the device root does. -/
theorem hasPrefixFold_of_notMem {t : Text} (h : '?' ∉ t) : hasPrefixFold t ['?', '?'] = false := by
  cases t with
  | nil => rfl
  | cons c t =>
      rw [Bool.eq_false_iff, Ne, hasPrefixFold_mark_iff]
      rintro ⟨rfl, -⟩
      exact h List.mem_cons_self

/-- Of the texts without a slash only the two question marks start as the device root does. -/
theorem eq_marks_of_hasPrefixFold {t : Text} (hslash : ∀ c ∈ t, isSlash c = false)
    (h : hasPrefixFold t ['?', '?'] = true) : t = ['?', '?'] := by
  match t with
  | [] => cases h
  | [c] => exact absurd (hasPrefixFold_mark_iff.1 h).2 (by decide)
  | c :: c' :: t =>
      obtain ⟨rfl, hsecond⟩ := hasPrefixFold_mark_iff.1 h
      obtain ⟨rfl, hrest⟩ := hasPrefixFold_mark_iff.1 hsecond
      cases t with
      | nil => rfl
      | cons x t =>
          -- The question marks would be followed by a slash.
          have hx : isSlash x = true := hrest
          rw [hslash x (by simp)] at hx
          cases hx

/-- What stands in front of a base stays there. -/
theorem attach_append {v b e : Text} (hb : b ≠ []) (he : '?' ∉ e) :
    attach (v ++ b) e = v ++ attach b e := by
  have hfold : hasPrefixFold (e.dropWhile isSlash) ['?', '?'] = false :=
    hasPrefixFold_of_notMem fun hm => he ((List.dropWhile_sublist _).subset hm)
  cases hc : b.getLast? with
  | none => exact absurd (List.getLast?_eq_none_iff.1 hc) hb
  | some c =>
      have hlast : (v ++ b).getLast? = some c := by
        rw [List.getLast?_append, hc]
        rfl
      rw [attach, attach, hlast, hc]
      simp only [hfold, Bool.and_false, Bool.false_eq_true, if_false]
      split
      · rw [List.append_assoc]
      · split
        · rw [List.append_assoc]
        · rw [List.append_assoc]

namespace Dialect

variable {p : Text}

theorem not_doublyRooted_normalForm (t : Text) : ¬ windows.DoublyRooted (windows.normalForm t) := by
  rintro ⟨hfirst, hsecond⟩
  rw [isRooted_normalForm] at hfirst
  rw [isRooted_tail_normalForm hfirst] at hsecond
  cases hsecond

/-- A bare share is the text of a share. -/
theorem shareWritten_of_bareShare (h : IsBareShare p) : ShareWritten p := by
  obtain ⟨hshare, htail⟩ := h
  obtain ⟨n, hvol⟩ := exists_share hshare
  obtain ⟨u, rest, rfl, hu, -, rfl⟩ := volume_eq_share_iff.1 hvol
  have hrest : rest = [] := by
    rwa [tail, volumeLength, hvol, Volume.length, List.drop_left] at htail
  rwa [hrest, List.append_nil]

/-- A bare share ends with a character of its name. -/
theorem getLast?_of_bareShare (h : IsBareShare p) :
    ∃ c ∈ p, (windows.volumeName p).getLast? = some c ∧ isSlash c = false := by
  obtain ⟨c, hc, hlast, hslash⟩ := (shareWritten_of_bareShare h).getLast?
  have hname : windows.volumeName p = windows.fromSlash p := by
    rw [volumeName, List.take_of_length_le (List.drop_eq_nil_iff.1 h.2)]
  have hne : c ≠ '/' := by
    rintro rfl
    cases hslash
  refine ⟨c, hc, ?_, hslash⟩
  rw [hname, fromSlash, List.getLast?_map, hlast]
  simp [hne]

/-- What a text joined to a cleaned plain path makes of it: the same volume and, behind it, the
elements of both. Only separators and dots come in as further characters. -/
structure Continues (p r t : Text) : Prop where
  attach_eq : attach (windows.clean p) r = windows.volumeName p ++ t
  volume_eq : windows.volume (windows.volumeName p ++ t) = windows.volume p
  isRooted_eq : windows.isRooted t = startsAtRoot p
  elements_eq :
    windows.elements t = windows.resolvedElements (windows.tail p) ++ windows.elements r
  notMem {c : Char} : c ≠ '\\' → c ≠ '.' → c ∉ windows.tail p → c ∉ r → c ∉ t

/-- A bare share does not end with a slash or a colon, so a separator follows it. -/
theorem continues_bareShare (h : IsPlain p) (hbare : IsBareShare p) (r : Text) :
    Continues p r ('\\' :: r) where
  attach_eq := by
    obtain ⟨c, hc, hlast, hslash⟩ := getLast?_of_bareShare hbare
    have hcolon : c ≠ ':' := by
      rintro rfl
      exact not_isBareShare (h.drive_of_colon hc) rfl hbare
    rw [clean_of_bareShare hbare]
    exact attach_name hlast hslash hcolon
  volume_eq := by
    apply volume_volumeName_append
    · intro hnone
      exact absurd hbare (not_isBareShare hnone rfl)
    · exact fun _ => .inr rfl
  isRooted_eq := by
    rw [startsAtRoot, hbare.1, Bool.or_true]
    rfl
  elements_eq := by
    rw [hbare.2]
    exact elements_sep_cons (isSep_sep windows) r
  notMem hback _ _ hr := List.not_mem_cons_of_ne_of_not_mem hback hr

/-- Behind any other plain path the text is attached to the normal form of what follows the
volume. -/
theorem continues_normalForm (h : IsPlain p) (hbare : ¬ IsBareShare p) {r : Text}
    (hmark : '?' ∉ r) : Continues p r (attach (windows.normalForm (windows.tail p)) r) := by
  have hclean := clean_of_plain h hbare
  have hne : windows.normalForm (windows.tail p) ≠ [] := normalForm_ne_nil windows _
  have hattached := attached hne r
  have hroot : windows.isRooted (attach (windows.normalForm (windows.tail p)) r) =
      startsAtRoot p := by
    rw [isRooted_of_isPrefix hne hattached.isPrefix, isRooted_normalForm,
      startsAtRoot_of_not_bareShare hbare]
  refine ⟨?_, ?_, hroot, ?_, ?_⟩
  · rw [hclean]
    exact attach_append hne hmark
  · apply volume_volumeName_append
    -- Without a volume in front the text must not start with one.
    · intro hnone
      have hvolume := (cleanForm p).volume_eq
      rw [hclean, volumeName_eq_nil hnone, List.nil_append, hnone] at hvolume
      rw [hattached.volume_eq hne (not_doublyRooted_normalForm _), hvolume]
    · intro hshare
      rw [hroot, startsAtRoot, hshare, Bool.or_true]
      exact .inr rfl
  · have hcolon : ':' ∉ windows.normalForm (windows.tail p) :=
      notMem_normalForm (by decide) (by decide) h.no_colon
    have hlast : (windows.normalForm (windows.tail p)).getLast? ≠ some ':' :=
      fun hlast => hcolon (List.mem_of_getLast? hlast)
    rw [elements_attached hattached hlast, elements_normalForm]
  · intro c hback hdot htail hr
    exact hattached.notMem hback hdot (notMem_normalForm hback hdot htail) hr

/-- A text joined to a cleaned plain path goes on from its elements. -/
theorem join_clean_of_plain (h : IsPlain p) {r : Text} (hcolon : ':' ∉ r) (hmark : '?' ∉ r) :
    windows.join [windows.clean p, r] =
      windows.volumeName p ++ windows.writeElements (startsAtRoot p) (resolve (startsAtRoot p)
        (windows.resolvedElements (windows.tail p) ++ windows.elements r)) := by
  obtain ⟨t, ht⟩ : ∃ t, Continues p r t := by
    by_cases hbare : IsBareShare p
    · exact ⟨_, continues_bareShare h hbare r⟩
    · exact ⟨_, continues_normalForm h hbare hmark⟩
  have hconcat : windows.concat [windows.clean p, r] = windows.volumeName p ++ t := ht.attach_eq
  have hne : windows.concat [windows.clean p, r] ≠ [] := by
    obtain ⟨u, hu⟩ := (attached (cleanForm p).ne_nil r).isPrefix
    rw [hconcat, ← ht.attach_eq, ← hu]
    exact List.append_ne_nil_of_left_ne_nil (cleanForm p).ne_nil u
  obtain ⟨hname, htail⟩ := volumeName_append ht.volume_eq
  have hcolon' : ':' ∉ t := ht.notMem (by decide) (by decide) h.no_colon hcolon
  have hmark' : '?' ∉ t := ht.notMem (by decide) (by decide) h.no_mark_tail hmark
  -- Behind a share the joined text is rooted, so the share is not bare.
  have hbare : ¬ IsBareShare (windows.volumeName p ++ t) := by
    rintro ⟨hshare, hnil⟩
    rw [ht.volume_eq] at hshare
    rw [htail] at hnil
    have hroot := ht.isRooted_eq
    rw [hnil, startsAtRoot, hshare, Bool.or_true] at hroot
    cases hroot
  rw [join_eq_clean hne, hconcat, clean_of_marks (htail.symm ▸ hcolon') (htail.symm ▸ hmark') hbare,
    hname, htail, normalForm_eq, resolvedElements, ht.isRooted_eq, ht.elements_eq]

end Dialect

end PathAlgebra
