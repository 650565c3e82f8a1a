import PathAlgebra.Proofs.Volumes
import PathAlgebra.Proofs.Resolution
import PathAlgebra.Text.LowerCase

/-!
# Letter case of ASCII paths

Lower case changes letters into letters and nothing else, and so does upper case. So both keep the
volume of a path (`keepsVolumes_toLower`, `keepsVolumes_toUpper`). Lower case keeps the `..`
elements of a path (`map_toLower_eq_parent_iff`), and with them whether its elements are resolved
(`resolved_map_iff`); so a path may be put in lower case before its elements are read off and resolved
or after (`resolvedElements_toLower`). Two ASCII texts have the same lower-case form when they have it character by
character (`lowerCase_eq_iff`).
-/

set_option autoImplicit false

namespace PathAlgebra

/-! ## Characters -/

/-- Only capital letters have another lower-case form. -/
theorem toLower_eq_or_capital (c : Char) : c.toLower = c ∨ ∃ n < 26, c = Char.ofNat (65 + n) := by
  by_cases h : 65 ≤ c.toNat ∧ c.toNat ≤ 90
  · refine .inr ⟨c.toNat - 65, by omega, ?_⟩
    have hcode : 65 + (c.toNat - 65) = c.toNat := by omega
    rw [hcode, Char.ofNat_toNat]
  · left
    unfold Char.toLower
    rw [dif_neg]
    rintro ⟨hfirst, hlast⟩
    exact h ⟨hfirst, hlast⟩

/-- Only small letters have another upper-case form. -/
theorem toUpper_eq_or_small (c : Char) : c.toUpper = c ∨ ∃ n < 26, c = Char.ofNat (97 + n) := by
  by_cases h : 97 ≤ c.toNat ∧ c.toNat ≤ 122
  · refine .inr ⟨c.toNat - 97, by omega, ?_⟩
    have hcode : 97 + (c.toNat - 97) = c.toNat := by omega
    rw [hcode, Char.ofNat_toNat]
  · left
    unfold Char.toUpper
    rw [dif_neg]
    rintro ⟨hfirst, hlast⟩
    exact h ⟨hfirst, hlast⟩

/-- What takes every capital letter for its small one takes every character for its lower case. -/
theorem congr_toLower {α : Type} (f : Char → α)
    (h : ∀ n < 26, f (Char.ofNat (65 + n)).toLower = f (Char.ofNat (65 + n))) (c : Char) :
    f c.toLower = f c := by
  rcases toLower_eq_or_capital c with hc | ⟨n, hn, rfl⟩
  · rw [hc]
  · exact h n hn

/-- What takes every small letter for its capital one takes every character for its upper case. -/
theorem congr_toUpper {α : Type} (f : Char → α)
    (h : ∀ n < 26, f (Char.ofNat (97 + n)).toUpper = f (Char.ofNat (97 + n))) (c : Char) :
    f c.toUpper = f c := by
  rcases toUpper_eq_or_small c with hc | ⟨n, hn, rfl⟩
  · rw [hc]
  · exact h n hn

/-- Lower case keeps volumes. -/
theorem keepsVolumes_toLower : Dialect.KeepsVolumes Char.toLower where
  isSlash_eq := congr_toLower isSlash (by decide)
  isAlpha_eq := congr_toLower Char.isAlpha (by decide)
  colon_eq := congr_toLower (· == ':') (by decide)
  dot_eq := congr_toLower (· != '.') (by decide)

/-- Upper case keeps volumes. -/
theorem keepsVolumes_toUpper : Dialect.KeepsVolumes Char.toUpper where
  isSlash_eq := congr_toUpper isSlash (by decide)
  isAlpha_eq := congr_toUpper Char.isAlpha (by decide)
  colon_eq := congr_toUpper (· == ':') (by decide)
  dot_eq := congr_toUpper (· != '.') (by decide)

/-! ## Elements -/

theorem toLower_eq_dot_iff (c : Char) : c.toLower = '.' ↔ c = '.' := by
  have h := keepsVolumes_toLower.dot_eq c
  rw [Bool.eq_iff_iff, bne_iff_ne, bne_iff_ne] at h
  exact not_iff_not.1 h

theorem toUpper_eq_mark_iff (c : Char) : c.toUpper = '?' ↔ c = '?' := by
  have h := congr_toUpper (· == '?') (by decide) c
  rw [Bool.eq_iff_iff, beq_iff_eq, beq_iff_eq] at h
  exact h

theorem map_toLower_eq_dot_iff (e : Text) : e.map Char.toLower = ['.'] ↔ e = ['.'] := by
  simp [List.map_eq_cons_iff, toLower_eq_dot_iff]

theorem map_toLower_eq_parent_iff (e : Text) :
    e.map Char.toLower = parentElement ↔ e = parentElement := by
  simp [parentElement, List.map_eq_cons_iff, toLower_eq_dot_iff]

/-- A change of elements that keeps `..` keeps whether a list is resolved. -/
theorem resolved_map_iff {f : Text → Text} (h : ∀ e, f e = parentElement ↔ e = parentElement)
    {rooted : Bool} {es : List Text} : Resolved rooted (es.map f) ↔ Resolved rooted es := by
  have hnames (names : List Text) : parentElement ∈ names.map f ↔ parentElement ∈ names := by
    simp [List.mem_map, h]
  constructor
  · rintro ⟨ups, names, heq, hname, hups⟩
    obtain ⟨us, ns, rfl, hus, rfl⟩ := List.map_eq_append_iff.1 heq
    -- What becomes a run of `..` has been one.
    have hall : us = List.replicate ups parentElement := by
      rw [List.eq_replicate_iff]
      constructor
      · rw [← List.length_map f, hus, List.length_replicate]
      · intro u hu
        have hmem : f u ∈ List.replicate ups parentElement := hus ▸ List.mem_map_of_mem hu
        exact (h u).1 (List.eq_of_mem_replicate hmem)
    exact ⟨ups, ns, by rw [hall], fun hm => hname ((hnames ns).2 hm), hups⟩
  · rintro ⟨ups, names, rfl, hname, hups⟩
    refine ⟨ups, names.map f, ?_, fun hm => hname ((hnames names).1 hm), hups⟩
    rw [List.map_append, List.map_replicate, (h parentElement).2 rfl]

/-- Such a change can be made before elements are resolved or after. -/
theorem resolve_map {f : Text → Text} (h : ∀ e, f e = parentElement ↔ e = parentElement)
    (rooted : Bool) (es : List Text) : resolve rooted (es.map f) = (resolve rooted es).map f := by
  have hparent : f parentElement = parentElement := (h parentElement).2 rfl
  have hpush (stack : List Text) (e : Text) : pushElement rooted (stack.map f) (f e) =
      (pushElement rooted stack e).map f := by
    by_cases he : e = parentElement
    · rw [he, hparent]
      cases stack with
      | nil => cases rooted <;> simp [pushElement, hparent]
      | cons top rest => by_cases ht : top = parentElement <;> simp [pushElement, h, hparent, ht]
    · rw [pushElement_name he, pushElement_name (mt (h e).1 he), List.map_cons]
  have hfold (stack : List Text) : (es.map f).foldl (pushElement rooted) (stack.map f) =
      (es.foldl (pushElement rooted) stack).map f := by
    induction es generalizing stack with
    | nil => rfl
    | cons e es ih => rw [List.map_cons, List.foldl_cons, List.foldl_cons, hpush, ih]
  rw [resolve, resolve, List.map_reverse, ← hfold]
  rfl

/-! ## Texts in lower case -/

namespace Dialect

variable (t : Text)

theorem isRooted_toLower : windows.isRooted (t.map Char.toLower) = windows.isRooted t := by
  cases t with
  | nil => rfl
  | cons c t => exact keepsVolumes_toLower.isSlash_eq c

theorem tail_toLower : windows.tail (t.map Char.toLower) = (windows.tail t).map Char.toLower := by
  rw [tail, tail, volumeLength, keepsVolumes_toLower.volume_map, List.map_drop, volumeLength]

theorem fromSlash_toLower :
    windows.fromSlash (t.map Char.toLower) = (windows.fromSlash t).map Char.toLower := by
  have hslash (c : Char) : (c.toLower == '/') = (c == '/') :=
    congr_toLower (· == '/') (by decide) c
  rw [fromSlash, fromSlash, List.map_map, List.map_map]
  refine List.map_congr_left fun c _ => ?_
  rw [Function.comp, Function.comp, hslash]
  split
  · rfl
  · rfl

theorem volumeName_toLower :
    windows.volumeName (t.map Char.toLower) = (windows.volumeName t).map Char.toLower := by
  rw [volumeName, volumeName, volumeLength, keepsVolumes_toLower.volume_map, ← fromSlash_toLower,
    List.map_take, volumeLength]

theorem elements_toLower :
    windows.elements (t.map Char.toLower) = (windows.elements t).map (List.map Char.toLower) := by
  have hkeep : ((fun e => decide (e ≠ [] ∧ e ≠ ['.'])) ∘ List.map Char.toLower) =
      fun e => decide (e ≠ [] ∧ e ≠ ['.']) := by
    funext e
    rw [Function.comp, decide_eq_decide, Ne, Ne, List.map_eq_nil_iff, map_toLower_eq_dot_iff]
  have hsplit : (t.map Char.toLower).splitOnP windows.isSep =
      (t.splitOnP windows.isSep).map (List.map Char.toLower) :=
    splitOnP_map keepsVolumes_toLower.isSlash_eq t
  rw [elements, elements, hsplit, List.filter_map, hkeep]

theorem resolvedElements_toLower : windows.resolvedElements (t.map Char.toLower) =
    (windows.resolvedElements t).map (List.map Char.toLower) := by
  rw [resolvedElements, resolvedElements, isRooted_toLower, elements_toLower,
    resolve_map map_toLower_eq_parent_iff]

theorem spell_toLower (rooted : Bool) (es : List Text) :
    windows.spell rooted (es.map (List.map Char.toLower)) =
      (windows.spell rooted es).map Char.toLower := (map_spell rfl rooted es).symm

theorem writeElements_toLower (rooted : Bool) (es : List Text) :
    windows.writeElements rooted (es.map (List.map Char.toLower)) =
      (windows.writeElements rooted es).map Char.toLower := (map_writeElements rfl rfl rooted es).symm

theorem normalForm_toLower :
    windows.normalForm (t.map Char.toLower) = (windows.normalForm t).map Char.toLower := by
  rw [normalForm_eq, normalForm_eq, isRooted_toLower, resolvedElements_toLower,
    writeElements_toLower]

/-! ## Texts in another letter case -/

section OtherCase

variable {t u : Text} (h : t.map Char.toLower = u.map Char.toLower)

include h

theorem volume_congr_toLower : windows.volume t = windows.volume u := by
  rw [← keepsVolumes_toLower.volume_map t, h, keepsVolumes_toLower.volume_map]

theorem isRooted_tail_congr_toLower :
    windows.isRooted (windows.tail t) = windows.isRooted (windows.tail u) := by
  rw [← isRooted_toLower, ← tail_toLower, h, tail_toLower, isRooted_toLower]

theorem volumeName_congr_toLower :
    (windows.volumeName t).map Char.toLower = (windows.volumeName u).map Char.toLower := by
  rw [← volumeName_toLower, h, volumeName_toLower]

theorem resolvedElements_congr_toLower :
    (windows.resolvedElements (windows.tail t)).map (List.map Char.toLower) =
      (windows.resolvedElements (windows.tail u)).map (List.map Char.toLower) := by
  rw [← resolvedElements_toLower, ← tail_toLower, h, tail_toLower, resolvedElements_toLower]

end OtherCase

end Dialect

/-! ## ASCII texts -/

/-- A text of ASCII characters. -/
def IsAscii (t : Text) : Prop := ∀ c ∈ t, c.toNat < 128

instance (t : Text) : Decidable (IsAscii t) :=
  decidable_of_iff ((t.all fun c => c.toNat < 128) = true) (by simp [IsAscii])

theorem lowerCase_eq_iff {t u : Text} (ht : IsAscii t) (hu : IsAscii u) :
    t.lowerCase = u.lowerCase ↔ t.map Char.toLower = u.map Char.toLower := by
  rw [Text.lowerCase_ascii ht, Text.lowerCase_ascii hu]

/-- A text without capital letters is its own lower-case form. -/
theorem lowerCase_eq_self {t : Text} (h : IsAscii t) (hlower : ∀ c ∈ t, c.isUpper = false) :
    t.lowerCase = t := by
  have hcapital : ∀ n < 26, (Char.ofNat (65 + n)).isUpper = true := by decide
  rw [Text.lowerCase_ascii h]
  conv_rhs => rw [← List.map_id t]
  apply List.map_congr_left
  intro c hc
  rcases toLower_eq_or_capital c with hself | ⟨n, hn, rfl⟩
  · exact hself
  · have hupper := hcapital n hn
    rw [hlower _ hc] at hupper
    cases hupper

end PathAlgebra
