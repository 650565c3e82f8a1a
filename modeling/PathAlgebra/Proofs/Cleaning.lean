import PathAlgebra.Proofs.Sweeping

/-!
# Cleaning writes the normal form

Cleaning agrees with resolving the elements of a path on a stack (`clean_eq_resolved`). Behind a
volume, and under the POSIX dialect everywhere, the cleaned path is the volume in native spelling
and the normal form of what follows it (`clean_eq_append`). A Windows path without a volume may get
a guard in front of its normal form: exactly when its overlay has diverged and the normal form reads
as a volume or as the device root (`clean_eq_guarded`). A normal form that is left without the guard
it could have is a beginning of the path as written.
-/

set_option autoImplicit false

namespace PathAlgebra

namespace Dialect

variable {d : Dialect} {p : Text}

/-- The first element of a relative normal form has a colon. -/
def ColonFirst (d : Dialect) (t : Text) : Prop :=
  d.isRooted t = false ∧
    ∃ e es, d.resolvedElements t = e :: es ∧ ':' ∈ e

/-- A text that starts as the device root does. -/
def DeviceFirst (d : Dialect) (t : Text) : Prop := [d.sep, '?', '?'] <+: t

/-! ## Guards -/

theorem takeWhile_noSep_intercalate {e : Text} {es : List Text}
    (h : ∀ c ∈ e, d.isSep c = false) :
    ([d.sep].intercalate (e :: es)).takeWhile (fun c => !d.isSep c) = e := by
  by_cases hes : es = []
  · have hrun := takeWhile_noSep h (.inl rfl)
    rw [List.append_nil] at hrun
    rw [hes, List.intercalate_singleton, hrun]
  · rw [List.intercalate_cons_of_ne_nil hes, List.append_assoc]
    exact takeWhile_noSep h (.inr (isSep_sep d))

/-- The run before the first separator of a normal form has a colon when its first element has. -/
theorem colon_mem_takeWhile_iff (d : Dialect) (t : Text) :
    ':' ∈ (d.normalForm t).takeWhile (fun c => !d.isSep c) ↔ d.ColonFirst t := by
  have hes : ∀ e ∈ d.resolvedElements t, IsElement d e :=
    fun e he => isElement_of_mem_resolvedElements he
  rw [ColonFirst, normalForm_eq, writeElements_eq]
  cases hrooted : d.isRooted t with
  | true => simp [spell]
  | false =>
      cases hres : d.resolvedElements t with
      | nil => cases d <;> simp [spell, isSep, isSlash]
      | cons e es =>
          rw [hres] at hes
          have he := hes e List.mem_cons_self
          have hne : d.spell false (e :: es) ≠ [] := by
            intro hnil
            exact absurd ((spell_eq_nil_iff hes).1 hnil).2 (List.cons_ne_nil e es)
          rw [if_neg hne]
          have hrun : (d.spell false (e :: es)).takeWhile (fun c => !d.isSep c) = e :=
            takeWhile_noSep_intercalate he.no_sep
          rw [hrun]
          constructor
          · exact fun hc => ⟨rfl, e, es, rfl, hc⟩
          · rintro ⟨-, f, fs, heq, hc⟩
            rw [(List.cons.inj heq).1]
            exact hc

/-- A separator in native spelling is the native one. -/
theorem native_of_isSep {c : Char} (hc : d.isSep c = true)
    (hnative : (if c == '/' then d.sep else c) = c) : c = d.sep := by
  cases d with
  | posix =>
      have hslash : c = '/' := by simpa [isSep] using hc
      exact hslash
  | windows =>
      rcases (by simpa [isSep, isSlash] using hc : c = '\\' ∨ c = '/') with rfl | rfl
      · rfl
      · exact absurd hnative (by decide)

/-- What a guard can be, and when. -/
theorem guardFor_cases (d : Dialect) (t : Text) :
    (d.guardFor (d.normalForm t) = [] ∧ ¬ d.ColonFirst t ∧ ¬ d.DeviceFirst (d.normalForm t)) ∨
      (d.guardFor (d.normalForm t) = ['.', d.sep] ∧ d.ColonFirst t) ∨
      (d.guardFor (d.normalForm t) = [d.sep, '.'] ∧ d.DeviceFirst (d.normalForm t)) := by
  have hnative : d.fromSlash (d.normalForm t) = d.normalForm t := fromSlash_normalForm d t
  have hcolon := colon_mem_takeWhile_iff d t
  generalize d.normalForm t = u at hnative hcolon
  -- The guard for a colon is looked for first.
  by_cases hc : d.ColonFirst t
  · refine Or.inr (Or.inl ⟨?_, hc⟩)
    exact if_pos (List.contains_iff_mem.2 (hcolon.2 hc))
  · have hcontains : ¬ (u.takeWhile fun c => !d.isSep c).contains ':' = true :=
      fun h => hc (hcolon.1 (List.contains_iff_mem.1 h))
    unfold guardFor
    rw [if_neg hcontains]
    by_cases hdevice : d.DeviceFirst u
    · obtain ⟨v, rfl⟩ := hdevice
      exact Or.inr (Or.inr ⟨if_pos (isSep_sep d), List.prefix_append _ v⟩)
    · refine Or.inl ⟨?_, hc, hdevice⟩
      split
      · next c v =>
        refine if_neg fun hsep => hdevice ?_
        rw [native_of_isSep hsep (List.cons.inj hnative).1]
        exact List.prefix_append _ v
      · rfl

/-- There is a guard to take when the front has a colon or starts as the device root does. -/
theorem guardFor_ne_nil_iff (d : Dialect) (t : Text) :
    d.guardFor (d.normalForm t) ≠ [] ↔ d.ColonFirst t ∨ d.DeviceFirst (d.normalForm t) := by
  rcases guardFor_cases d t with ⟨h, hcolon, hdevice⟩ | ⟨h, hcolon⟩ | ⟨h, hdevice⟩
  · exact iff_of_false (fun hne => hne h) (not_or.2 ⟨hcolon, hdevice⟩)
  · rw [h]
    exact iff_of_true (List.cons_ne_nil _ _) (.inl hcolon)
  · rw [h]
    exact iff_of_true (List.cons_ne_nil _ _) (.inr hdevice)

/-- A guard is in native spelling. -/
theorem fromSlash_guardFor (d : Dialect) (t : Text) :
    d.fromSlash (d.guardFor (d.normalForm t)) = d.guardFor (d.normalForm t) := by
  rcases guardFor_cases d t with ⟨h, -⟩ | ⟨h, -⟩ | ⟨h, -⟩ <;> rw [h] <;> cases d <;> rfl

/-! ## The cleaned path -/

/-- Behind a volume the normal form follows the volume in native spelling. -/
theorem clean_eq_append (hp : d.tail p ≠ []) (hv : d = .posix ∨ 0 < d.volumeLength p) :
    d.clean p = d.fromSlash (p.take (d.volumeLength p)) ++ d.normalForm (d.tail p) := by
  have hspells := d.sweep_spells p
  have hshield : d.shield (d.sweep p) = d.sweep p := by
    cases d with
    | posix => rfl
    | windows =>
        have hpos : 0 < windows.volumeLength p := by simpa using hv
        have hne : ¬ ((windows.sweep p).volumeEnd == 0) = true := by
          rw [hspells.volumeEnd_eq]
          simp only [beq_iff_eq]
          omega
        exact if_neg hne
  rw [clean, if_neg hp, hshield, hspells.text_eq, fromSlash_append, fromSlash_normalForm]

/-- A POSIX path is cleaned to its normal form. -/
theorem clean_posix (p : Text) : posix.clean p = posix.normalForm p := by
  by_cases hp : p = []
  · rw [hp]
    decide
  · have h := clean_eq_append (d := posix) (p := p) hp (Or.inl rfl)
    rwa [fromSlash_posix, volumeLength_posix, List.take_zero, List.nil_append] at h

/-- A Windows path without a volume gets its guard when its overlay has diverged. -/
theorem clean_eq_guarded (hp : p ≠ []) (hv : windows.volumeLength p = 0) :
    windows.clean p =
      (if (windows.sweep p).diverged then windows.guardFor (windows.normalForm p) else []) ++
        windows.normalForm p := by
  have hspells := windows.sweep_spells p
  have htail : windows.tail p = p := by rw [tail, hv, List.drop_zero]
  rw [hv, htail] at hspells
  have hzero : ((windows.sweep p).volumeEnd == 0) = true := by
    rw [hspells.volumeEnd_eq]
    rfl
  have hshield : windows.shield (windows.sweep p) =
      ((windows.sweep p).prepend (windows.guardFor (windows.normalForm p))).toOption.getD
        (windows.sweep p) := by
    rw [← hspells.written_eq]
    exact if_pos hzero
  rw [clean, htail, if_neg hp, hshield, (hspells.prepend _).text_eq, List.take_zero,
    List.nil_append]
  -- Only an overlay that has diverged accepts a guard.
  by_cases hdiv : (windows.sweep p).diverged = true
  · rw [if_pos hdiv, if_pos hdiv, fromSlash_append, fromSlash_guardFor,
      fromSlash_normalForm]
  · rw [if_neg hdiv, if_neg hdiv, fromSlash_normalForm, List.nil_append]

/-- A normal form that could have a guard and has none is a beginning of the path. -/
theorem normalForm_isPrefix (hp : p ≠ []) (hv : windows.volumeLength p = 0)
    (h : windows.clean p = windows.normalForm p)
    (hguard : windows.ColonFirst p ∨ windows.DeviceFirst (windows.normalForm p)) :
    windows.normalForm p <+: p := by
  have hspells := windows.sweep_spells p
  have htail : windows.tail p = p := by rw [tail, hv, List.drop_zero]
  rw [hv, htail] at hspells
  have hdiv : (windows.sweep p).diverged = false := by
    cases hdiv : (windows.sweep p).diverged with
    | false => rfl
    | true =>
        -- A guard would make the cleaned path longer than its normal form.
        rw [clean_eq_guarded hp hv, if_pos hdiv, List.append_left_eq_self] at h
        exact absurd h ((guardFor_ne_nil_iff windows p).2 hguard)
  exact hspells.isPrefix hdiv

/-- Cleaning resolves the elements behind the volume on a stack. Without anything behind the volume
a share is kept and any other path gets a `.`. A Windows path without a volume can get a `.` element
in front, so that its first element is not read as a drive nor its root as the device root; when it
gets none although it could, its normal form is a beginning of the path. -/
theorem clean_eq_resolved (d : Dialect) (p : Text) :
    (d.tail p = [] →
      d.clean p = if (d.volume p).isShare then d.fromSlash p else p ++ ['.']) ∧
    (d.tail p ≠ [] → d = .posix ∨ 0 < d.volumeLength p →
      d.clean p = d.fromSlash (p.take (d.volumeLength p)) ++ d.normalForm (d.tail p)) ∧
    (d.tail p ≠ [] → d = .windows → d.volumeLength p = 0 →
      (d.clean p = d.normalForm (d.tail p) ∨
        (d.clean p = ['.', '\\'] ++ d.normalForm (d.tail p) ∧ d.ColonFirst (d.tail p)) ∨
        (d.clean p = ['\\', '.'] ++ d.normalForm (d.tail p) ∧
          d.DeviceFirst (d.normalForm (d.tail p)))) ∧
      (d.clean p = d.normalForm (d.tail p) →
        d.ColonFirst (d.tail p) ∨ d.DeviceFirst (d.normalForm (d.tail p)) →
        d.normalForm (d.tail p) <+: d.tail p)) := by
  refine ⟨fun hp => if_pos hp, clean_eq_append, ?_⟩
  rintro hp rfl hv
  have htail : windows.tail p = p := by rw [tail, hv, List.drop_zero]
  rw [htail] at hp ⊢
  refine ⟨?_, normalForm_isPrefix hp hv⟩
  rw [clean_eq_guarded hp hv]
  cases (windows.sweep p).diverged with
  | false => exact Or.inl rfl
  | true =>
      rcases guardFor_cases windows p with ⟨heq, -⟩ | ⟨heq, hcolon⟩ | ⟨heq, hdevice⟩
      · exact Or.inl (by rw [if_pos rfl, heq, List.nil_append])
      · exact Or.inr (Or.inl ⟨by rw [if_pos rfl, heq]; rfl, hcolon⟩)
      · exact Or.inr (Or.inr ⟨by rw [if_pos rfl, heq]; rfl, hdevice⟩)

/-- A path that is erased up to an element with a colon gets its `.` element. -/
theorem clean_eq_resolved_erased_front :
    windows.ColonFirst ['a', '/', '.', '.', '/', 'c', ':'] ∧
      windows.clean ['a', '/', '.', '.', '/', 'c', ':'] =
        ['.', '\\'] ++ windows.normalForm ['a', '/', '.', '.', '/', 'c', ':'] := by
  rcases ((clean_eq_resolved windows ['a', '/', '.', '.', '/', 'c', ':']).2.2 (by decide) rfl
    (by decide)).1 with h | ⟨h, hcolon⟩ | ⟨h, -⟩
  · exact absurd h (by decide)
  · exact ⟨hcolon, h⟩
  · exact absurd h (by decide)

end Dialect

end PathAlgebra
