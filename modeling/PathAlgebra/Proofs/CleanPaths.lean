import PathAlgebra.Proofs.Cleaning
import PathAlgebra.Proofs.Volumes

/-!
# Cleaned paths

Cleaning a cleaned path changes nothing, and a cleaned Windows path has no slash but the native one
(`clean_idempotent`). The second run may read the path in another way than the first, so the proof
goes along what a cleaned path can look like:

* Cleaning keeps the volume (`CleanForm.volume_eq`), so what follows it is a normal form.
* An overlay shares its source to the end exactly when what is left of each of its first elements is
  spelled at its beginning (`swept_shared_iff`). This is so for a path that is its own normal form
  (`sweep_shared`), and it is left without a guard (`clean_of_normal`).
* A guarded path is swept to the normal form behind the guard, which is no beginning of the path.
  Its overlay diverges, and the guard comes back (`clean_guarded`).
-/

set_option autoImplicit false

namespace PathAlgebra

/-! ## Overlays that share their source -/

/-- An overlay that shares what is written with its source. -/
structure Overlay.Shares (b : Overlay) (p : Text) (n : Nat) (t : Text) : Prop
    extends b.Spells p n t where
  shared : b.diverged = false

namespace Overlay.Shares

variable {b : Overlay} {p t : Text} {n : Nat}

/-- The next character of the source is shared. -/
theorem append (h : b.Shares p n t) {c : Char} (hc : t ++ [c] <+: p.drop n) :
    (b.append c).Shares p n (t ++ [c]) where
  toSpells := h.toSpells.append c
  shared := by
    obtain ⟨u, hu⟩ := hc
    have hsource : b.source[t.length]? = some c := by
      rw [← Array.getElem?_toList, h.source_eq, ← hu]
      simp
    have hslots : b.slots = none := by simpa [diverged] using h.shared
    simp [append_of_cursor h.cursor_eq, appendAt, diverged, hslots, hsource]

theorem appendText (h : b.Shares p n t) {u : Text} (hu : t ++ u <+: p.drop n) :
    (b.appendText u).Shares p n (t ++ u) := by
  induction u generalizing b t with
  | nil =>
      rw [List.append_nil]
      exact h
  | cons c u ih =>
      have hcons : t ++ c :: u = t ++ [c] ++ u := by simp
      rw [hcons] at hu ⊢
      exact ih (h.append ((List.prefix_append _ _).trans hu)) hu

end Overlay.Shares

/-! ## Overlays that have diverged -/

theorem Overlay.diverged_append {b : Overlay} (h : b.diverged = true) (c : Char) :
    (b.append c).diverged = true := by
  cases hslots : b.slots with
  | none => simp [diverged, hslots] at h
  | some slots =>
      unfold append appendAt
      split
      · rw [hslots]
        rfl
      · exact h

theorem Overlay.diverged_appendText {b : Overlay} (h : b.diverged = true) (t : Text) :
    (b.appendText t).diverged = true := by
  induction t generalizing b with
  | nil => exact h
  | cons c t ih => exact ih (diverged_append h c)

namespace Dialect

variable {d : Dialect} {rooted : Bool} {s : Sweep}

theorem diverged_separate {b : Overlay} (h : b.diverged = true) (start : Nat) :
    (d.separate start b).diverged = true := by
  unfold separate
  split
  · exact h
  · exact Overlay.diverged_append h d.sep

theorem diverged_sweepElement (h : s.out.diverged = true) (e : Text) :
    (d.sweepElement rooted s e).out.diverged = true := by
  unfold sweepElement
  split
  · exact h
  · split
    · split
      · exact h
      · split
        · exact h
        · exact Overlay.diverged_appendText (diverged_separate h 0) _
    · exact Overlay.diverged_appendText (diverged_separate h _) _

/-- What is shared at the end of a sweep was shared before. -/
theorem shared_of_foldl {es : List Text}
    (h : (es.foldl (d.sweepElement rooted) s).out.diverged = false) : s.out.diverged = false := by
  induction es generalizing s with
  | nil => exact h
  | cons e es ih =>
      have hfirst : (d.sweepElement rooted s e).out.diverged = false := ih h
      by_contra hdiverged
      rw [diverged_sweepElement (Bool.of_not_eq_false hdiverged)] at hfirst
      cases hfirst

end Dialect

namespace Sweep.Follows

open Dialect

variable {d : Dialect} {p : Text} {n : Nat} {rooted : Bool} {stack : List Text} {s : Sweep}

/-- An element that takes off nothing is written behind a separator. -/
theorem out_eq (h : s.Follows d p n rooted stack) {e : Text} (he : IsElement d e)
    (hresolved : Resolved rooted (stack.reverse ++ [e])) :
    (d.sweepElement rooted s e).out =
      (d.separate (if rooted then 1 else 0) s.out).appendText e := by
  by_cases hname : e = parentElement
  · rw [hname] at hresolved ⊢
    obtain ⟨hrooted, hall⟩ := hresolved.eq_replicate_of_last
    rw [List.length_reverse] at hall
    rw [sweepElement_parent (h.not_above_floor hall), hrooted]
    rfl
  · rw [sweepElement_name he hname]

/-- Any other element writes nothing. -/
theorem diverged_eq (h : s.Follows d p n rooted stack) {e : Text}
    (hresolved : ¬ Resolved rooted (stack.reverse ++ [e])) :
    (d.sweepElement rooted s e).out.diverged = s.out.diverged := by
  have hparent : e = parentElement := by
    by_contra hname
    exact hresolved (h.resolved.append_name hname)
  subst hparent
  by_cases hcursor : s.out.cursor > s.floor
  -- The cursor goes back over a name.
  · rw [sweepElement, if_neg (by decide), if_pos (show parentElement = ['.', '.'] from rfl),
      if_pos hcursor]
    rfl
  · rw [sweepElement_parent hcursor]
    cases rooted with
    | true => rfl
    | false =>
        -- Without a root and without a name to take off, the `..` would be written.
        refine absurd ?_ hresolved
        cases stack with
        | nil => exact resolved_cons List.not_mem_nil parentElement
        | cons top stack =>
            have htop : top = parentElement := by
              by_contra htop
              exact hcursor (h.above_floor htop)
            have hall := h.resolved
            rw [List.reverse_cons, htop] at hall ⊢
            have hups := (resolved_nil false).replicate_append (stack.length + 2)
            rw [List.append_nil, List.replicate_succ', List.replicate_succ'] at hups
            rw [hall.eq_replicate_of_last.2, List.length_reverse]
            exact hups

/-- One element is shared when the source goes on with the spelling of the stack that it leaves. -/
theorem step_shares (h : s.Follows d p n rooted stack) (hshared : s.out.diverged = false)
    {e : Text} (he : IsElement d e)
    (hbegins : d.spell rooted (pushElement rooted stack e).reverse <+: p.drop n) :
    (d.sweepElement rooted s e).out.diverged = false := by
  by_cases hresolved : Resolved rooted (stack.reverse ++ [e])
  · have hout : s.out.Shares p n (d.spell rooted stack.reverse) := ⟨h.spells, hshared⟩
    have hpush := hresolved.push_eq
    rw [List.reverse_reverse] at hpush
    rw [hpush, List.reverse_cons, spell_append_singleton] at hbegins
    rw [h.out_eq he hresolved, separate_eq h.spells h.isElement]
    by_cases hnil : stack.reverse = []
    · rw [if_pos hnil, List.nil_append] at hbegins
      rw [if_pos hnil]
      exact (hout.appendText hbegins).shared
    · rw [if_neg hnil, ← List.append_assoc] at hbegins
      rw [if_neg hnil]
      have hsep := hout.append ((List.prefix_append _ _).trans hbegins)
      exact (hsep.appendText hbegins).shared
  · rw [h.diverged_eq hresolved]
    exact hshared

/-- A sweep shares its source to the end exactly when the source starts with what is left of each of
the first elements. -/
theorem foldl_shared_iff {es : List Text} (h : s.Follows d p n rooted stack)
    (hshared : s.out.diverged = false) (hes : ∀ e ∈ es, IsElement d e) :
    (es.foldl (d.sweepElement rooted) s).out.diverged = false ↔
      ∀ fs, fs <+: es →
        d.spell rooted (fs.foldl (pushElement rooted) stack).reverse <+: p.drop n := by
  induction es generalizing s stack with
  | nil =>
      refine iff_of_true hshared fun fs hfs => ?_
      rw [List.prefix_nil.1 hfs]
      exact h.spells.isPrefix hshared
  | cons e es ih =>
      have he := hes e List.mem_cons_self
      have hrest : ∀ f ∈ es, IsElement d f := fun f hf => hes f (List.mem_cons_of_mem _ hf)
      have hstep := h.step he
      constructor
      · intro hall fs hfs
        -- What shares its source in the end shared it after the first element.
        have hfirst : (d.sweepElement rooted s e).out.diverged = false := shared_of_foldl hall
        cases fs with
        | nil => exact h.spells.isPrefix hshared
        | cons f fs =>
            obtain ⟨rfl, hmore⟩ := List.cons_prefix_cons.1 hfs
            exact (ih hstep hfirst hrest).1 hall fs hmore
      · intro hall
        have hbegins := hall [e] (List.cons_prefix_cons.2 ⟨rfl, List.nil_prefix⟩)
        have hfirst := h.step_shares hshared he hbegins
        refine (ih hstep hfirst hrest).2 fun fs hfs => ?_
        exact hall (e :: fs) (List.cons_prefix_cons.2 ⟨rfl, hfs⟩)

end Sweep.Follows

namespace Dialect

variable {d : Dialect} {p q t : Text}

/-- What is left of each of the first elements of a text is spelled at the beginning of the text. -/
def KeptInPlace (d : Dialect) (t : Text) : Prop :=
  ∀ es, es <+: d.elements t → d.spell (d.isRooted t) (resolve (d.isRooted t) es) <+: t

theorem startSweep_shares (h : d.spell (d.isRooted (d.tail p)) [] <+: d.tail p) :
    (d.startSweep p).out.diverged = false := by
  have hstart : (Overlay.ofSource (d.tail p) p (d.volumeLength p)).Shares p (d.volumeLength p) [] :=
    ⟨Overlay.ofSource_spells p _, rfl⟩
  rw [startSweep]
  cases hrooted : d.isRooted (d.tail p) with
  | true =>
      rw [hrooted] at h
      exact (hstart.append h).shared
  | false => exact hstart.shared

/-- A sweep shares its source exactly when the elements of the source are kept in place. -/
theorem swept_shared_iff : (d.swept p).diverged = false ↔ d.KeptInPlace (d.tail p) := by
  have helement : ∀ e ∈ d.elements (d.tail p), IsElement d e :=
    fun e he => isElement_of_mem_elements he
  constructor
  · intro hshared
    have hstart := shared_of_foldl hshared
    exact ((startSweep_follows d p).foldl_shared_iff hstart helement).1 hshared
  · intro hkept
    have hstart := startSweep_shares (hkept [] List.nil_prefix)
    exact ((startSweep_follows d p).foldl_shared_iff hstart helement).2 hkept

/-- Elements that take off nothing are kept in place by a text that starts with their spelling. -/
theorem swept_shared_of_isPrefix (helements : d.elements (d.tail p) = d.resolvedElements (d.tail p))
    (hbegins : d.spell (d.isRooted (d.tail p)) (d.resolvedElements (d.tail p)) <+: d.tail p) :
    (d.swept p).diverged = false := by
  rw [swept_shared_iff]
  rintro es ⟨fs, hes⟩
  have hresolved := resolvedElements_resolved d (d.tail p)
  rw [← helements, ← hes] at hresolved hbegins
  rw [hresolved.of_append.resolve_eq]
  exact (spell_isPrefix d _ es fs).trans hbegins

/-- The elements of a normal form are written as the source has them. -/
theorem swept_shared (h : d.normalForm (d.tail p) = d.tail p) : (d.swept p).diverged = false := by
  have hbegins := spell_isPrefix_writeElements d (d.isRooted (d.tail p))
    (d.resolvedElements (d.tail p))
  rw [← normalForm_eq, h] at hbegins
  exact swept_shared_of_isPrefix (by rw [← elements_normalForm, h]) hbegins

/-- The sweep of a normal form shares its source to the end. -/
theorem sweep_shared (h : d.normalForm (d.tail p) = d.tail p) : (d.sweep p).diverged = false := by
  have hout : Overlay.Shares _ _ _ _ := ⟨d.swept_spells p, swept_shared h⟩
  rw [sweep_eq]
  split
  · next hnil =>
    -- Without an element the source is the `.` that is written.
    have hdot := normalForm_eq d (d.tail p)
    rw [h, writeElements_eq, if_pos hnil] at hdot
    have hsource : p.drop (d.volumeLength p) = ['.'] := hdot
    refine (hout.append ?_).shared
    rw [hnil, hsource]
    exact List.prefix_refl _
  · exact hout.shared

/-! ## Volumes of cleaned paths -/

/-- Behind the root separator of a normal form there is no other. -/
theorem isRooted_tail_normalForm (h : d.isRooted t = true) :
    d.isRooted (d.normalForm t).tail = false := by
  rw [normalForm_eq, h, writeElements_of_ne_nil (by simp [spell])]
  exact isRooted_intercalate fun e he => (isElement_of_mem_resolvedElements he).isRun

/-- A normal form does not start with a share. -/
theorem volume_normalForm_ne_share (t : Text) (n : Nat) :
    windows.volume (windows.normalForm t) ≠ .share n := by
  intro h
  obtain ⟨u, rest, heq, hu, -, -⟩ := volume_eq_share_iff.1 h
  cases hu with
  | @intro a b c host name ha hb hhost hc hname =>
      have hroot : windows.isRooted t = true := by
        rw [← isRooted_normalForm, heq]
        exact ha
      have htail := isRooted_tail_normalForm hroot
      rw [heq] at htail
      have hb' : windows.isRooted (b :: (host ++ c :: name ++ rest)) = true := hb
      rw [List.cons_append, List.tail_cons, List.cons_append, hb'] at htail
      cases htail

/-- A path that is cleaned to its normal form without a guard gets no volume. -/
theorem volume_normalForm (hp : p ≠ []) (hv : windows.volume p = .none)
    (h : windows.clean p = windows.normalForm p) :
    windows.volume (windows.normalForm p) = .none := by
  cases hvol : windows.volume (windows.normalForm p) with
  | none => rfl
  | share n => exact absurd hvol (volume_normalForm_ne_share p n)
  | drive =>
      -- The drive would be the beginning of the path.
      obtain ⟨c, rest, heq, hc⟩ := volume_eq_drive_iff.1 hvol
      have hcolon : windows.ColonFirst p := by
        rw [← colon_mem_takeWhile_iff, heq,
          List.takeWhile_cons_of_pos (by simp [isSep, isSlash_of_isAlpha hc]),
          List.takeWhile_cons_of_pos rfl]
        simp
      obtain ⟨more, hmore⟩ := normalForm_isPrefix hp (volumeLength_eq_zero_iff.2 hv) h (.inl hcolon)
      rw [heq] at hmore
      have hdrive := volume_eq_drive_iff.2 ⟨c, rest ++ more, hmore.symm, hc⟩
      rw [hv] at hdrive
      cases hdrive

/-- A guarded path has no volume. -/
theorem volume_guarded (hg : windows.guardFor (windows.normalForm t) ≠ []) :
    windows.volume (windows.guardFor (windows.normalForm t) ++ windows.normalForm t) = .none := by
  rcases guardFor_cases windows t with ⟨h, -⟩ | ⟨h, -⟩ | ⟨h, -⟩
  · exact absurd h hg
  · rw [h]
    rfl
  · rw [h]
    rfl

/-! ## Forms of a cleaned path -/

/-- What a Windows path can be cleaned to: a share in native spelling, a volume and a normal form, a
normal form that reads as no volume, or a guarded normal form. -/
inductive CleanForm (p : Text) : Text → Prop where
  | share {n : Nat} : windows.volume p = .share n → windows.tail p = [] →
      CleanForm p (windows.fromSlash p)
  | behind : windows.volume p ≠ .none → (∀ n, windows.volume p = .share n → windows.tail p ≠ []) →
      CleanForm p (windows.fromSlash (p.take (windows.volumeLength p)) ++
        windows.normalForm (windows.tail p))
  | plain : windows.volume p = .none → windows.volume (windows.normalForm p) = .none →
      CleanForm p (windows.normalForm p)
  | guarded : windows.volume p = .none → windows.guardFor (windows.normalForm p) ≠ [] →
      CleanForm p (windows.guardFor (windows.normalForm p) ++ windows.normalForm p)

theorem fromSlash_drive {c : Char} (hc : c.isAlpha = true) :
    windows.fromSlash [c, ':'] = [c, ':'] := by
  refine fromSlash_eq_self fun x hx => .inr ?_
  rcases (by simpa using hx : x = c ∨ x = ':') with rfl | rfl
  · exact isSlash_of_isAlpha hc
  · rfl

theorem cleanForm_of_tail_eq_nil (htail : windows.tail p = []) :
    CleanForm p (windows.clean p) := by
  have hdot : windows.normalForm [] = ['.'] := by decide
  rw [clean, if_pos htail]
  cases hvol : windows.volume p with
  | none =>
      have hp : p = [] := by simpa [tail, volumeLength, hvol, Volume.length] using htail
      have h : CleanForm [] (windows.normalForm []) := .plain rfl (by rw [hdot]; rfl)
      rw [hp]
      rw [hdot] at h
      exact h
  | drive =>
      obtain ⟨c, rest, rfl, hc⟩ := volume_eq_drive_iff.1 hvol
      have hrest : rest = [] := by simpa [tail, volumeLength, hvol, Volume.length] using htail
      have h := CleanForm.behind (p := c :: ':' :: rest) (by simp [hvol]) (by simp [hvol])
      rw [htail, hdot, volumeLength, hvol] at h
      rw [hrest] at h ⊢
      have htake : [c, ':'].take Volume.drive.length = [c, ':'] := rfl
      rw [htake, fromSlash_drive hc] at h
      exact h
  | share n => exact .share hvol htail

/-- Every cleaned Windows path has one of the forms. -/
theorem cleanForm (p : Text) : CleanForm p (windows.clean p) := by
  by_cases htail : windows.tail p = []
  · exact cleanForm_of_tail_eq_nil htail
  by_cases hvol : windows.volume p = .none
  · have hv : windows.volumeLength p = 0 := volumeLength_eq_zero_iff.2 hvol
    have hp : p ≠ [] := by
      rintro rfl
      exact htail rfl
    have hclean := clean_eq_guarded hp hv
    -- Only an overlay that has diverged takes a guard, and there may be none to take.
    by_cases hg : windows.guardFor (windows.normalForm p) = [] ∨ (windows.sweep p).diverged = false
    · have hplain : windows.clean p = windows.normalForm p := by
        rw [hclean]
        rcases hg with hg | hg <;> simp [hg]
      have hnone := volume_normalForm hp hvol hplain
      rw [hplain]
      exact .plain hvol hnone
    · obtain ⟨hne, hdiv⟩ := not_or.1 hg
      rw [hclean, if_pos (Bool.of_not_eq_false hdiv)]
      exact .guarded hvol hne
  · have hpos : 0 < windows.volumeLength p :=
      Nat.pos_of_ne_zero (mt volumeLength_eq_zero_iff.1 hvol)
    rw [clean_eq_append htail (.inr hpos)]
    exact .behind hvol fun _ _ => htail

/-- Without a volume a path is cleaned to its normal form, or to this behind a guard. -/
theorem clean_of_none (hvol : windows.volume p = .none) :
    windows.clean p = windows.normalForm p ∨
      windows.guardFor (windows.normalForm p) ≠ [] ∧
        windows.clean p = windows.guardFor (windows.normalForm p) ++ windows.normalForm p := by
  have hform := cleanForm p
  generalize windows.clean p = q at hform ⊢
  cases hform with
  | share hshare _ =>
      rw [hvol] at hshare
      cases hshare
  | behind hsome _ => exact absurd hvol hsome
  | plain _ _ => exact .inl rfl
  | guarded _ hg => exact .inr ⟨hg, rfl⟩

/-- A path without a volume that is cleaned with a guard. -/
def IsGuarded (p : Text) : Prop :=
  windows.volume p = .none ∧ windows.clean p ≠ windows.normalForm p

instance (p : Text) : Decidable (IsGuarded p) := inferInstanceAs (Decidable (_ ∧ _))

/-- A path is guarded when there is a guard to take and its elements are not kept in place. -/
theorem isGuarded_iff :
    IsGuarded p ↔ windows.volume p = .none ∧ windows.guardFor (windows.normalForm p) ≠ [] ∧
      ¬ windows.KeptInPlace p := by
  refine and_congr_right fun hvol => ?_
  by_cases hg : windows.guardFor (windows.normalForm p) = []
  · have hplain := (clean_of_none hvol).resolve_right fun h => h.1 hg
    exact iff_of_false (fun h => h hplain) fun h => h.1 hg
  · have hp : p ≠ [] := by
      rintro rfl
      exact hg (by decide)
    -- The guard stands for an element, so the sweep has no `.` to add.
    have hspell : ¬ windows.spell (windows.isRooted p) (windows.resolvedElements p) = [] := by
      intro hnil
      have hdot : windows.normalForm p = ['.'] := by
        rw [normalForm_eq, writeElements_eq, if_pos hnil]
      exact hg (by rw [hdot]; decide)
    have hsweep := sweep_eq windows p
    rw [tail_eq_self hvol, if_neg hspell] at hsweep
    rw [clean_eq_guarded hp (volumeLength_eq_zero_iff.2 hvol), hsweep, ← tail_eq_self hvol,
      ← swept_shared_iff, tail_eq_self hvol]
    cases (windows.swept p).diverged with
    | false => simp
    | true => simp [hg]

theorem IsGuarded.guardFor_ne_nil (h : IsGuarded p) :
    windows.guardFor (windows.normalForm p) ≠ [] :=
  ((clean_of_none h.1).resolve_left h.2).1

theorem IsGuarded.clean_eq (h : IsGuarded p) :
    windows.clean p = windows.guardFor (windows.normalForm p) ++ windows.normalForm p :=
  ((clean_of_none h.1).resolve_left h.2).2

namespace CleanForm

/-- A cleaned path is in native spelling. -/
theorem fromSlash_eq (h : CleanForm p q) : windows.fromSlash q = q := by
  cases h with
  | share hvol htail => exact fromSlash_fromSlash windows p
  | behind hvol hshare => rw [fromSlash_append, fromSlash_fromSlash, fromSlash_normalForm]
  | plain hvol hnone => exact fromSlash_normalForm windows p
  | guarded hvol hg =>
      rw [fromSlash_append, fromSlash_guardFor, fromSlash_normalForm]

theorem ne_nil (h : CleanForm p q) : q ≠ [] := by
  cases h with
  | share hvol htail =>
      intro hnil
      have hp : p = [] := List.map_eq_nil_iff.1 hnil
      rw [hp] at hvol
      cases hvol
  | behind hvol hshare => exact List.append_ne_nil_of_right_ne_nil _ (normalForm_ne_nil windows _)
  | plain hvol hnone => exact normalForm_ne_nil windows p
  | guarded hvol hg => exact List.append_ne_nil_of_left_ne_nil hg _

/-- Cleaning keeps the volume. -/
theorem volume_eq (h : CleanForm p q) : windows.volume q = windows.volume p := by
  cases h with
  | share hvol htail => exact volume_fromSlash p
  | behind hvol hshare =>
      apply volume_volumeName_append
      · exact fun hnone => absurd hnone hvol
      -- What is behind a share starts with a separator, and so does its normal form.
      · intro hs
        obtain ⟨n, hn⟩ := exists_share hs
        rw [isRooted_normalForm]
        exact .inr ((isRooted_tail_of_share hs).resolve_left (hshare n hn))
  | plain hvol hnone => rw [hvol, hnone]
  | guarded hvol hg => rw [hvol, volume_guarded hg]

end CleanForm

/-! ## Cleaning twice -/

/-- A normal form without a volume is its own cleaned path. -/
theorem clean_of_normal (hv : windows.volume p = .none) (h : windows.normalForm p = p) :
    windows.clean p = p := by
  have hzero : windows.volumeLength p = 0 := volumeLength_eq_zero_iff.2 hv
  have htail : windows.tail p = p := by rw [tail, hzero, List.drop_zero]
  have hp : p ≠ [] := by
    rintro rfl
    exact absurd h (by decide)
  rw [clean_eq_guarded hp hzero, sweep_shared (by rw [htail, h]), h]
  rfl

/-- A guard adds no element. -/
theorem elements_guarded (t : Text) :
    windows.elements (windows.guardFor (windows.normalForm t) ++ windows.normalForm t) =
      windows.elements (windows.normalForm t) := by
  rcases guardFor_cases windows t with ⟨h, -⟩ | ⟨h, -⟩ | ⟨h, v, hdevice⟩
  · rw [h, List.nil_append]
  · have helements := elements_append_sep (isSep_sep windows) ['.'] (windows.normalForm t)
    rw [elements_dot] at helements
    rw [h]
    exact helements
  · have helements := elements_append_sep (isSep_sep windows) [windows.sep, '.'] ('?' :: '?' :: v)
    rw [elements_sep_cons (isSep_sep windows), elements_dot] at helements
    rw [h, ← hdevice]
    refine helements.trans ?_
    exact (elements_sep_cons (isSep_sep windows) ('?' :: '?' :: v)).symm

/-- A guarded path has the normal form behind its guard. -/
theorem normalForm_guarded (t : Text) :
    windows.normalForm (windows.guardFor (windows.normalForm t) ++ windows.normalForm t) =
      windows.normalForm t := by
  have hroot : windows.isRooted (windows.guardFor (windows.normalForm t) ++ windows.normalForm t) =
      windows.isRooted (windows.normalForm t) := by
    rcases guardFor_cases windows t with ⟨h, -⟩ | ⟨h, hcolon, -⟩ | ⟨h, v, hdevice⟩
    · rw [h, List.nil_append]
    · rw [h, isRooted_normalForm, hcolon]
      rfl
    · rw [h, ← hdevice]
      rfl
  rw [normalForm, hroot, elements_guarded, ← normalForm, normalForm_normalForm]

/-- A normal form is no beginning of its guarded form. -/
theorem not_isPrefix_guarded (hg : windows.guardFor (windows.normalForm t) ≠ []) :
    ¬ windows.normalForm t <+: windows.guardFor (windows.normalForm t) ++ windows.normalForm t := by
  rcases guardFor_cases windows t with ⟨h, -⟩ | ⟨h, hcolon⟩ | ⟨h, v, hdevice⟩
  · exact absurd h hg
  · -- The first element would be the guard, and has no colon.
    rw [h]
    rintro ⟨u, hu⟩
    have hmem := (colon_mem_takeWhile_iff windows t).2 hcolon
    have hrun : ':' ∈ (windows.normalForm t ++ u).takeWhile (fun c => !windows.isSep c) := by
      rw [List.takeWhile_append]
      split
      · exact List.mem_append_left _ ((List.takeWhile_sublist _).subset hmem)
      · exact hmem
    have hguard : (['.', windows.sep] ++ windows.normalForm t).takeWhile
        (fun c => !windows.isSep c) = ['.'] := rfl
    rw [hu, hguard] at hrun
    exact absurd hrun (by decide)
  · rw [h, ← hdevice]
    intro hbegins
    have hsecond := (List.cons_prefix_cons.1 (List.cons_prefix_cons.1 hbegins).2).1
    exact absurd hsecond (by decide)

/-- A guarded normal form is its own cleaned path. -/
theorem clean_guarded (hg : windows.guardFor (windows.normalForm t) ≠ []) :
    windows.clean (windows.guardFor (windows.normalForm t) ++ windows.normalForm t) =
      windows.guardFor (windows.normalForm t) ++ windows.normalForm t := by
  have hzero := volumeLength_eq_zero_iff.2 (volume_guarded hg)
  have hnormal := normalForm_guarded t
  have hnot := not_isPrefix_guarded hg
  have hne : windows.guardFor (windows.normalForm t) ++ windows.normalForm t ≠ [] :=
    List.append_ne_nil_of_left_ne_nil hg _
  generalize hq : windows.guardFor (windows.normalForm t) ++ windows.normalForm t = q at *
  have hdiv : (windows.sweep q).diverged = true := by
    by_contra hshared
    have hbegins := (windows.sweep_spells q).isPrefix (Bool.eq_false_iff.2 hshared)
    rw [tail, hzero, List.drop_zero, hnormal] at hbegins
    exact hnot hbegins
  rw [clean_eq_guarded hne hzero, if_pos hdiv, hnormal, hq]

/-- A normal form behind a volume stays as it is. -/
theorem clean_behind {v : Text} (hv : windows.volumeLength (v ++ windows.normalForm t) = v.length)
    (hpos : 0 < v.length) :
    windows.clean (v ++ windows.normalForm t) = windows.fromSlash v ++ windows.normalForm t := by
  have htail : windows.tail (v ++ windows.normalForm t) = windows.normalForm t := by
    rw [tail, hv, List.drop_left]
  have hne : windows.tail (v ++ windows.normalForm t) ≠ [] := by
    rw [htail]
    exact normalForm_ne_nil windows t
  rw [clean_eq_append hne (.inr (hv ▸ hpos)), htail, hv, List.take_left, normalForm_normalForm]

/-- A path of one of the forms is its own cleaned path. -/
theorem CleanForm.clean_eq (h : CleanForm p q) : windows.clean q = q := by
  have hvolume := h.volume_eq
  have hnative := h.fromSlash_eq
  cases h with
  | share hvol htail =>
      have htail' : windows.tail (windows.fromSlash p) = [] := by
        rw [tail_fromSlash, htail]
        rfl
      rw [clean, if_pos htail', hvolume, hvol]
      exact hnative
  | behind hvol hshare =>
      have hlen : (windows.fromSlash (p.take (windows.volumeLength p))).length =
          windows.volumeLength p := windows.volumeName_length p
      have hpos : 0 < (windows.fromSlash (p.take (windows.volumeLength p))).length := by
        rw [hlen]
        exact Nat.pos_of_ne_zero (mt volumeLength_eq_zero_iff.1 hvol)
      rw [clean_behind ((congrArg Volume.length hvolume).trans hlen.symm) hpos,
        fromSlash_fromSlash]
  | plain hvol hnone => exact clean_of_normal hnone (normalForm_normalForm windows p)
  | guarded hvol hg => exact clean_guarded hg

/-- Cleaning a second time changes nothing. -/
theorem clean_clean (d : Dialect) (p : Text) : d.clean (d.clean p) = d.clean p := by
  cases d with
  | posix => rw [clean_posix, clean_posix, normalForm_normalForm]
  | windows => exact (cleanForm p).clean_eq

/-- Cleaning a cleaned path changes nothing, and a cleaned Windows path has no slash but the native
one. -/
theorem clean_idempotent (d : Dialect) (p : Text) :
    d.clean (d.clean p) = d.clean p ∧ '/' ∉ windows.clean p := by
  constructor
  · exact clean_clean d p
  · rw [← (cleanForm p).fromSlash_eq]
    exact slash_notMem_fromSlash _

end Dialect

end PathAlgebra
