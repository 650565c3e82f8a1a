import PathAlgebra.Proofs.CleanPaths
import PathAlgebra.Proofs.Joining

/-!
# What cleaned and joined Windows paths start with

The beginning of a Windows path decides how the rest is read: a drive, a share, a root, or the
device root `\??`. Cleaning keeps all of it (`clean_keeps_beginning`). The volume stays with what
follows it rooted or not, and a cleaned path starts as the device root does only if it is itself a
beginning of the path as written (`clean_isPrefix`).

Joining takes the beginning from the first element that is not empty (`join_keeps_beginning`). One
more element behind a text that does not start with two separators leaves the volume as it is
(`Attached.volume_eq`), and the characters `\??` come together behind the first element only where
no separator follows them (`DeviceHeld`).
-/

set_option autoImplicit false

namespace PathAlgebra

namespace Dialect

variable {p q : Text}

/-- Whether a text is rooted is seen on every beginning of it that is not empty. -/
theorem isRooted_of_isPrefix {d : Dialect} {b q : Text} (hb : b ≠ []) (h : b <+: q) :
    d.isRooted q = d.isRooted b := by
  obtain ⟨t, rfl⟩ := h
  cases b with
  | nil => exact absurd rfl hb
  | cons c b => rfl

/-! ## Cleaned paths -/

theorem isRooted_fromSlash (t : Text) :
    windows.isRooted (windows.fromSlash t) = windows.isRooted t := by
  cases t with
  | nil => rfl
  | cons c t => exact native_congr isSlash rfl c

namespace CleanForm

theorem volumeLength_eq (h : CleanForm p q) :
    windows.volumeLength q = windows.volumeLength p :=
  congrArg Volume.length h.volume_eq

/-- A cleaned path starts with the volume in native spelling. -/
theorem take_eq (h : CleanForm p q) :
    q.take (windows.volumeLength p) = windows.volumeName p := by
  cases h with
  | share hvol htail => exact List.map_take.symm
  | behind hvol hshare => exact List.take_left' (volumeName_length windows p)
  | plain hvol hnone => rw [volumeLength_eq_zero_iff.2 hvol, volumeName_eq_nil hvol, List.take_zero]
  | guarded hvol hg => rw [volumeLength_eq_zero_iff.2 hvol, volumeName_eq_nil hvol, List.take_zero]

theorem volumeName_eq (h : CleanForm p q) : windows.volumeName q = windows.volumeName p := by
  rw [volumeName, h.volumeLength_eq, h.take_eq, volumeName, fromSlash_fromSlash]

/-- Behind the volume a cleaned path is as rooted as it was written. -/
theorem isRooted_tail_eq (h : CleanForm p q) :
    windows.isRooted (windows.tail q) = windows.isRooted (windows.tail p) := by
  have hvolume := h.volume_eq
  have hlength := h.volumeLength_eq
  cases h with
  | share hvol htail => rw [tail_fromSlash, isRooted_fromSlash]
  | behind hvol hshare =>
      have hdrop : (windows.volumeName p ++ windows.normalForm (windows.tail p)).drop
          (windows.volumeLength p) = windows.normalForm (windows.tail p) :=
        List.drop_left' (volumeName_length windows p)
      rw [tail, hlength, ← volumeName, hdrop, isRooted_normalForm]
  | plain hvol hnone => rw [tail_eq_self hnone, tail_eq_self hvol, isRooted_normalForm]
  | guarded hvol hg =>
      rw [tail_eq_self (hvolume.trans hvol), tail_eq_self hvol, ← isRooted_normalForm windows p]
      -- The guard of a relative path is relative, and that of a rooted one is rooted.
      rcases guardFor_cases windows p with ⟨h, -⟩ | ⟨h, hcolon, -⟩ | ⟨h, v, hdevice⟩
      · exact absurd h hg
      · rw [h, isRooted_normalForm, hcolon]
        rfl
      · rw [h, ← hdevice]
        rfl

end CleanForm

/-- A cleaned text is rooted exactly when the text is. -/
theorem isRooted_clean (d : Dialect) (t : Text) : d.isRooted (d.clean t) = d.isRooted t := by
  cases d with
  | posix => rw [clean_posix, isRooted_normalForm]
  | windows =>
      have hform := cleanForm t
      by_cases hvol : windows.volume t = .none
      · have hroot := hform.isRooted_tail_eq
        rwa [tail_eq_self hvol, tail_eq_self (hform.volume_eq.trans hvol)] at hroot
      · -- Both begin with the volume, in its two spellings.
        have hne : windows.volumeName t ≠ [] := by
          intro hnil
          have hlength := volumeName_length windows t
          rw [hnil] at hlength
          exact hvol (volumeLength_eq_zero_iff.1 hlength.symm)
        have hbegins : windows.volumeName t <+: windows.clean t := by
          rw [← hform.take_eq]
          exact List.take_prefix _ _
        have hwritten : windows.volumeName t <+: windows.fromSlash t := by
          refine ⟨windows.fromSlash (windows.tail t), ?_⟩
          rw [volumeName, ← fromSlash_append, tail, List.take_append_drop]
        rw [isRooted_of_isPrefix hne hbegins, ← isRooted_of_isPrefix hne hwritten,
          isRooted_fromSlash]

/-- The device root is no volume. -/
theorem volume_of_deviceFirst (h : windows.DeviceFirst p) : windows.volume p = .none := by
  obtain ⟨t, rfl⟩ := h
  rfl

/-- A cleaned path that starts as the device root does is a beginning of the path as written. -/
theorem clean_isPrefix (h : windows.DeviceFirst (windows.clean p)) : windows.clean p <+: p := by
  have hvol : windows.volume p = .none := by
    rw [← (cleanForm p).volume_eq]
    exact volume_of_deviceFirst h
  have hzero := volumeLength_eq_zero_iff.2 hvol
  have hp : p ≠ [] := by
    rintro rfl
    have hdot : [windows.sep, '?', '?'] <+: windows.clean [] := h
    exact absurd hdot (by decide)
  -- With a guard the path would start with the guard.
  have hplain : windows.clean p = windows.normalForm p := by
    have hclean := clean_eq_guarded hp hzero
    cases hdiv : (windows.sweep p).diverged with
    | false => rw [hclean, hdiv, if_neg Bool.false_ne_true, List.nil_append]
    | true =>
        rw [hdiv, if_pos rfl] at hclean
        rcases guardFor_cases windows p with ⟨hg, -⟩ | ⟨hg, -⟩ | ⟨hg, -⟩
        · rw [hclean, hg, List.nil_append]
        · rw [hclean, hg] at h
          exact absurd (List.cons_prefix_cons.1 h).1 (by decide)
        · rw [hclean, hg] at h
          exact absurd (List.cons_prefix_cons.1 (List.cons_prefix_cons.1 h).2).1 (by decide)
  rw [hplain] at h ⊢
  exact normalForm_isPrefix hp hzero hplain (.inr h)

/-- A cleaned Windows path has the volume of the path, a separator behind it exactly when the path
has one, and the beginning of the device root only if the path was written with it. -/
theorem clean_keeps_beginning (p : Text) :
    windows.volumeName (windows.clean p) = windows.volumeName p ∧
      (windows.isRooted (windows.tail (windows.clean p)) = true ↔
        windows.isRooted (windows.tail p) = true) ∧
      (['\\', '?', '?'] <+: windows.clean p → ['\\', '?', '?'] <+: p) := by
  refine ⟨(cleanForm p).volumeName_eq, ?_, ?_⟩
  · rw [(cleanForm p).isRooted_tail_eq]
  · intro hdevice
    exact List.IsPrefix.trans hdevice (clean_isPrefix hdevice)

/-- A device path with a part to erase stays one. -/
theorem clean_keeps_beginning_device :
    ['\\', '?', '?'] <+: windows.clean "\\??\\a\\..".toList ∧
      ['\\', '?', '?'] <+: "\\??\\a\\..".toList := by
  have hdevice : ['\\', '?', '?'] <+: windows.clean "\\??\\a\\..".toList := by decide
  exact ⟨hdevice, (clean_keeps_beginning "\\??\\a\\..".toList).2.2 hdevice⟩

/-! ## Volumes of joined texts -/

/-- A text that starts with two separators, as every share does. -/
def DoublyRooted (d : Dialect) (t : Text) : Prop := d.isRooted t = true ∧ d.isRooted t.tail = true

instance (d : Dialect) (t : Text) : Decidable (d.DoublyRooted t) :=
  inferInstanceAs (Decidable (_ ∧ _))

/-- Only a text that starts with two separators starts with a share. -/
theorem volume_ne_share (h : ¬ windows.DoublyRooted p) (n : Nat) : windows.volume p ≠ .share n := by
  intro hvol
  obtain ⟨u, rest, rfl, hu, -, -⟩ := volume_eq_share_iff.1 hvol
  cases hu with
  | intro ha hb hhost hc hname => exact h ⟨ha, hb⟩

/-- The volume of a text that does not start with two separators is read off its first two
characters. -/
theorem volume_append {a c : Char} {t : Text} (h : ¬ windows.DoublyRooted (a :: c :: t)) (u : Text) :
    windows.volume (a :: c :: t ++ u) = windows.volume (a :: c :: t) := by
  have hslashes : ¬ (isSlash a && isSlash c) = true := by
    rw [Bool.and_eq_true]
    exact h
  rw [List.cons_append, List.cons_append, volume_cons_cons, volume_cons_cons, if_neg hslashes,
    if_neg hslashes]

/-- A text is read as no volume when its first two characters are no drive and not two
separators. -/
theorem volume_cons_eq_none {a : Char} {t : Text} (hdrive : a.isAlpha = true → t.head? ≠ some ':')
    (hdouble : ¬ windows.DoublyRooted (a :: t)) : windows.volume (a :: t) = .none := by
  cases hvol : windows.volume (a :: t) with
  | none => rfl
  | drive =>
      obtain ⟨c, rest, heq, hc⟩ := volume_eq_drive_iff.1 hvol
      rw [(List.cons.inj heq).1, (List.cons.inj heq).2] at hdrive
      exact absurd rfl (hdrive hc)
  | share n => exact absurd hvol (volume_ne_share hdouble n)

end Dialect

namespace Attached

open Dialect

variable {b e q : Text} {a : Char}

/-- What can follow a base of one character: no separator behind a slash, anything behind a colon,
and a separator behind any other character. -/
theorem of_singleton (h : Attached [a] e q) :
    ∃ t, q = a :: t ∧ (isSlash a = true ∧ windows.isRooted t = false ∨ a = ':' ∨
      isSlash a = false ∧ t.head? = some '\\') := by
  have hsingle {u : Text} {c : Char} (hb : [a] = u ++ [c]) : c = a := by
    have hlast := congrArg List.getLast? hb
    rw [List.getLast?_concat] at hlast
    exact (Option.some.inj hlast).symm
  cases h with
  | behindSlash hb hc hfold =>
      rw [hsingle hb] at hc
      refine ⟨e.dropWhile isSlash, rfl, .inl ⟨hc, ?_⟩⟩
      have hhead := List.head?_dropWhile_not isSlash e
      cases hdrop : e.dropWhile isSlash with
      | nil => rfl
      | cons x t =>
          rw [hdrop] at hhead
          have hx : isSlash x = false := by simpa using hhead
          exact hx
  | shielded hb hc hfold =>
      rw [hsingle (u := []) hb] at hc
      exact ⟨_, rfl, .inl ⟨hc, rfl⟩⟩
  | behindColon hb => exact ⟨e, rfl, .inr (.inl (hsingle hb).symm)⟩
  | separated hb hslash hname =>
      rw [hsingle hb] at hslash
      exact ⟨_, rfl, .inr (.inr ⟨hslash, rfl⟩)⟩

/-- Behind a text that does not start with two separators no element makes it start with two. -/
theorem not_doublyRooted (h : Attached b e q) (hne : b ≠ []) (hb : ¬ windows.DoublyRooted b) :
    ¬ windows.DoublyRooted q := by
  rintro ⟨hfirst, hsecond⟩
  match b with
  | [] => exact hne rfl
  | [a] =>
      obtain ⟨t, rfl, ⟨-, ht⟩ | rfl | ⟨ha, -⟩⟩ := h.of_singleton
      · rw [List.tail_cons, ht] at hsecond
        cases hsecond
      · cases hfirst
      · have hslash : isSlash a = true := hfirst
        rw [ha] at hslash
        cases hslash
  | a :: c :: t =>
      obtain ⟨u, rfl⟩ := h.isPrefix
      exact hb ⟨hfirst, hsecond⟩

/-- An element leaves the volume of such a text as it is. -/
theorem volume_eq (h : Attached b e q) (hne : b ≠ []) (hb : ¬ windows.DoublyRooted b) :
    windows.volume q = windows.volume b := by
  have hq := h.not_doublyRooted hne hb
  match b with
  | [] => exact absurd rfl hne
  | [a] =>
      obtain ⟨t, rfl, hcases⟩ := h.of_singleton
      have hnone : windows.volume [a] = .none := rfl
      rw [hnone]
      refine volume_cons_eq_none ?_ hq
      intro halpha
      -- A letter is followed by a separator.
      rcases hcases with ⟨hslash, -⟩ | rfl | ⟨-, hhead⟩
      · rw [isSlash_of_isAlpha halpha] at hslash
        cases hslash
      · cases halpha
      · rw [hhead]
        decide
  | a :: c :: t =>
      obtain ⟨u, rfl⟩ := h.isPrefix
      exact volume_append hb u

end Attached

/-! ## The device root -/

/-- A text that starts with `\??` only if a first element does, or with no separator behind it. -/
def DeviceHeld (first t : Text) : Prop :=
  ['\\', '?', '?'] <+: t →
    ['\\', '?', '?'] <+: first ∨ ∃ c u, t = '\\' :: '?' :: '?' :: c :: u ∧ c ≠ '\\'

/-- Two question marks that are not taken for the device root are followed by a character other than
a slash. -/
theorem exists_of_hasPrefixFold {t : Text} (h : hasPrefixFold ('?' :: '?' :: t) ['?', '?'] = false) :
    ∃ c u, t = c :: u ∧ c ≠ '\\' := by
  cases t with
  | nil => exact absurd h (by decide)
  | cons c u =>
      refine ⟨c, u, rfl, ?_⟩
      rintro rfl
      have hfold : hasPrefixFold ('?' :: '?' :: '\\' :: u) ['?', '?'] = true := by
        simp [hasPrefixFold, isSlash]
      rw [hfold] at h
      cases h

/-- An element completes `\??` behind a lone root only, and then no separator follows. -/
theorem exists_of_attach_device {b e : Text} (hne : b ≠ []) (hb : ¬ ['\\', '?', '?'] <+: b)
    (h : ['\\', '?', '?'] <+: attach b e) :
    ∃ c u, attach b e = '\\' :: '?' :: '?' :: c :: u ∧ c ≠ '\\' := by
  have hshort : b <+: ['\\', '?', '?'] :=
    (List.prefix_or_prefix_of_prefix (attached hne e).isPrefix h).resolve_right hb
  have hcases : b = ['\\'] ∨ b = ['\\', '?'] := by
    simp only [List.prefix_cons_iff, List.prefix_nil] at hshort
    rcases hshort with rfl | ⟨t, rfl, rfl | ⟨t, rfl, rfl | ⟨t, rfl, rfl⟩⟩⟩
    · exact absurd rfl hne
    · exact .inl rfl
    · exact .inr rfl
    · exact absurd (List.prefix_refl _) hb
  rcases hcases with rfl | rfl
  · have hattach : attach ['\\'] e =
        if hasPrefixFold (e.dropWhile isSlash) ['?', '?'] then
          '\\' :: '.' :: '\\' :: e.dropWhile isSlash
        else '\\' :: e.dropWhile isSlash := by
      simp only [attach, List.getLast?_singleton, isSlash, beq_self_eq_true, Bool.true_or, if_true,
        List.length_singleton, Bool.true_and]
      split
      · rfl
      · rfl
    rw [hattach] at h ⊢
    split at h
    · exact absurd (List.cons_prefix_cons.1 (List.cons_prefix_cons.1 h).2).1 (by decide)
    · next hfold =>
      obtain ⟨v, hv⟩ := (List.cons_prefix_cons.1 h).2
      rw [if_neg hfold, ← hv]
      rw [← hv] at hfold
      obtain ⟨c, u, rfl, hc⟩ := exists_of_hasPrefixFold (Bool.eq_false_iff.2 hfold)
      exact ⟨c, u, rfl, hc⟩
  -- Behind another character the element gets a separator.
  · have hattach : attach ['\\', '?'] e = ['\\', '?'] ++ '\\' :: e :=
      attach_name rfl rfl (by decide)
    rw [hattach] at h
    exact absurd h (by simp)

/-- One more element leaves the device root as it was. -/
theorem DeviceHeld.attach {b first : Text} (hb : DeviceHeld first b) (hne : b ≠ []) (e : Text) :
    DeviceHeld first (attach b e) := by
  intro h
  by_cases hdevice : ['\\', '?', '?'] <+: b
  · obtain ⟨v, hv⟩ := (attached hne e).isPrefix
    rw [← hv]
    rcases hb hdevice with hfirst | ⟨c, u, rfl, hc⟩
    · exact .inl hfirst
    · exact .inr ⟨c, u ++ v, rfl, hc⟩
  · exact .inr (exists_of_attach_device hne hdevice h)

/-! ## Joined paths -/

/-- What each element keeps holds behind all of them. -/
theorem foldl_attach {P : Text → Prop} (hstep : ∀ b e, b ≠ [] → P b → P (attach b e)) (es : List Text)
    {b : Text} (hne : b ≠ []) (hb : P b) : es.foldl attach b ≠ [] ∧ P (es.foldl attach b) := by
  induction es generalizing b with
  | nil => exact ⟨hne, hb⟩
  | cons e es ih =>
      obtain ⟨t, ht⟩ := (attached hne e).isPrefix
      refine ih ?_ (hstep b e hne hb)
      rw [← ht]
      exact List.append_ne_nil_of_left_ne_nil hne t

namespace Dialect

theorem volumeName_eq_of_isPrefix {d : Dialect} {b q : Text} (hb : b <+: q)
    (h : d.volume q = d.volume b) : d.volumeName q = d.volumeName b := by
  obtain ⟨t, rfl⟩ := hb
  rw [volumeName, volumeLength, h, ← volumeLength,
    List.take_append_of_le_length (volumeLength_le d b), volumeName]

/-- Empty elements join to nothing. Any other elements join to a path with the volume of the first
one that is not empty, if this one does not start with two separators, and to a path below the
device root only if this one is written with it. -/
theorem join_keeps_beginning (es : List Text) :
    ((∀ e ∈ es, e = []) → windows.join es = []) ∧
      ∀ e, es.find? (fun e => e ≠ []) = some e →
        (¬ windows.DoublyRooted e →
          windows.volumeName (windows.join es) = windows.volumeName e) ∧
        (['\\', '?', '?', '\\'] <+: windows.join es → ['\\', '?', '?'] <+: e) := by
  constructor
  · intro hempty
    exact join_of_empty windows hempty
  · intro e he
    obtain ⟨hne, empty, rest, hes, hempty⟩ := exists_first he
    have hconcat : windows.concat es = rest.foldl attach e := by
      rw [hes]
      exact concat_windows hempty
    have hcne : windows.concat es ≠ [] := by
      rw [hconcat]
      exact (foldl_attach (P := fun _ => True) (fun _ _ _ h => h) rest hne trivial).1
    rw [join_eq_clean hcne]
    constructor
    · intro hsingle
      rw [(cleanForm _).volumeName_eq, hconcat]
      -- Every element leaves the text in front of it, its volume, and no second separator.
      have hkept := (foldl_attach (P := fun b => ¬ windows.DoublyRooted b ∧ e <+: b ∧
        windows.volume b = windows.volume e) ?_ rest hne ⟨hsingle, List.prefix_refl e, rfl⟩).2
      · exact volumeName_eq_of_isPrefix hkept.2.1 hkept.2.2
      · rintro b x hb ⟨hdouble, hbegins, hvolume⟩
        have hattached := attached hb x
        exact ⟨hattached.not_doublyRooted hb hdouble, hbegins.trans hattached.isPrefix,
          (hattached.volume_eq hb hdouble).trans hvolume⟩
    · intro hdevice
      have hthree : ['\\', '?', '?'] <+: windows.clean (windows.concat es) :=
        List.IsPrefix.trans (List.prefix_append ['\\', '?', '?'] ['\\']) hdevice
      have hwritten := hdevice.trans (clean_isPrefix hthree)
      rw [hconcat] at hwritten
      have hheld := (foldl_attach (P := DeviceHeld e) (fun b x hb h => h.attach hb x) rest hne
        Or.inl).2
      -- The separator behind the question marks was written in the first element.
      rcases hheld (List.IsPrefix.trans (List.prefix_append _ ['\\']) hwritten) with
        hfirst | ⟨c, u, heq, hc⟩
      · exact hfirst
      · rw [heq] at hwritten
        exact absurd (by simpa using hwritten) hc.symm

/-- A drive stays the volume in front of what looks like a share, and a device path stays one. -/
theorem join_keeps_beginning_drive :
    windows.volumeName (windows.join ["".toList, "C:".toList, "\\\\h\\s".toList]) = ['C', ':'] ∧
      ['\\', '?', '?', '\\'] <+: windows.join ["\\??".toList, "a".toList] ∧
      ['\\', '?', '?'] <+: "\\??".toList := by
  have hdevice : ['\\', '?', '?', '\\'] <+: windows.join ["\\??".toList, "a".toList] := by decide
  refine ⟨?_, hdevice, ?_⟩
  · exact ((join_keeps_beginning ["".toList, "C:".toList, "\\\\h\\s".toList]).2 "C:".toList
      (by decide)).1 (by decide)
  · exact ((join_keeps_beginning ["\\??".toList, "a".toList]).2 "\\??".toList (by decide)).2
      hdevice

end Dialect

end PathAlgebra
