import PathAlgebra.Proofs.RelativeCleaning
import PathAlgebra.Split

/-!
# Where directories are cleaned

The directory of a path is its volume in front of the cleaned rest of its directory part
(`directoryTail`). That rest is cleaned on its own, so behind a volume it is read as if it stood at
the start of a path, and there it may be read in another way (`ReadAnew`): as a share, as a text that
takes a guard, or as a path on a drive, which keeps the drive where a `..` would take it off and
writes a `.` for nothing behind it. Everywhere else it is cleaned to its normal form
(`clean_eq_normalForm_iff`), which is what stands behind the volume of a cleaned path. So a directory
is the cleaned directory part, and cleaned itself, unless the path has a volume and the rest of its
directory part is read anew (`dirname_cleaned_iff`).
-/

set_option autoImplicit false

namespace PathAlgebra

namespace Dialect

variable {d : Dialect} {p t s x : Text} {c : Char} {es fs : List Text}

/-! ## Paths on a drive -/

/-- What follows a drive is a run, which may be empty, up to a separator or the end. -/
theorem exists_drive_run (h : windows.volume t = .drive) :
    ∃ c x s, t = c :: ':' :: (x ++ s) ∧ c.isAlpha = true ∧ (∀ a ∈ x, windows.isSep a = false) ∧
      (s = [] ∨ windows.isRooted s = true) := by
  obtain ⟨c, rest, rfl, hc⟩ := volume_eq_drive_iff.1 h
  refine ⟨c, rest.takeWhile fun a => !isSlash a, _, ?_, hc, ?_, isRooted_dropWhile rest⟩
  · rw [List.takeWhile_append_dropWhile]
  · intro a ha
    simpa [isSep] using List.mem_takeWhile_imp ha

theorem isElement_drive (hc : c.isAlpha = true) (hx : ∀ a ∈ x, windows.isSep a = false) :
    IsElement windows (c :: ':' :: x) where
  ne_nil := List.cons_ne_nil _ _
  ne_dot := by simp
  no_sep := List.forall_mem_cons.2 ⟨isSlash_of_isAlpha hc, List.forall_mem_cons.2 ⟨rfl, hx⟩⟩

theorem elements_drive (hc : c.isAlpha = true) (hx : ∀ a ∈ x, windows.isSep a = false)
    (hs : s = [] ∨ windows.isRooted s = true) :
    windows.elements (c :: ':' :: (x ++ s)) = (c :: ':' :: x) :: windows.elements s := by
  have happend := elements_append (d := .windows) hs (c :: ':' :: x)
  rw [elements_of_isElement (isElement_drive hc hx)] at happend
  exact happend

theorem drive_ne_parent (c : Char) (x : Text) : c :: ':' :: x ≠ parentElement := by
  simp [parentElement]

/-! ## A drive that stays -/

/-- Elements behind a first run, which may be missing or a `.`, may be resolved beforehand. -/
theorem normalForm_run_append (hx : ∀ a ∈ x, windows.isSep a = false)
    (hs : s = [] ∨ windows.isRooted s = true)
    (hne : ¬ (x = [] ∧ resolve false (windows.elements s) = [])) :
    windows.normalForm (x ++ s) =
      windows.normalForm ([windows.sep].intercalate (x :: resolve false (windows.elements s))) := by
  have hnames : ∀ e ∈ resolve false (windows.elements s), IsElement windows e :=
    fun _ he => isElement_of_mem_resolve he
  have hroot : windows.isRooted (x ++ s) = windows.isRooted
      ([windows.sep].intercalate (x :: resolve false (windows.elements s))) := by
    cases x with
    | nil =>
        -- Elements follow, and so a separator does.
        have hnames' : resolve false (windows.elements s) ≠ [] := fun h => hne ⟨rfl, h⟩
        have hs' : windows.isRooted s = true := by
          refine hs.resolve_left fun hnil => hnames' ?_
          rw [hnil, elements_nil]
          rfl
        rw [List.intercalate_cons_of_ne_nil hnames', List.nil_append, hs']
        rfl
    | cons a x =>
        rw [List.intercalate_cons_cons_left]
        rfl
  have helements : windows.elements
      ([windows.sep].intercalate (x :: resolve false (windows.elements s))) =
        windows.elements x ++ resolve false (windows.elements s) := by
    rw [elements_intercalate_texts, List.flatMap_cons, ← elements_intercalate_texts,
      elements_intercalate hnames]
  rw [normalForm_eq_iff, resolvedElements, resolvedElements, ← hroot, helements, elements_append hs,
    resolve_append_resolve]
  exact ⟨rfl, rfl⟩

/-- Without a `..` that takes it off, the drive is the beginning of the first element. -/
theorem clean_drive_eq_iff_of_kept (hc : c.isAlpha = true) (hx : ∀ a ∈ x, windows.isSep a = false)
    (hs : s = [] ∨ windows.isRooted s = true)
    (hparent : parentElement ∉ resolve false (windows.elements s)) :
    windows.clean (c :: ':' :: (x ++ s)) = windows.normalForm (c :: ':' :: (x ++ s)) ↔
      ¬ windows.Unclean 0 (windows.resolvedElements (c :: ':' :: (x ++ s))) := by
  have hnames : ∀ e ∈ resolve false (windows.elements s), IsElement windows e :=
    fun _ he => isElement_of_mem_resolve he
  have hroot : windows.isRooted (c :: ':' :: (x ++ s)) = false := isSlash_of_isAlpha hc
  have hfirst : resolve false [c :: ':' :: x] = [c :: ':' :: x] :=
    (resolved_cons List.not_mem_nil _).resolve_eq
  have helements : windows.resolvedElements (c :: ':' :: (x ++ s)) =
      (c :: ':' :: x) :: resolve false (windows.elements s) := by
    rw [resolvedElements, hroot, elements_drive hc hx hs, ← List.singleton_append,
      resolve_append_of_notMem false hparent, hfirst]
    rfl
  have hnormal : windows.normalForm (c :: ':' :: (x ++ s)) =
      c :: ':' :: [windows.sep].intercalate (x :: resolve false (windows.elements s)) := by
    rw [normalForm_eq, hroot, helements, writeElements_unrooted
      (List.forall_mem_cons.2 ⟨isElement_drive hc hx, hnames⟩) (List.cons_ne_nil _ _),
      List.intercalate_cons_cons_left, List.intercalate_cons_cons_left]
  rw [clean_drive hc, hnormal, helements, unclean_drive_iff hc, List.cons_inj_right,
    List.cons_inj_right, ← normalForm_intercalate_iff hx hnames hparent]
  constructor
  · intro h
    rw [← h, normalForm_normalForm]
  · intro h
    have hne := (normalForm_intercalate_iff hx hnames hparent).1 h
    rw [normalForm_run_append hx hs fun hnil => hne (.inl hnil), h]

/-! ## A drive that is taken off -/

/-- More elements in front, and a root, make a text longer. -/
theorem length_writeElements_le (rooted : Bool) (es : List Text) (hfs : ∀ e ∈ fs, IsElement d e) :
    (d.writeElements false fs).length ≤ (d.writeElements rooted (es ++ fs)).length := by
  by_cases hnil : fs = []
  · have hpos := List.length_pos_iff.2 (writeElements_ne_nil d rooted (es ++ fs))
    have hdot : d.writeElements false fs = ['.'] := by rw [hnil]; rfl
    rw [hdot]
    exact hpos
  · have hsuffix : [d.sep].intercalate fs <:+ d.spell rooted (es ++ fs) := by
      refine List.IsSuffix.trans ?_ (List.suffix_append _ _)
      by_cases hes : es = []
      · subst hes
        exact List.suffix_refl _
      · rw [intercalate_append hes hnil]
        exact (List.suffix_cons _ _).trans (List.suffix_append _ _)
    rw [writeElements_unrooted hfs hnil]
    exact hsuffix.length_le.trans (spell_isPrefix_writeElements d rooted (es ++ fs)).length_le

/-- A `..` takes the first element off with the drive. On its own the drive stays, in front of all
that is left. -/
theorem clean_drive_ne_of_erased (hc : c.isAlpha = true) (hx : ∀ a ∈ x, windows.isSep a = false)
    (hs : s = [] ∨ windows.isRooted s = true)
    (hparent : parentElement ∈ resolve false (windows.elements s)) :
    windows.clean (c :: ':' :: (x ++ s)) ≠ windows.normalForm (c :: ':' :: (x ++ s)) := by
  have hroot : windows.isRooted (c :: ':' :: (x ++ s)) = false := isSlash_of_isAlpha hc
  obtain ⟨rest, hups, hresolved, herased⟩ :=
    exists_resolve_cons_erased (drive_ne_parent c x) hparent
  have hrest : ∀ e ∈ rest, IsElement windows e := by
    intro e he
    have hmem : e ∈ resolve false (windows.elements s) := by
      rw [hups]
      exact List.mem_cons_of_mem _ he
    exact isElement_of_mem_resolve hmem
  have hnormal : windows.normalForm (c :: ':' :: (x ++ s)) = windows.writeElements false rest := by
    rw [normalForm_eq, resolvedElements, hroot, elements_drive hc hx hs, herased]
  intro heq
  have hvol := (cleanForm (c :: ':' :: (x ++ s))).volume_eq
  rw [volume_drive hc, heq, hnormal] at hvol
  -- What is left starts with a drive, so it has no further `..`.
  have hnone : parentElement ∉ rest := by
    cases rest with
    | nil => exact List.not_mem_nil
    | cons up rest =>
        apply hresolved.notMem_cons
        rintro rfl
        rw [writeElements_unrooted hrest (List.cons_ne_nil _ _)] at hvol
        have hup : windows.volume (windows.way 1 rest) = .none :=
          volume_way_succ (n := 0) fun e he => (hrest e (List.mem_cons_of_mem _ he)).isRun
        exact absurd (hup.symm.trans hvol) (by decide)
  -- Behind the drive these elements are left as well, so the cleaned path is longer.
  have hbehind : resolve (windows.isRooted (x ++ s)) (windows.elements x ++ windows.elements s) =
      resolve (windows.isRooted (x ++ s)) (windows.elements x ++ [parentElement]) ++ rest := by
    rw [← hresolved.resolve_eq] at hnone
    rw [← resolve_append_resolve, hups, ← List.singleton_append, ← List.append_assoc,
      resolve_append_of_notMem _ hnone, hresolved.resolve_eq]
  have hle := length_writeElements_le (windows.isRooted (x ++ s))
    (resolve (windows.isRooted (x ++ s)) (windows.elements x ++ [parentElement])) hrest
  rw [← hbehind, ← elements_append hs] at hle
  have hlength := congrArg List.length (heq.trans hnormal)
  rw [clean_drive hc, normalForm_eq, resolvedElements, List.length_cons, List.length_cons] at hlength
  omega

/-! ## Texts that are read anew -/

/-- A text that is read in another way at the start of a path than behind a volume: it starts with a
share, it is cleaned with a guard, or it starts with a drive that a `..` would take off, or behind
which nothing or a `.` is left. -/
inductive ReadAnew (t : Text) : Prop where
  | share : (windows.volume t).isShare = true → ReadAnew t
  | guarded : IsGuarded t → ReadAnew t
  | driveErased : windows.volume t = .drive →
      parentElement ∈ resolve false (windows.elements t).tail → ReadAnew t
  | driveUnclean : windows.volume t = .drive → windows.Unclean 0 (windows.resolvedElements t) →
      ReadAnew t

theorem clean_drive_eq_normalForm_iff (h : windows.volume t = .drive) :
    windows.clean t = windows.normalForm t ↔
      ¬ (parentElement ∈ resolve false (windows.elements t).tail ∨
        windows.Unclean 0 (windows.resolvedElements t)) := by
  obtain ⟨c, x, s, rfl, hc, hx, hs⟩ := exists_drive_run h
  have htail : (windows.elements (c :: ':' :: (x ++ s))).tail = windows.elements s := by
    rw [elements_drive hc hx hs, List.tail_cons]
  rw [htail]
  by_cases hparent : parentElement ∈ resolve false (windows.elements s)
  · exact iff_of_false (clean_drive_ne_of_erased hc hx hs hparent) fun hnot => hnot (.inl hparent)
  · rw [or_iff_right hparent]
    exact clean_drive_eq_iff_of_kept hc hx hs hparent

/-- A text is cleaned to its normal form unless it is read anew. -/
theorem clean_eq_normalForm_iff (t : Text) :
    windows.clean t = windows.normalForm t ↔ ¬ ReadAnew t := by
  cases hvol : windows.volume t with
  | none =>
      constructor
      · intro heq hanew
        cases hanew with
        | share hshare =>
            rw [hvol] at hshare
            cases hshare
        | guarded hguard => exact hguard.2 heq
        | driveErased hdrive _ =>
            rw [hvol] at hdrive
            cases hdrive
        | driveUnclean hdrive _ =>
            rw [hvol] at hdrive
            cases hdrive
      · intro hanew
        by_contra hne
        exact hanew (.guarded ⟨hvol, hne⟩)
  | drive =>
      rw [clean_drive_eq_normalForm_iff hvol, not_iff_not]
      constructor
      · rintro (herased | hunclean)
        · exact .driveErased hvol herased
        · exact .driveUnclean hvol hunclean
      · intro hanew
        cases hanew with
        | share hshare =>
            rw [hvol] at hshare
            cases hshare
        | guarded hguard =>
            have hnone := hguard.1
            rw [hvol] at hnone
            cases hnone
        | driveErased _ herased => exact .inl herased
        | driveUnclean _ hunclean => exact .inr hunclean
  | share n =>
      refine iff_of_false (fun heq => ?_) fun hanew => hanew (.share (by rw [hvol]; rfl))
      have hclean := (cleanForm t).volume_eq
      rw [heq, hvol] at hclean
      exact volume_normalForm_ne_share t n hclean

/-! ## Directories -/

/-- What a path has behind its volume up to its last separator. -/
def directoryTail (d : Dialect) (p : Text) : Text := (d.tail p).beforeLastRun d.isSep

theorem directoryTail_isPrefix (d : Dialect) (p : Text) : d.directoryTail p <+: d.tail p :=
  ⟨_, Text.beforeLastRun_append_lastRun d.isSep (d.tail p)⟩

/-- Behind a share the directory part goes on with a separator or ends. -/
theorem directoryTail_of_share (h : (windows.volume p).isShare = true) :
    windows.directoryTail p = [] ∨ windows.isRooted (windows.directoryTail p) = true := by
  have hbegins := directoryTail_isPrefix windows p
  rcases isRooted_tail_of_share h with hnil | hroot
  · rw [hnil] at hbegins
    exact .inl (List.prefix_nil.1 hbegins)
  · by_cases hnil : windows.directoryTail p = []
    · exact .inl hnil
    · right
      rw [← hroot]
      exact (isRooted_of_isPrefix hnil hbegins).symm

/-- The directory part has the volume of the path and its directory tail. -/
theorem directory_parts (p : Text) :
    windows.volume (windows.split p).1 = windows.volume p ∧
      windows.volumeName (windows.split p).1 = windows.volumeName p ∧
      windows.tail (windows.split p).1 = windows.directoryTail p := by
  have hvolume : windows.volume (windows.split p).1 = windows.volume p := by
    rw [← volume_fromSlash, split, fromSlash_append]
    apply volume_volumeName_append
    · intro hnone
      have hbegins := directoryTail_isPrefix windows p
      rw [tail_eq_self hnone] at hbegins
      rw [volume_fromSlash]
      exact volume_eq_none_of_isPrefix hnone hbegins
    · intro hshare
      rw [isRooted_fromSlash, ← directoryTail]
      rcases directoryTail_of_share hshare with hnil | hroot
      · rw [hnil]
        exact .inl rfl
      · exact .inr hroot
  have hlength : windows.volumeLength (windows.split p).1 =
      (p.take (windows.volumeLength p)).length := by
    rw [volumeLength, hvolume, List.length_take, ← volumeLength,
      min_eq_left (volumeLength_le windows p)]
  refine ⟨hvolume, ?_, ?_⟩
  · rw [volumeName, hlength, split, List.take_left, volumeName]
  · rw [tail, hlength, split, List.drop_left]
    rfl

/-- A rooted text is not cleaned to a `.`. -/
theorem clean_ne_dot (h : windows.isRooted t = true) : windows.clean t ≠ ['.'] := by
  intro hdot
  have hroot := isRooted_clean windows t
  rw [hdot, h] at hroot
  cases hroot

/-- The directory is the volume alone where nothing but a share is left, and else the volume in front
of the cleaned directory tail. -/
theorem dirname_cases (p : Text) :
    ((windows.volume p).isShare = true ∧ windows.directoryTail p = []) ∧
        windows.dirname p = windows.volumeName p ∨
      ¬ ((windows.volume p).isShare = true ∧ windows.directoryTail p = []) ∧
        windows.dirname p = windows.volumeName p ++ windows.clean (windows.directoryTail p) := by
  have hdirname : windows.dirname p =
      if windows.clean (windows.directoryTail p) = ['.'] ∧ (windows.volume p).isShare = true then
        windows.volumeName p
      else windows.volumeName p ++ windows.clean (windows.directoryTail p) := rfl
  by_cases hbare : (windows.volume p).isShare = true ∧ windows.directoryTail p = []
  · have hdot : windows.clean [] = ['.'] := rfl
    refine .inl ⟨hbare, ?_⟩
    rw [hdirname, hbare.2, if_pos ⟨hdot, hbare.1⟩]
  · refine .inr ⟨hbare, ?_⟩
    rw [hdirname, if_neg]
    -- A share is followed by a root, which is not cleaned to a `.`.
    rintro ⟨hdot, hshare⟩
    rcases directoryTail_of_share hshare with hnil | hroot
    · exact hbare ⟨hshare, hnil⟩
    · exact clean_ne_dot hroot hdot

/-- Behind a volume the directory is the directory part, cleaned, where the directory tail is cleaned
to its normal form. -/
theorem dirname_eq_clean_iff (h : windows.volume p ≠ .none) :
    windows.dirname p = windows.clean (windows.split p).1 ↔
      windows.clean (windows.directoryTail p) = windows.normalForm (windows.directoryTail p) := by
  obtain ⟨hvolume, hname, htail⟩ := directory_parts p
  rcases dirname_cases p with ⟨⟨hshare, hnil⟩, hdirname⟩ | ⟨hbare, hdirname⟩
  · rw [hdirname, hnil, clean_of_bareShare ⟨hvolume ▸ hshare, htail.trans hnil⟩, hname]
    exact iff_of_true rfl (by decide)
  · have hguard : ¬ IsGuarded (windows.split p).1 := fun hguard => h (hvolume ▸ hguard.1)
    have hbare' : ¬ IsBareShare (windows.split p).1 := by
      rw [IsBareShare, hvolume, htail]
      exact hbare
    rw [hdirname, clean_of_not_guarded hguard hbare', hname, htail, List.append_cancel_left_eq]

/-- The directory of a path is its directory part cleaned, and cleaned itself, unless it is a Windows
path with a volume and a directory tail that is read anew. -/
theorem dirname_cleaned_iff (d : Dialect) (p : Text) :
    d.clean (d.dirname p) = d.dirname p ∧ d.dirname p = d.clean (d.split p).1 ↔
      ¬ (d = .windows ∧ windows.volume p ≠ .none ∧ ReadAnew (windows.directoryTail p)) := by
  have hboth : d.clean (d.dirname p) = d.dirname p ∧ d.dirname p = d.clean (d.split p).1 ↔
      d.dirname p = d.clean (d.split p).1 := by
    refine ⟨And.right, fun h => ⟨?_, h⟩⟩
    rw [h, clean_clean]
  rw [hboth]
  cases d with
  | posix =>
      refine iff_of_true (dirname_of_none rfl) ?_
      rintro ⟨hwindows, -⟩
      cases hwindows
  | windows =>
      by_cases hvol : windows.volume p = .none
      · exact iff_of_true (dirname_of_none hvol) fun h => h.2.1 hvol
      · rw [dirname_eq_clean_iff hvol, clean_eq_normalForm_iff]
        simp [hvol]

/-- A directory tail that starts with two separators is read as a share. -/
theorem dirname_not_cleaned :
    windows.dirname "C:\\\\a\\b\\x".toList = "C:\\\\a\\b\\".toList ∧
      windows.clean "C:\\\\a\\b\\".toList = "C:\\a\\b".toList ∧
      windows.clean (windows.split "C:\\\\a\\b\\x".toList).1 = "C:\\a\\b".toList := by
  decide

end Dialect

end PathAlgebra
