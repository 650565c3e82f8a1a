import PathAlgebra.Proofs.NativeSpelling
import PathAlgebra.Proofs.Recomposition

/-!
# Climbing from directory to directory

The directory of a path, the directory of that, and so on: this ends. Lengths do not show it, since a
directory is cleaned, and cleaning can put a guard or a `.` in front. What goes down is the number of
elements behind the volume (`depth`). Cleaning adds none, whatever the text is read as on its own
(`length_elements_clean_le`). A directory has its last element taken off, unless it ends with a
separator or is a `.`; then it is its own directory (`dirname_fixed_or_lower`). So the climb ends
after one step for each element and one more for the first cleaning, and it never leaves the volume
(`dirname_iterate_fixed`). Without a volume it ends at the root, or at `.` where there is no root.
-/

set_option autoImplicit false

namespace PathAlgebra

/-- The name that ends a written share is no `.`. -/
theorem ShareWritten.lastRun_ne_dot {u : Text} (h : ShareWritten u) :
    u.lastRun Dialect.windows.isSep ≠ ['.'] := by
  cases h with
  | @intro a b c host name ha hb hhost hc hname =>
      have happ : a :: b :: (host ++ c :: name) = (a :: b :: host ++ [c]) ++ name := by simp
      have hlast : Text.lastRun Dialect.windows.isSep (a :: b :: (host ++ c :: name)) = name := by
        rw [happ]
        apply Text.lastRun_append _ hname.no_slash
        intro x hx
        rw [List.getLast?_concat] at hx
        rw [← Option.some.inj hx]
        exact hc
      rw [hlast]
      rintro rfl
      exact absurd hname.starts (by decide)

namespace Dialect

variable {d : Dialect} {p t s x : Text} {c : Char} {es : List Text}

/-! ## Counting elements -/

/-- A normal form has no more elements than the text. -/
theorem length_elements_normalForm_le (d : Dialect) (t : Text) :
    (d.elements (d.normalForm t)).length ≤ (d.elements t).length := by
  rw [elements_normalForm]
  exact (resolve_sublist _ _).length_le

/-- A run without a separator is one element at most. -/
theorem length_elements_le_one (hx : ∀ a ∈ x, d.isSep a = false) : (d.elements x).length ≤ 1 := by
  rw [elements_of_noSep hx]
  split
  · exact Nat.le_refl 1
  · exact Nat.zero_le 1

/-- In front of a root a drive is an element of its own. -/
theorem elements_drive_rooted (hc : c.isAlpha = true) (hes : ∀ e ∈ es, IsElement windows e) :
    windows.elements (c :: ':' :: windows.writeElements true es) = [c, ':'] :: es := by
  have hspell : windows.writeElements true es = windows.spell true es :=
    writeElements_of_ne_nil (by simp [spell])
  have hroot : windows.isRooted (windows.spell true es) = true := isRooted_spell hes
  rw [hspell, ← List.nil_append (windows.spell true es), elements_drive hc (by simp) (.inr hroot),
    elements_spell hes]

/-- Without a root a drive makes one element with the first one behind it, or with a `.`. -/
theorem length_elements_drive_unrooted (hc : c.isAlpha = true)
    (hes : ∀ e ∈ es, IsElement windows e) :
    (windows.elements (c :: ':' :: windows.writeElements false es)).length = max 1 es.length := by
  cases es with
  | nil =>
      have hdot : IsElement windows [c, ':', '.'] := by
        apply isElement_drive hc
        intro a ha
        rw [List.mem_singleton.1 ha]
        rfl
      exact congrArg List.length (elements_of_isElement hdot)
  | cons e es =>
      have he := hes e List.mem_cons_self
      have hall : ∀ f ∈ (c :: ':' :: e) :: es, IsElement windows f :=
        List.forall_mem_cons.2 ⟨isElement_drive hc he.no_sep,
          fun f hf => hes f (List.mem_cons_of_mem _ hf)⟩
      rw [writeElements_unrooted hes (List.cons_ne_nil e es), ← List.intercalate_cons_cons_left,
        ← List.intercalate_cons_cons_left, elements_intercalate hall, List.length_cons,
        List.length_cons, max_eq_right (Nat.le_add_left 1 _)]

/-- Behind a drive a normal form has no more elements than the text. -/
theorem length_elements_drive_le (hc : c.isAlpha = true) (hx : ∀ a ∈ x, windows.isSep a = false)
    (hs : s = [] ∨ windows.isRooted s = true) :
    (windows.elements (c :: ':' :: windows.normalForm (x ++ s))).length ≤
      (windows.elements s).length + 1 := by
  have hes : ∀ e ∈ windows.resolvedElements (x ++ s), IsElement windows e :=
    fun e he => isElement_of_mem_resolvedElements he
  have hcount : (windows.resolvedElements (x ++ s)).length ≤
      (windows.elements x).length + (windows.elements s).length := by
    rw [← List.length_append, ← elements_append hs]
    exact (resolve_sublist _ _).length_le
  rw [normalForm_eq]
  cases hroot : windows.isRooted (x ++ s) with
  | true =>
      -- A root follows the drive, so there is no run between.
      have hnil : x = [] := by
        cases x with
        | nil => rfl
        | cons a x =>
            have ha : windows.isSep a = true := hroot
            rw [hx a List.mem_cons_self] at ha
            cases ha
      rw [hnil, elements_nil, List.length_nil, Nat.zero_add, List.nil_append] at hcount
      rw [hnil, List.nil_append] at hes ⊢
      rw [elements_drive_rooted hc hes]
      exact Nat.succ_le_succ hcount
  | false =>
      have hfirst := length_elements_le_one hx
      rw [length_elements_drive_unrooted hc hes]
      omega

/-- Cleaning adds no element, whatever volume the text is read with. -/
theorem length_elements_clean_le (d : Dialect) (t : Text) :
    (d.elements (d.clean t)).length ≤ (d.elements t).length := by
  cases d with
  | posix =>
      rw [clean_posix]
      exact length_elements_normalForm_le posix t
  | windows =>
      cases hvol : windows.volume t with
      | none =>
          rcases clean_of_none hvol with hclean | ⟨-, hclean⟩
          · rw [hclean]
            exact length_elements_normalForm_le windows t
          · rw [hclean, elements_guarded]
            exact length_elements_normalForm_le windows t
      | drive =>
          obtain ⟨c, x, s, rfl, hc, hx, hs⟩ := exists_drive_run hvol
          rw [clean_drive hc, elements_drive hc hx hs, List.length_cons]
          exact length_elements_drive_le hc hx hs
      | share n =>
          have hshare : (windows.volume t).isShare = true := by rw [hvol]; rfl
          by_cases htail : windows.tail t = []
          · rw [clean_of_bareShare ⟨hshare, htail⟩]
            have hall := take_append_tail windows t
            rw [htail, List.append_nil] at hall
            rw [volumeName, hall, elements_fromSlash]
          · -- A root follows the share, so the elements of both parts add up.
            have hroot := (isRooted_tail_of_share hshare).resolve_left htail
            have hnormal : windows.isRooted (windows.normalForm (windows.tail t)) = true := by
              rw [isRooted_normalForm, hroot]
            have hpos : 0 < windows.volumeLength t := by
              refine Nat.pos_of_ne_zero fun hzero => ?_
              rw [volumeLength_eq_zero_iff, hvol] at hzero
              cases hzero
            have helements := elements_append (.inr hroot) (t.take (windows.volumeLength t))
            rw [take_append_tail] at helements
            rw [clean_eq_append htail (.inr hpos), elements_append (.inr hnormal),
              elements_fromSlash, helements, List.length_append, List.length_append]
            exact Nat.add_le_add_left (length_elements_normalForm_le windows _) _

/-! ## The ends of cleaned texts -/

/-- Without a volume a cleaned text is a lone root, a `.`, or has an element as its last run. -/
theorem clean_ends (h : d.volume t = .none) :
    d.clean t = [d.sep] ∨ d.clean t = ['.'] ∨ IsElement d ((d.clean t).lastRun d.isSep) := by
  cases d with
  | posix =>
      rw [clean_posix]
      exact lastRun_normalForm posix t
  | windows =>
      rcases clean_of_none h with hclean | ⟨hguard, hclean⟩
      · rw [hclean]
        exact lastRun_normalForm windows t
      · -- Behind a guard there are elements.
        obtain ⟨e, es, helements, -⟩ := exists_cons_of_guard hguard
        obtain ⟨fs, f, hlast⟩ : ∃ fs f, windows.resolvedElements t = fs ++ [f] := by
          rcases List.eq_nil_or_concat' (windows.resolvedElements t) with hnil | hconcat
          · rw [helements] at hnil
            cases hnil
          · exact hconcat
        have hf : IsElement windows f := by
          apply isElement_of_mem_resolvedElements (t := t)
          rw [hlast]
          exact List.mem_append_right fs List.mem_cons_self
        refine .inr (.inr ?_)
        rw [hclean, guarded_eq_spell hguard, hlast, ← List.cons_append, lastRun_spell _ _ hf]
        exact hf

theorem lastRun_root (d : Dialect) : Text.lastRun d.isSep [d.sep] = [] := by
  cases d <;> rfl

theorem exists_sep_of_isRooted (h : d.isRooted t = true) : ∃ c ∈ t, d.isSep c = true := by
  cases t with
  | nil => cases h
  | cons c t => exact ⟨c, List.mem_cons_self, h⟩

/-- The last run of a normal form with a separator is no `.`, whatever stands in front. -/
theorem lastRun_append_normalForm_ne_dot (hc : c ∈ d.normalForm t) (hsep : d.isSep c = true)
    (u : Text) : (u ++ d.normalForm t).lastRun d.isSep ≠ ['.'] := by
  intro hdot
  rw [Text.lastRun_append_of_mem hc hsep] at hdot
  rcases lastRun_normalForm d t with hroot | hname | helement
  · rw [hroot, lastRun_root] at hdot
    cases hdot
  · rw [hname] at hc
    rw [List.mem_singleton.1 hc] at hsep
    cases d <;> cases hsep
  · exact helement.ne_dot hdot

/-- The last run of a normal form behind a drive is no `.`. -/
theorem lastRun_drive_ne_dot (hc : c.isAlpha = true) (t : Text) :
    Text.lastRun windows.isSep (c :: ':' :: windows.normalForm t) ≠ ['.'] := by
  by_cases hsep : ∃ a ∈ windows.normalForm t, windows.isSep a = true
  · obtain ⟨a, ha, hsep⟩ := hsep
    exact lastRun_append_normalForm_ne_dot ha hsep [c, ':']
  · -- The drive is a part of the only run.
    have hrun : ∀ a ∈ c :: ':' :: windows.normalForm t, windows.isSep a = false := by
      intro a ha
      rcases List.mem_cons.1 ha with rfl | ha
      · exact isSlash_of_isAlpha hc
      rcases List.mem_cons.1 ha with rfl | ha
      · rfl
      · exact Bool.eq_false_iff.2 fun htrue => hsep ⟨a, ha, htrue⟩
    rw [Text.lastRun_eq_self hrun]
    intro hdot
    cases hdot

/-- Only a `.` is cleaned to a text with a `.` as its last run. -/
theorem clean_eq_dot (hdot : (d.clean t).lastRun d.isSep = ['.']) : d.clean t = ['.'] := by
  by_cases hvol : d.volume t = .none
  · rcases clean_ends hvol with hroot | hclean | helement
    · rw [hroot, lastRun_root] at hdot
      cases hdot
    · exact hclean
    · exact absurd hdot helement.ne_dot
  cases d with
  | posix => exact absurd rfl hvol
  | windows =>
      cases hkind : windows.volume t with
      | none => exact absurd hkind hvol
      | drive =>
          obtain ⟨c, rest, rfl, hc⟩ := volume_eq_drive_iff.1 hkind
          rw [clean_drive hc] at hdot
          exact absurd hdot (lastRun_drive_ne_dot hc rest)
      | share n =>
          by_cases hbare : IsBareShare t
          · have hshare := shareWritten_of_bareShare (isBareShare_clean hbare)
            exact absurd hdot hshare.lastRun_ne_dot
          · have hshare : (windows.volume t).isShare = true := by rw [hkind]; rfl
            have hroot := (isRooted_tail_of_share hshare).resolve_left fun hnil =>
              hbare ⟨hshare, hnil⟩
            rw [← isRooted_normalForm] at hroot
            obtain ⟨c, hc, hsep⟩ := exists_sep_of_isRooted hroot
            rw [clean_of_not_guarded (fun hguard => hvol hguard.1) hbare] at hdot
            exact absurd hdot (lastRun_append_normalForm_ne_dot hc hsep _)

/-! ## One step up -/

/-- What a directory has behind the volume: the cleaned directory tail, or nothing where it would be
a `.` behind a share. -/
def parentTail (d : Dialect) (p : Text) : Text :=
  if d.clean (d.directoryTail p) = ['.'] ∧ (d.volume p).isShare then []
  else d.clean (d.directoryTail p)

theorem dirname_eq_append (d : Dialect) (p : Text) :
    d.dirname p = d.volumeName p ++ d.parentTail p := by
  rw [dirname, parentTail, ← directoryTail]
  split
  · rw [List.append_nil]
  · rfl

theorem volume_dirname (d : Dialect) (p : Text) : d.volume (d.dirname p) = d.volume p := by
  cases d with
  | posix => rfl
  | windows =>
      rcases dirname_cases p with ⟨-, hdirname⟩ | ⟨hbare, hdirname⟩
      · rw [hdirname, volume_volumeName]
      · rw [hdirname]
        apply volume_volumeName_append
        · intro hnone
          have hbegins := directoryTail_isPrefix windows p
          rw [tail_eq_self hnone] at hbegins
          rw [(cleanForm _).volume_eq]
          exact volume_eq_none_of_isPrefix hnone hbegins
        · intro hshare
          rw [isRooted_clean]
          exact .inr ((directoryTail_of_share hshare).resolve_left fun hnil => hbare ⟨hshare, hnil⟩)

theorem volumeName_dirname (d : Dialect) (p : Text) :
    d.volumeName (d.dirname p) = d.volumeName p := by
  have hvolume := volume_dirname d p
  rw [dirname_eq_append] at hvolume ⊢
  exact (volumeName_append hvolume).1

theorem tail_dirname (d : Dialect) (p : Text) : d.tail (d.dirname p) = d.parentTail p := by
  have hvolume := volume_dirname d p
  rw [dirname_eq_append] at hvolume ⊢
  exact (volumeName_append hvolume).2

theorem directoryTail_dirname (d : Dialect) (p : Text) :
    d.directoryTail (d.dirname p) = (d.parentTail p).beforeLastRun d.isSep := by
  rw [directoryTail, tail_dirname]

/-- A directory that keeps what is behind the volume is its own directory. -/
theorem dirname_fixed_of_parentTail (h : d.parentTail (d.dirname p) = d.parentTail p) :
    d.dirname (d.dirname p) = d.dirname p := by
  rw [dirname_eq_append d (d.dirname p), h, volumeName_dirname, ← dirname_eq_append]

/-- A last run that is no element is empty or a `.`. -/
theorem lastRun_of_no_element (h : d.elements (t.lastRun d.isSep) = []) :
    t.lastRun d.isSep = [] ∨ t.lastRun d.isSep = ['.'] := by
  rw [elements_of_noSep fun c hc => Text.not_isSep_of_mem_lastRun hc] at h
  by_contra hnot
  rw [if_pos (not_or.1 hnot)] at h
  cases h

/-- Where the last run of a directory is no element, taking it off changes nothing. -/
theorem parentTail_dirname (h : d.elements ((d.parentTail p).lastRun d.isSep) = []) :
    d.parentTail (d.dirname p) = d.parentTail p := by
  have hdot : d.clean [] = ['.'] := by cases d <;> rfl
  have hcut := Text.beforeLastRun_append_lastRun d.isSep (d.parentTail p)
  have hdirectory := directoryTail_dirname d p
  by_cases hbare : d.clean (d.directoryTail p) = ['.'] ∧ (d.volume p).isShare = true
  · have hparent : d.parentTail p = [] := if_pos hbare
    rw [hparent] at hdirectory ⊢
    rw [parentTail, hdirectory, volume_dirname, if_pos ⟨hdot, hbare.2⟩]
  have hparent : d.parentTail p = d.clean (d.directoryTail p) := if_neg hbare
  rcases lastRun_of_no_element h with hlast | hlast
  · -- The tail ends with a separator, or is empty, and is its own directory tail.
    rw [hlast, List.append_nil, hparent] at hcut
    rw [hparent, hcut] at hdirectory
    rw [hparent, parentTail, hdirectory, clean_clean, volume_dirname, if_neg hbare]
  · -- The tail is a `.`, and nothing stands in front.
    rw [hparent] at hlast
    have hclean := clean_eq_dot hlast
    have hnil : (d.parentTail p).beforeLastRun d.isSep = [] := by
      rw [hparent, hlast, hclean] at hcut
      rw [hparent, hclean]
      exact List.append_left_eq_self.1 hcut
    rw [hnil] at hdirectory
    rw [hparent, parentTail, hdirectory, hdot, volume_dirname, hclean, if_neg]
    exact fun hshare => hbare ⟨hclean, hshare.2⟩

/-- How many elements a path has behind its volume. -/
def depth (d : Dialect) (p : Text) : Nat := (d.elements (d.tail p)).length

/-- The elements of the directory tail and that of the last run make up the depth. -/
theorem depth_eq_add (d : Dialect) (p : Text) :
    d.depth p = (d.elements (d.directoryTail p)).length +
      (d.elements ((d.tail p).lastRun d.isSep)).length := by
  rw [depth, ← elements_beforeLastRun, List.length_append, directoryTail]

theorem depth_dirname_le (d : Dialect) (p : Text) :
    d.depth (d.dirname p) ≤ (d.elements (d.directoryTail p)).length := by
  rw [depth, tail_dirname, parentTail]
  split
  · exact Nat.zero_le _
  · exact length_elements_clean_le d _

/-- A directory is its own directory, or its directory is less deep. -/
theorem dirname_fixed_or_lower (d : Dialect) (p : Text) :
    d.dirname (d.dirname p) = d.dirname p ∨
      d.depth (d.dirname (d.dirname p)) < d.depth (d.dirname p) := by
  by_cases hlast : d.elements ((d.parentTail p).lastRun d.isSep) = []
  · exact .inl (dirname_fixed_of_parentTail (parentTail_dirname hlast))
  · right
    have hcount := depth_eq_add d (d.dirname p)
    have hlower := depth_dirname_le d (d.dirname p)
    have hpos := List.length_pos_of_ne_nil hlast
    rw [tail_dirname] at hcount
    omega

/-! ## The climb -/

/-- The climb is over at the latest when no element is left. -/
theorem exists_fixed_of_depth_le {n : Nat} (h : d.depth (d.dirname p) ≤ n) :
    ∃ m ≤ n + 1, d.dirname (d.dirname^[m] p) = d.dirname^[m] p := by
  induction n generalizing p with
  | zero =>
      refine ⟨1, Nat.le_refl 1, ?_⟩
      rcases dirname_fixed_or_lower d p with hfixed | hlower
      · exact hfixed
      · exact absurd (hlower.trans_le h) (Nat.not_lt_zero _)
  | succ n ih =>
      rcases dirname_fixed_or_lower d p with hfixed | hlower
      · exact ⟨1, Nat.le_add_left 1 _, hfixed⟩
      · obtain ⟨m, hm, hfixed⟩ := ih (Nat.le_of_lt_succ (hlower.trans_le h))
        exact ⟨m + 1, Nat.succ_le_succ hm, hfixed⟩

/-- The climb never leaves the volume. -/
theorem volume_iterate_dirname (d : Dialect) (p : Text) (n : Nat) :
    d.volume (d.dirname^[n] p) = d.volume p ∧
      d.volumeName (d.dirname^[n] p) = d.volumeName p := by
  induction n with
  | zero => exact ⟨rfl, rfl⟩
  | succ n ih =>
      rw [Function.iterate_succ_apply', volume_dirname, volumeName_dirname]
      exact ih

/-- Without a volume the directory is the text before the last run, cleaned. -/
theorem dirname_of_no_volume (h : d.volume p = .none) :
    d.dirname p = d.clean (p.beforeLastRun d.isSep) := by
  have hlength : d.volumeLength p = 0 := by
    rw [volumeLength, h]
    rfl
  rw [dirname_of_none h, split, tail_eq_self h, hlength]
  rfl

/-- Without a volume the climb stays rooted, or stays relative. -/
theorem isRooted_iterate_dirname (h : d.volume p = .none) (n : Nat) :
    d.isRooted (d.dirname^[n] p) = d.isRooted p := by
  induction n with
  | zero => rfl
  | succ n ih =>
      have hvolume := (volume_iterate_dirname d p n).1.trans h
      rw [Function.iterate_succ_apply', dirname_of_no_volume hvolume, isRooted_clean,
        isRooted_beforeLastRun]
      exact ih

/-- Without a volume only the root and `.` are their own directories. -/
theorem eq_of_dirname_fixed (h : d.volume p = .none) (hfixed : d.dirname p = p) :
    p = if d.isRooted p then [d.sep] else ['.'] := by
  have hclean : d.clean (p.beforeLastRun d.isSep) = p := by
    rw [← dirname_of_no_volume h]
    exact hfixed
  have hvolume : d.volume (p.beforeLastRun d.isSep) = .none := by
    cases d with
    | posix => rfl
    | windows =>
        exact volume_eq_none_of_isPrefix h ⟨_, Text.beforeLastRun_append_lastRun windows.isSep p⟩
  rcases clean_ends hvolume with hroot | hdot | helement
  · have hrooted : d.isRooted [d.sep] = true := by cases d <;> rfl
    rw [← hclean, hroot, if_pos hrooted]
  · have hrelative : d.isRooted ['.'] = false := by cases d <;> rfl
    rw [← hclean, hdot, hrelative]
    rfl
  · -- With an element at the end the directory would be less deep.
    rw [hclean] at helement
    have hcount := depth_eq_add d p
    have hlower := depth_dirname_le d p
    have hone := congrArg List.length (elements_of_isElement helement)
    rw [List.length_singleton] at hone
    rw [tail_eq_self h] at hcount
    rw [hfixed] at hlower
    omega

/-- Climbing from directory to directory ends, after one step for each element behind the volume and
one more. The last directory has the volume of the path. Where there is none it is the root for a
rooted path and `.` for any other, as for every POSIX path. -/
theorem dirname_iterate_fixed (d : Dialect) (p : Text) :
    ∃ n q, n ≤ d.depth p + 1 ∧ d.dirname^[n] p = q ∧ d.dirname q = q ∧
      d.volumeName q = d.volumeName p ∧
      (d.volume p = .none → q = if d.isRooted p then [d.sep] else ['.']) ∧
      (d = .posix → q = if p.head? = some '/' then ['/'] else ['.']) := by
  have hdepth : d.depth (d.dirname p) ≤ d.depth p :=
    (depth_dirname_le d p).trans ((depth_eq_add d p).symm ▸ Nat.le_add_right _ _)
  obtain ⟨n, hn, hfixed⟩ := exists_fixed_of_depth_le hdepth
  obtain ⟨hvolume, hname⟩ := volume_iterate_dirname d p n
  have hend : d.volume p = .none →
      d.dirname^[n] p = if d.isRooted p then [d.sep] else ['.'] := by
    intro hnone
    rw [← isRooted_iterate_dirname hnone n]
    exact eq_of_dirname_fixed (hvolume.trans hnone) hfixed
  refine ⟨n, _, hn, rfl, hfixed, hname, hend, ?_⟩
  rintro rfl
  have hroot : posix.isRooted p = true ↔ p.head? = some '/' := by
    cases p with
    | nil => simp [isRooted]
    | cons c p => simp [isRooted, isSep]
  rw [hend rfl]
  exact if_congr hroot rfl rfl

end Dialect

end PathAlgebra
