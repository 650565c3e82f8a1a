import PathAlgebra.Proofs.CommonLanguage

/-!
# Joining the parts of a path

A path is cut behind its last separator, or behind its volume where no separator follows that
(`splitForm`). Joined again, the two parts give the path cleaned (`join_split_eq_clean_iff`): a
separator at the end of the directory part and the colon of a drive are not doubled, so the parts
stand next to each other as they did before. There are three exceptions. Of the empty path there is
nothing to join. A share with nothing behind it gets a separator, which makes it the root of the
share, unless it ends with a colon. And a root in front of `??` is kept from reading as the device
root, as it does in `\??` but not in `/??`, which is cleaned to the guarded path as well.
-/

set_option autoImplicit false

namespace PathAlgebra

namespace Dialect

/-- Where a path is cut: in front of all of it when it is a single name, behind a drive that no
separator follows, behind a share that nothing follows, or behind a separator. -/
inductive SplitForm (d : Dialect) (p : Text) : Text → Text → Prop where
  | name : d.volume p = .none → (∀ c ∈ p, d.isSep c = false) → SplitForm d p [] p
  | behindDrive {c : Char} {file : Text} : d = .windows → windows.volume p = .drive →
      p = c :: ':' :: file → (∀ c ∈ file, d.isSep c = false) → SplitForm d p [c, ':'] file
  | bareShare : d = .windows → IsBareShare p → SplitForm d p p []
  | behindSep {u file : Text} {c : Char} : d.tail p ≠ [] → p = u ++ c :: file →
      d.isSep c = true → (∀ c ∈ file, d.isSep c = false) → SplitForm d p (u ++ [c]) file

variable {d : Dialect} {p : Text}

theorem splitForm_windows_of_noSep (hbefore : (windows.tail p).beforeLastRun windows.isSep = []) :
    SplitForm windows p (windows.split p).1 (windows.split p).2 := by
  -- Without a separator the last run is the whole tail.
  have hrun := Text.beforeLastRun_append_lastRun windows.isSep (windows.tail p)
  rw [hbefore, List.nil_append] at hrun
  have hname : ∀ c ∈ windows.tail p, windows.isSep c = false := by
    rw [← hrun]
    exact fun c hc => Text.not_isSep_of_mem_lastRun hc
  rw [split, hbefore, List.append_nil, hrun]
  cases hvol : windows.volume p with
  | none =>
      rw [tail_eq_self hvol] at hname ⊢
      rw [volumeLength_eq_zero_iff.2 hvol]
      exact .name hvol hname
  | drive =>
      obtain ⟨c, file, rfl, hc⟩ := volume_eq_drive_iff.1 hvol
      rw [tail_drive hc] at hname ⊢
      rw [volumeLength, hvol]
      exact .behindDrive rfl hvol rfl hname
  | share n =>
      -- What could follow a share starts with a separator.
      have htail : windows.tail p = [] := by
        refine (isRooted_tail_of_share (by rw [hvol]; rfl)).resolve_right fun hroot => ?_
        cases hnil : windows.tail p with
        | nil =>
            rw [hnil] at hroot
            cases hroot
        | cons c t =>
            rw [hnil] at hroot hname
            have hc : windows.isSep c = true := hroot
            rw [hname c List.mem_cons_self] at hc
            cases hc
      have hall : p.take (windows.volumeLength p) = p :=
        List.take_of_length_le (List.drop_eq_nil_iff.1 htail)
      rw [htail, hall]
      exact .bareShare rfl ⟨by rw [hvol]; rfl, htail⟩

/-- Every path is cut in one of these places. -/
theorem splitForm (d : Dialect) (p : Text) : SplitForm d p (d.split p).1 (d.split p).2 := by
  rcases Text.beforeLastRun_cases d.isSep (d.tail p) with hbefore | ⟨u, c, hbefore, hc⟩
  · cases d with
    | posix =>
        have hall := split_append posix p
        have hdir : (posix.split p).1 = [] := hbefore
        rw [hdir, List.nil_append] at hall
        have hname : ∀ c ∈ (posix.split p).2, posix.isSep c = false :=
          fun c hc => Text.not_isSep_of_mem_lastRun hc
        rw [hall] at hname
        rw [hdir, hall]
        exact .name rfl hname
    | windows => exact splitForm_windows_of_noSep hbefore
  · have hall := split_append d p
    have hdir : (d.split p).1 = p.take (d.volumeLength p) ++ u ++ [c] := by
      rw [split, hbefore, List.append_assoc]
    have htail : d.tail p ≠ [] := by
      intro hnil
      rw [hnil] at hbefore
      exact absurd hbefore.symm (by simp [Text.beforeLastRun])
    rw [hdir, List.append_assoc, List.singleton_append] at hall
    rw [hdir]
    exact .behindSep htail hall.symm hc fun c hc => Text.not_isSep_of_mem_lastRun hc

/-! ## Joining the parts -/

theorem join_split_nil (d : Dialect) : d.join [(d.split []).1, (d.split []).2] ≠ d.clean [] := by
  cases d <;> decide

/-- POSIX parts have the root and the elements of the path. -/
theorem SplitForm.join_posix_eq {dir file : Text} (h : SplitForm posix p dir file) (hp : p ≠ []) :
    posix.join [dir, file] = posix.clean p := by
  cases h with
  | name hvol hname =>
      have hnil : ∀ x ∈ [([] : Text)], x = [] := by simp
      have hjoin : posix.join [[], p] = posix.join [p] := join_append_of_empty hnil [p]
      have hconcat : posix.concat [p] = p := by
        rw [concat, List.dropWhile_cons_of_neg (by simpa using hp), List.intercalate_singleton]
      rw [hjoin, join_eq_clean (by rw [hconcat]; exact hp), hconcat]
  | behindDrive hwindows _ _ _ => cases hwindows
  | bareShare hwindows _ => cases hwindows
  | @behindSep u file c htail heq hc hfile =>
      have hne : u ++ [c] ≠ [] := by simp
      have hbegins : u ++ [c] <+: p := ⟨file, by rw [heq, List.append_assoc]; rfl⟩
      have hroot : posix.isRooted (u ++ [c]) = posix.isRooted p :=
        (isRooted_of_isPrefix hne hbegins).symm
      have helements : [u ++ [c], file].flatMap posix.elements = posix.elements p := by
        rw [heq, List.flatMap_cons, List.flatMap_singleton, elements_append_sep hc u [],
          elements_nil, List.append_nil, elements_append_sep hc u file]
      rw [join_posix (List.find?_cons_of_pos (by simp)), hroot, helements, clean_posix]
      rfl

/-- Two Windows texts are joined by attaching the second one. -/
theorem join_windows_pair {b e q : Text} (hattach : attach b e = q) (hq : q ≠ []) :
    windows.join [b, e] = windows.clean q := by
  have hconcat : windows.concat [b, e] = q := hattach
  rw [join_eq_clean (by rw [hconcat]; exact hq), hconcat]

/-- A share with a separator behind it is cleaned to another path. -/
theorem clean_append_sep_ne (h : IsBareShare p) :
    windows.clean (p ++ ['\\']) ≠ windows.clean p := by
  have hwritten := shareWritten_of_bareShare h
  have hvol := volume_eq_share_iff.2 ⟨p, ['\\'], rfl, hwritten, .inr rfl, rfl⟩
  have hlength : windows.volumeLength (p ++ ['\\']) = p.length := by
    rw [volumeLength, hvol, Volume.length]
  have htail : windows.tail (p ++ ['\\']) = ['\\'] := by
    rw [tail, hlength, List.drop_left]
  have hpos : 0 < windows.volumeLength (p ++ ['\\']) := by
    rw [hlength]
    cases hwritten
    simp
  rw [clean_eq_append (by rw [htail]; simp) (.inr hpos), htail, hlength, List.take_left]
  intro heq
  -- The normal form of the separator would be empty.
  have hsep := congrArg List.length (heq.trans (if_pos h.2))
  rw [if_pos h.1, List.length_append, fromSlash_length] at hsep
  exact normalForm_ne_nil windows ['\\'] (List.length_eq_zero_iff.1 (by omega))

/-- A share that nothing follows is joined with a separator behind it, unless it ends with a
colon. -/
theorem join_bareShare_iff (h : IsBareShare p) :
    windows.join [p, []] = windows.clean p ↔ p.getLast? = some ':' := by
  have hp : p ≠ [] := by
    rintro rfl
    exact absurd h.1 (by decide)
  obtain ⟨c, -, hlast, hslash⟩ := (shareWritten_of_bareShare h).getLast?
  by_cases hcolon : c = ':'
  · have hattach : attach p [] = p := by
      rw [attach, hlast, hcolon]
      exact List.append_nil p
    rw [join_windows_pair hattach hp, hlast, hcolon]
    exact iff_of_true rfl rfl
  · rw [join_windows_pair (attach_name hlast hslash hcolon) (by simp), hlast]
    exact iff_of_false (clean_append_sep_ne h) (by simpa using hcolon)

/-- A text without a slash follows the separator at the end of another one directly. Only two
question marks do not follow a lone root. -/
theorem attach_behindSep {u file : Text} {c : Char} (hc : isSlash c = true)
    (hfile : ∀ c ∈ file, isSlash c = false) (hdevice : ¬ (u = [] ∧ file = ['?', '?'])) :
    attach (u ++ [c]) file = u ++ c :: file := by
  have hlast : (u ++ [c]).getLast? = some c := List.getLast?_concat
  by_cases hu : u = []
  · have hfold : hasPrefixFold file ['?', '?'] = false :=
      Bool.eq_false_iff.2 fun hfold => hdevice ⟨hu, eq_marks_of_hasPrefixFold hfile hfold⟩
    have hdrop : file.dropWhile isSlash = file := dropWhile_isSlash hfile
    rw [hu]
    simp [attach, hc, hdrop, hfold]
  · have hlen : (u ++ [c]).length ≠ 1 := by simpa using hu
    rw [attach_slash hlen hc hlast hfile, List.append_assoc, List.singleton_append]

/-- The parts of a Windows path stand next to each other again, and are cleaned as the path. -/
theorem SplitForm.join_windows_iff {dir file : Text} (h : SplitForm windows p dir file)
    (hp : p ≠ []) :
    windows.join [dir, file] = windows.clean p ↔
      p ≠ "\\??".toList ∧ (IsBareShare p → p.getLast? = some ':') := by
  cases h with
  | name hvol hname =>
      have hattach : attach [] p = p := rfl
      rw [join_windows_pair hattach hp]
      refine iff_of_true rfl ⟨?_, fun hbare => ?_⟩
      · rintro rfl
        exact absurd (hname '\\' (by decide)) (by decide)
      · exact absurd hbare.1 (by rw [hvol]; decide)
  | @behindDrive c file hwindows hvol heq hfile =>
      have hattach : attach [c, ':'] file = p := heq.symm
      rw [join_windows_pair hattach hp]
      refine iff_of_true rfl ⟨?_, fun hbare => ?_⟩
      · rintro rfl
        cases hvol
      · exact absurd hbare.1 (by rw [hvol]; decide)
  | bareShare hwindows hbare =>
      rw [join_bareShare_iff hbare]
      refine ⟨fun hcolon => ⟨?_, fun _ => hcolon⟩, fun hcolon => hcolon.2 hbare⟩
      rintro rfl
      exact absurd hbare.1 (by decide)
  | @behindSep u file c htail heq hc hfile =>
      have hbare : ¬ IsBareShare p := fun hbare => htail hbare.2
      by_cases hdevice : u = [] ∧ file = ['?', '?']
      · obtain ⟨rfl, rfl⟩ := hdevice
        rw [heq] at hbare ⊢
        rcases (by simpa [isSep, isSlash] using hc : c = '\\' ∨ c = '/') with rfl | rfl
        · decide
        · decide
      · rw [join_windows_pair ((attach_behindSep hc hfile hdevice).trans heq.symm) hp]
        refine iff_of_true rfl ⟨?_, fun h => absurd h hbare⟩
        rintro rfl
        cases u with
        | nil => exact hdevice ⟨rfl, (List.cons.inj heq).2.symm⟩
        | cons x u =>
            -- The separator would be one of the question marks.
            have hmem : c ∈ ['?', '?'] := by
              have hmarks : ['?', '?'] = u ++ c :: file := (List.cons.inj heq).2
              rw [hmarks]
              simp
            obtain rfl : c = '?' := by simpa using hmem
            cases hc

/-- The two parts of a path put together are the path, the file part has no separator, and joining
the parts cleans the path. There are three exceptions: the empty path, a share with nothing behind
it that does not end with a colon, and the Windows path `\??`. -/
theorem join_split_eq_clean_iff (d : Dialect) (p : Text) :
    (d.split p).1 ++ (d.split p).2 = p ∧ (∀ c ∈ (d.split p).2, d.isSep c = false) ∧
      (d.join [(d.split p).1, (d.split p).2] = d.clean p ↔
        p ≠ [] ∧ (d = .windows → p ≠ "\\??".toList ∧
          (IsBareShare p → p.getLast? = some ':'))) := by
  refine ⟨split_append d p, fun c hc => Text.not_isSep_of_mem_lastRun hc, ?_⟩
  by_cases hp : p = []
  · rw [hp]
    exact ⟨fun hjoin => absurd hjoin (join_split_nil d), fun hne => absurd rfl hne.1⟩
  · have hform := splitForm d p
    cases d with
    | posix =>
        refine iff_of_true (hform.join_posix_eq hp) ⟨hp, ?_⟩
        intro hwindows
        cases hwindows
    | windows =>
        rw [hform.join_windows_iff hp]
        simp [hp]

end Dialect

end PathAlgebra
