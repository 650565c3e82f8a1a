import PathAlgebra.Proofs.Decompositions
import PathAlgebra.Proofs.Directories
import PathAlgebra.Proofs.Splitting

/-!
# Directories and base names joined again

A clean path is given back by its directory and its base name (`join_dirname_basename`). Both come
from the cut behind the last separator. A clean path ends with a separator at a root only
(`normalForm_ends`): there the base name is that separator, which adds no element, and anywhere else
it is the file part (`basename_cases`). The directory is the directory part, cleaned
(`dirname_of_plain`), and joining goes on from its elements, so that the elements of both parts are
resolved together, as they are in the path (`writeElements_cut`).

Under the Windows dialect this is so for plain paths, which have a colon in their drive at most and no
question mark. A bare share is no root of its own base name, and is left out.
-/

set_option autoImplicit false

namespace PathAlgebra

namespace Dialect

variable {d : Dialect} {p t : Text} {c : Char}

/-! ## A text cut behind its last separator -/

/-- The text in front of the last run is rooted as the whole text is. -/
theorem isRooted_beforeLastRun (d : Dialect) (t : Text) :
    d.isRooted (t.beforeLastRun d.isSep) = d.isRooted t := by
  have hcut := Text.beforeLastRun_append_lastRun d.isSep t
  rcases Text.beforeLastRun_cases d.isSep t with hnil | ⟨u, c, hbefore, hc⟩
  · -- Without a separator the text is its last run.
    rw [hnil, List.nil_append] at hcut
    rw [hnil]
    cases hrun : t with
    | nil => rfl
    | cons a s =>
        have ha : a ∈ t.lastRun d.isSep := by
          rw [hcut, hrun]
          exact List.mem_cons_self
        exact (Text.not_isSep_of_mem_lastRun ha).symm
  · have hne : t.beforeLastRun d.isSep ≠ [] := by simp [hbefore]
    exact (isRooted_of_isPrefix hne ⟨_, hcut⟩).symm

/-- The elements of a text are those in front of its last run, and its last run. -/
theorem elements_beforeLastRun (d : Dialect) (t : Text) :
    d.elements (t.beforeLastRun d.isSep) ++ d.elements (t.lastRun d.isSep) = d.elements t := by
  have hcut := Text.beforeLastRun_append_lastRun d.isSep t
  rcases Text.beforeLastRun_cases d.isSep t with hnil | ⟨u, c, hbefore, hc⟩
  · rw [hnil, List.nil_append] at hcut
    rw [hnil, elements_nil, List.nil_append, hcut]
  · rw [hbefore, List.append_assoc, List.singleton_append] at hcut
    rw [hbefore, elements_append_sep hc u [], elements_nil, List.append_nil,
      ← elements_append_sep hc, hcut]

/-- What is in front of the last run may be resolved beforehand. -/
theorem writeElements_cut (d : Dialect) (t : Text) :
    d.writeElements (d.isRooted (t.beforeLastRun d.isSep))
      (resolve (d.isRooted (t.beforeLastRun d.isSep))
        (d.resolvedElements (t.beforeLastRun d.isSep) ++ d.elements (t.lastRun d.isSep))) =
      d.normalForm t := by
  rw [resolvedElements, resolve_resolve_append, elements_beforeLastRun, isRooted_beforeLastRun,
    normalForm]

/-! ## Base names -/

/-- The last run of elements that are spelled is the last element. -/
theorem lastRun_spell (rooted : Bool) (es : List Text) {e : Text} (he : IsElement d e) :
    (d.spell rooted (es ++ [e])).lastRun d.isSep = e := by
  rw [spell_append_singleton, ← List.append_assoc]
  apply Text.lastRun_append _ he.no_sep
  intro c hc
  by_cases hnil : es = []
  · -- In front of a single element there is a root or nothing.
    rw [hnil, if_pos rfl, List.append_nil] at hc
    cases rooted with
    | true =>
        rw [← Option.some.inj hc]
        exact isSep_sep d
    | false => cases hc
  · rw [if_neg hnil, List.getLast?_concat] at hc
    rw [← Option.some.inj hc]
    exact isSep_sep d

/-- A normal form is a lone root, a `.`, or has an element as its last run. -/
theorem lastRun_normalForm (d : Dialect) (t : Text) :
    d.normalForm t = [d.sep] ∨ d.normalForm t = ['.'] ∨
      IsElement d ((d.normalForm t).lastRun d.isSep) := by
  have hes : ∀ e ∈ d.resolvedElements t, IsElement d e :=
    fun e he => isElement_of_mem_resolvedElements he
  rw [normalForm_eq]
  generalize d.resolvedElements t = es at hes
  cases es using List.reverseRecOn with
  | nil =>
      cases d.isRooted t with
      | true => exact .inl rfl
      | false => exact .inr (.inl rfl)
  | append_singleton es e =>
      have he : IsElement d e := hes e (by simp)
      have hne : d.spell (d.isRooted t) (es ++ [e]) ≠ [] := by
        intro hnil
        exact absurd ((spell_eq_nil_iff hes).1 hnil).2 (by simp)
      refine .inr (.inr ?_)
      rw [writeElements_of_ne_nil hne, lastRun_spell _ es he]
      exact he

/-- A normal form is a lone root, or it ends with a character that is no separator. -/
theorem normalForm_ends (d : Dialect) (t : Text) :
    d.normalForm t = [d.sep] ∨ ∃ c, (d.normalForm t).getLast? = some c ∧ d.isSep c = false := by
  rcases lastRun_normalForm d t with hroot | hdot | helement
  · exact .inl hroot
  · exact .inr ⟨'.', by rw [hdot]; rfl, by cases d <;> rfl⟩
  · obtain ⟨c, hlast⟩ : ∃ c, ((d.normalForm t).lastRun d.isSep).getLast? = some c :=
      Option.isSome_iff_exists.1 (List.getLast?_isSome.2 helement.ne_nil)
    refine .inr ⟨c, ?_, helement.no_sep c (List.mem_of_getLast? hlast)⟩
    conv_lhs => rw [← Text.beforeLastRun_append_lastRun d.isSep (d.normalForm t)]
    rw [List.getLast?_append, hlast]
    rfl

theorem take_append_tail (d : Dialect) (p : Text) : p.take (d.volumeLength p) ++ d.tail p = p :=
  List.take_append_drop _ _

/-- The base name of a path that does not end with a separator is its file part. -/
theorem basename_of_last (hlast : (d.tail p).getLast? = some c) (hc : d.isSep c = false) :
    d.basename p = (d.split p).2 := by
  have hend : p.getLast? = some c := by
    rw [← take_append_tail d p, List.getLast?_append, hlast]
    rfl
  have hp : p ≠ [] := by
    rintro rfl
    cases hend
  rw [basename, if_neg hp, trimEnd_eq_self hend hc, split]
  cases hrun : (d.tail p).lastRun d.isSep with
  | cons x file => rfl
  | nil =>
      -- The path would end with the separator in front of the file part.
      have hcut := Text.beforeLastRun_append_lastRun d.isSep (d.tail p)
      rw [hrun, List.append_nil] at hcut
      have hsep : d.isSep c = true := Text.isSep_of_getLast?_beforeLastRun (hcut ▸ hlast)
      rw [hc] at hsep
      cases hsep

/-- A volume does not end with a separator. -/
theorem trimEnd_volume (d : Dialect) (p : Text) :
    d.trimEnd (p.take (d.volumeLength p)) = p.take (d.volumeLength p) := by
  cases d with
  | posix => rfl
  | windows =>
      rw [volumeLength]
      cases hvol : windows.volume p with
      | none => rfl
      | drive =>
          obtain ⟨c, rest, rfl, -⟩ := volume_eq_drive_iff.1 hvol
          exact trimEnd_eq_self (c := ':') rfl rfl
      | share n =>
          obtain ⟨u, rest, rfl, hu, -, rfl⟩ := volume_eq_share_iff.1 hvol
          obtain ⟨c, -, hlast, hslash⟩ := hu.getLast?
          rw [Volume.length, List.take_left]
          exact trimEnd_eq_self hlast hslash

/-- Nothing is behind the volume of a volume. -/
theorem tail_volume (d : Dialect) (p : Text) : d.tail (p.take (d.volumeLength p)) = [] := by
  have hvolume : d.volume (p.take (d.volumeLength p)) = d.volume p := by
    cases d with
    | posix => rfl
    | windows =>
        rw [← volume_fromSlash]
        exact volume_volumeName p
  rw [tail, volumeLength, hvolume, ← volumeLength, List.drop_take, Nat.sub_self, List.take_zero]

/-- The base name of a root is its separator. -/
theorem basename_of_root (h : d.tail p = [d.sep]) : d.basename p = [d.sep] := by
  have hp : p ≠ [] := by
    rintro rfl
    have hnil : d.tail [] = [] := List.drop_nil
    rw [hnil] at h
    cases h
  have htrim : d.trimEnd p = p.take (d.volumeLength p) := by
    have hcut := take_append_tail d p
    rw [h] at hcut
    conv_lhs => rw [← hcut]
    rw [trimEnd, List.reverse_append, List.reverse_singleton, List.singleton_append,
      List.dropWhile_cons_of_pos (isSep_sep d), ← trimEnd, trimEnd_volume]
  rw [basename, if_neg hp, htrim, tail_volume]
  rfl

/-- The base name of a clean path is its file part, or the separator of a root. -/
theorem basename_cases (h : d.normalForm (d.tail p) = d.tail p) :
    d.basename p = (d.split p).2 ∨ (d.split p).2 = [] ∧ d.basename p = [d.sep] := by
  rcases normalForm_ends d (d.tail p) with hroot | ⟨c, hlast, hc⟩
  · right
    rw [h] at hroot
    refine ⟨?_, basename_of_root hroot⟩
    rw [split, hroot, Text.lastRun, List.reverse_singleton,
      List.takeWhile_cons_of_neg (by simp), List.reverse_nil]
  · left
    rw [h] at hlast
    exact basename_of_last hlast hc

/-- Either way it has the elements of the file part. -/
theorem elements_basename (h : d.normalForm (d.tail p) = d.tail p) :
    d.elements (d.basename p) = d.elements (d.split p).2 := by
  rcases basename_cases h with hfile | ⟨hnil, hsep⟩
  · rw [hfile]
  · rw [hnil, hsep, elements_sep_cons (isSep_sep d)]

/-- Its characters are those behind the volume, but for the separator of a root. -/
theorem notMem_basename (h : d.normalForm (d.tail p) = d.tail p) (hsep : c ≠ d.sep)
    (htail : c ∉ d.tail p) : c ∉ d.basename p := by
  intro hc
  rcases basename_cases h with hfile | ⟨-, hroot⟩
  · apply htail
    rw [hfile] at hc
    rw [← Text.beforeLastRun_append_lastRun d.isSep (d.tail p)]
    exact List.mem_append_right _ hc
  · rw [hroot] at hc
    exact hsep (List.mem_singleton.1 hc)

/-! ## Clean plain paths -/

/-- What follows the volume of a clean path is its own normal form. -/
theorem normalForm_tail_of_clean (hclean : windows.clean p = p) (hplain : IsPlain p)
    (hbare : ¬ IsBareShare p) : windows.normalForm (windows.tail p) = windows.tail p := by
  have hparts : windows.volumeName p ++ windows.normalForm (windows.tail p) = p := by
    rw [← clean_of_plain hplain hbare, hclean]
  have hvolume : windows.volume (windows.volumeName p ++ windows.normalForm (windows.tail p)) =
      windows.volume p := by rw [hparts]
  have htail := (volumeName_append hvolume).2
  rw [hparts] at htail
  exact htail.symm

/-- A text that does not start with two separators and has no colon has no volume. -/
theorem volume_of_colon_notMem (hcolon : ':' ∉ t) (hdouble : ¬ windows.DoublyRooted t) :
    windows.volume t = .none := by
  cases hvol : windows.volume t with
  | none => rfl
  | drive =>
      obtain ⟨c, rest, rfl, -⟩ := volume_eq_drive_iff.1 hvol
      exact absurd (by simp) hcolon
  | share n => exact absurd hvol (volume_ne_share hdouble n)

/-- The directory of a clean plain path is its directory part, cleaned. -/
theorem dirname_of_plain (hplain : IsPlain p)
    (hnormal : windows.normalForm (windows.tail p) = windows.tail p) :
    windows.dirname p = windows.clean (windows.split p).1 := by
  by_cases hvol : windows.volume p = .none
  · exact dirname_of_none hvol
  · have hbegins := directoryTail_isPrefix windows p
    have hvolume : windows.volume (windows.tail p) = .none := by
      apply volume_of_colon_notMem hplain.no_colon
      rw [← hnormal]
      exact not_doublyRooted_normalForm (windows.tail p)
    rw [dirname_eq_clean_iff hvol]
    apply clean_of_no_volume
    · exact volume_eq_none_of_isPrefix hvolume hbegins
    · exact fun hm => hplain.no_colon (hbegins.subset hm)
    · exact fun hm => hplain.no_mark_tail (hbegins.subset hm)

/-- The directory part of a plain path is plain. -/
theorem isPlain_directory (h : IsPlain p) : IsPlain (windows.split p).1 := by
  obtain ⟨hvolume, -, htail⟩ := directory_parts p
  have hbegins : (windows.split p).1 <+: p := ⟨_, split_append windows p⟩
  refine ⟨?_, ?_, ?_⟩
  · intro hm
    rw [hvolume]
    exact h.drive_of_colon (hbegins.subset hm)
  · rw [htail]
    exact fun hm => h.no_colon ((directoryTail_isPrefix windows p).subset hm)
  · exact fun hm => h.no_mark (hbegins.subset hm)

/-- Only the directory part of a bare share is a bare share. -/
theorem not_isBareShare_directory (h : ¬ IsBareShare p) : ¬ IsBareShare (windows.split p).1 := by
  obtain ⟨hvolume, -, htail⟩ := directory_parts p
  rintro ⟨hshare, hnil⟩
  rw [hvolume] at hshare
  rw [htail] at hnil
  rcases isRooted_tail_of_share hshare with hempty | hroot
  · exact h ⟨hshare, hempty⟩
  · rw [← isRooted_beforeLastRun, ← directoryTail, hnil] at hroot
    cases hroot

/-! ## Joining -/

/-- A text joined to a cleaned POSIX path goes on from its elements. -/
theorem join_clean_posix (p r : Text) :
    posix.join [posix.clean p, r] = posix.writeElements (posix.isRooted p)
      (resolve (posix.isRooted p) (posix.resolvedElements p ++ posix.elements r)) := by
  have hne : posix.clean p ≠ [] := by
    rw [clean_posix]
    exact normalForm_ne_nil posix p
  rw [join_posix (List.find?_cons_of_pos (by simpa using hne)), List.flatMap_cons,
    List.flatMap_singleton, clean_posix, isRooted_normalForm, elements_normalForm]

theorem join_dirname_basename_posix (hclean : posix.clean p = p) :
    posix.join [posix.dirname p, posix.basename p] = p := by
  have hnormal : posix.normalForm (posix.tail p) = posix.tail p := by
    rw [clean_posix] at hclean
    exact hclean
  rw [dirname_of_none (volume_posix p), join_clean_posix, elements_basename hnormal]
  exact (writeElements_cut posix p).trans hnormal

theorem join_dirname_basename_windows (hclean : windows.clean p = p) (hplain : IsPlain p)
    (hbare : ¬ IsBareShare p) :
    windows.join [windows.dirname p, windows.basename p] = p := by
  have hnormal := normalForm_tail_of_clean hclean hplain hbare
  obtain ⟨-, hname, htail⟩ := directory_parts p
  have hcolon : ':' ∉ windows.basename p := notMem_basename hnormal (by decide) hplain.no_colon
  have hmark : '?' ∉ windows.basename p :=
    notMem_basename hnormal (by decide) hplain.no_mark_tail
  calc windows.join [windows.dirname p, windows.basename p]
      = windows.join [windows.clean (windows.split p).1, windows.basename p] := by
        rw [dirname_of_plain hplain hnormal]
    _ = windows.volumeName p ++ windows.normalForm (windows.tail p) := by
        rw [join_clean_of_plain (isPlain_directory hplain) hcolon hmark,
          startsAtRoot_of_not_bareShare (not_isBareShare_directory hbare), hname, htail,
          elements_basename hnormal]
        exact congrArg _ (writeElements_cut windows (windows.tail p))
    _ = p := by rw [← clean_of_plain hplain hbare, hclean]

/-- The directory and the base name of a clean path joined give the path back. Under the Windows
dialect the path is no bare share, has a colon in its drive at most, and has no question mark. -/
theorem join_dirname_basename (hclean : d.clean p = p)
    (hplain : d = .windows → IsPlain p ∧ ¬ IsBareShare p) :
    d.join [d.dirname p, d.basename p] = p := by
  cases d with
  | posix => exact join_dirname_basename_posix hclean
  | windows =>
      obtain ⟨hmarks, hbare⟩ := hplain rfl
      exact join_dirname_basename_windows hclean hmarks hbare

/-- A way up from the current directory of a drive. -/
theorem join_dirname_basename_drive :
    windows.clean "c:..\\..".toList = "c:..\\..".toList ∧
      (IsPlain "c:..\\..".toList ∧ ¬ IsBareShare "c:..\\..".toList) ∧
      windows.dirname "c:..\\..".toList = "c:..".toList ∧
      windows.basename "c:..\\..".toList = "..".toList ∧
      windows.join ["c:..".toList, "..".toList] = "c:..\\..".toList := by
  have hclean : windows.clean "c:..\\..".toList = "c:..\\..".toList := by decide
  have hplain : IsPlain "c:..\\..".toList ∧ ¬ IsBareShare "c:..\\..".toList := by decide
  have hdir : windows.dirname "c:..\\..".toList = "c:..".toList := by decide
  have hbase : windows.basename "c:..\\..".toList = "..".toList := by decide
  have hjoin := join_dirname_basename hclean fun _ => hplain
  rw [hdir, hbase] at hjoin
  exact ⟨hclean, hplain, hdir, hbase, hjoin⟩

end Dialect

end PathAlgebra
