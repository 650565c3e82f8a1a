import PathAlgebra.Proofs.CursorSteps
import PathAlgebra.Proofs.PathParts

/-!
# Taking a rooted path apart

A path that is a volume and names behind it, each with a separator in front, is taken apart in
several ways: it is cleaned, split behind or in front of its last separator, its directory and its
base name are read, and a cursor walks over it. All of them cut it at the same places
(`decompositions_agree`). The last separator is found behind the volume (`RootedAs.split_eq`), the
names before the last are cleaned without their volume, and no guard is put in front of them
(`clean_trail_concat`), and the cursor counts the names (`RootedAs.iterate_state`).
-/

set_option autoImplicit false

namespace PathAlgebra

open Dialect

/-! ## Cleaning a directory -/

namespace Dialect

variable {d : Dialect} {es : List Text}

/-- A separator with a name or nothing behind it starts no volume. -/
theorem volume_trail_concat (hes : ∀ e ∈ es, IsElement windows e) :
    windows.volume (windows.trail es ++ [windows.sep]) = .none := by
  cases es with
  | nil => rfl
  | cons e es =>
      have he := hes e List.mem_cons_self
      rw [trail_cons, List.cons_append, List.append_assoc]
      refine volume_cons_eq_none (fun halpha => by cases halpha) ?_
      rintro ⟨-, hsecond⟩
      rw [List.tail_cons] at hsecond
      -- The name would start with a separator.
      cases e with
      | nil => exact he.ne_nil rfl
      | cons c e =>
          have hc := he.no_sep c List.mem_cons_self
          have hsep : windows.isSep c = true := hsecond
          rw [hc] at hsep
          cases hsep

/-- Names with a separator behind them are cleaned to the names, without a guard. -/
theorem clean_trail_concat (hes : ∀ e ∈ es, IsElement d e) (hup : parentElement ∉ es) :
    d.clean (d.trail es ++ [d.sep]) = d.spell true es := by
  have hroot := isRooted_trail_concat d es
  have helements : d.elements (d.trail es ++ [d.sep]) = es := by
    rw [elements_append_sep (isSep_sep d), elements_trail hes, elements_nil, List.append_nil]
  have hresolved : d.resolvedElements (d.trail es ++ [d.sep]) = es := by
    rw [resolvedElements, helements, hroot]
    exact (resolved_of_notMem hup).resolve_eq
  have hspell : d.spell true es ≠ [] := by simp [spell]
  have hnormal : d.normalForm (d.trail es ++ [d.sep]) = d.spell true es := by
    rw [normalForm_eq, hroot, hresolved, writeElements_of_ne_nil hspell]
  cases d with
  | posix => rw [clean_posix, hnormal]
  | windows =>
      have hvol := volume_trail_concat hes
      have htail := tail_eq_self hvol
      have hbegins : windows.spell true es <+: windows.trail es ++ [windows.sep] := by
        by_cases hnil : es = []
        · rw [hnil]
          exact List.prefix_refl _
        · rw [spell_eq_trail hnil]
          exact List.prefix_append _ _
      -- The names are written as they stand there, so the overlay shares them.
      have hshared : (windows.sweep (windows.trail es ++ [windows.sep])).diverged = false := by
        rw [sweep_eq, htail, hroot, hresolved, if_neg hspell]
        apply swept_shared_of_isPrefix
        · rw [htail, helements, hresolved]
        · rw [htail, hroot, hresolved]
          exact hbegins
      rw [clean_eq_guarded (by simp) (volumeLength_eq_zero_iff.2 hvol), hshared, hnormal]
      rfl

theorem trail_concat_ends (d : Dialect) (es : List Text) :
    ∀ c ∈ (d.trail es ++ [d.sep]).getLast?, d.isSep c = true := by
  intro c hc
  rw [List.getLast?_concat] at hc
  rw [← Option.some.inj hc]
  exact isSep_sep d

/-- A path that does not end with a separator is trimmed to itself. -/
theorem trimEnd_eq_self {p : Text} {c : Char} (hlast : p.getLast? = some c)
    (hc : d.isSep c = false) : d.trimEnd p = p := by
  obtain ⟨u, rfl⟩ := List.getLast?_eq_some_iff.1 hlast
  rw [trimEnd, List.reverse_append, List.reverse_singleton, List.singleton_append,
    List.dropWhile_cons_of_neg (by simp [hc]), List.reverse_cons, List.reverse_reverse]

end Dialect

/-! ## The parts of a rooted path -/

namespace RootedAs

variable {d : Dialect} {v s p : Text} {ss : List Text}

theorem last (h : RootedAs d v (ss ++ [s]) p) : IsElement d s := h.elements s (by simp)

/-- The last name stands behind a separator. -/
theorem text_concat (h : RootedAs d v (ss ++ [s]) p) : p = v ++ (d.trail ss ++ [d.sep] ++ s) := by
  obtain ⟨u, htext, hu⟩ := h.exists_end
  have hend : u = [] := hu.resolve_right fun hnil => by simp at hnil
  rw [htext, hend]
  simp

theorem take_volume (h : RootedAs d v (ss ++ [s]) p) : p.take (d.volumeLength p) = v := by
  rw [h.volumeLength_eq]
  conv_lhs => rw [h.text_concat]
  exact List.take_left

theorem tail_concat (h : RootedAs d v (ss ++ [s]) p) :
    d.tail p = d.trail ss ++ [d.sep] ++ s := by
  rw [tail, h.volumeLength_eq]
  conv_lhs => rw [h.text_concat]
  exact List.drop_left

theorem lastRun_tail (h : RootedAs d v (ss ++ [s]) p) : (d.tail p).lastRun d.isSep = s := by
  rw [h.tail_concat]
  exact Text.lastRun_append (trail_concat_ends d ss) h.last.no_sep

theorem beforeLastRun_tail (h : RootedAs d v (ss ++ [s]) p) :
    (d.tail p).beforeLastRun d.isSep = d.trail ss ++ [d.sep] := by
  rw [h.tail_concat]
  exact Text.beforeLastRun_append (trail_concat_ends d ss) h.last.no_sep

/-- The path is split behind its last separator. -/
theorem split_eq (h : RootedAs d v (ss ++ [s]) p) :
    d.split p = (v ++ d.trail ss ++ [d.sep], s) := by
  rw [split, h.take_volume, h.beforeLastRun_tail, h.lastRun_tail, List.append_assoc]

theorem splitAbs_eq (h : RootedAs d v (ss ++ [s]) p) : d.splitAbs p = (v ++ d.trail ss, s) := by
  rw [splitAbs, h.split_eq, List.dropLast_concat]

/-- The directory is the volume with the names before the last, or its root. -/
theorem dirname_eq (h : RootedAs d v (ss ++ [s]) p) : d.dirname p = v ++ d.spell true ss := by
  have hclean : d.clean (d.trail ss ++ [d.sep]) = d.spell true ss :=
    clean_trail_concat (fun e he => h.elements e (List.mem_append_left _ he))
      fun hup => h.no_parent (List.mem_append_left _ hup)
  have hdot : d.spell true ss ≠ ['.'] := by
    have hfirst : d.sep ≠ '.' := by cases d <;> decide
    intro heq
    exact hfirst (List.cons.inj heq).1
  rw [dirname, h.beforeLastRun_tail, hclean, h.volumeName_eq, if_neg fun hshare => hdot hshare.1]

/-- The base name is the last name. -/
theorem basename_eq (h : RootedAs d v (ss ++ [s]) p) : d.basename p = s := by
  have hs := h.last
  obtain ⟨c, hlast⟩ : ∃ c, s.getLast? = some c := by
    cases hcase : s.getLast? with
    | none => exact absurd (List.getLast?_eq_none_iff.1 hcase) hs.ne_nil
    | some c => exact ⟨c, rfl⟩
  have hend : p.getLast? = some c := by
    rw [h.text_concat, List.getLast?_append, List.getLast?_append, hlast]
    rfl
  have hp : p ≠ [] := by
    rintro rfl
    cases hend
  rw [basename, if_neg hp, trimEnd_eq_self hend (hs.no_sep c (List.mem_of_getLast? hlast)),
    h.lastRun_tail]
  cases s with
  | nil => exact absurd rfl hs.ne_nil
  | cons x s => rfl

/-- A new cursor moved on a number of times has a next part while names are left, and is on the last
part exactly when it has passed all names. -/
theorem iterate_state {es : List Text} (h : RootedAs d v es p) (hes : es ≠ []) (n : Nat) :
    (Cursor.next^[n] (Cursor.ofPath d p)).hasNext = decide (n < es.length) ∧
      (Cursor.next^[n] (Cursor.ofPath d p)).isLast = decide (n = es.length) := by
  have hsplit (n : Nat) : es.take n ++ es.drop n ≠ [] := by rwa [List.take_append_drop]
  rcases Nat.lt_or_ge n es.length with hn | hn
  · -- The next name is ahead.
    have hstands := Cursor.iterate_stands h (Nat.le_of_lt hn)
    rw [hstands.hasNext_eq, hstands.isLast_eq (hsplit n), List.drop_eq_getElem_cons hn,
      decide_eq_true hn, decide_eq_false (Nat.ne_of_lt hn)]
    exact ⟨rfl, rfl⟩
  · -- The last name ends the path, and further steps go on behind it.
    obtain ⟨m, rfl⟩ := Nat.exists_eq_add_of_le' hn
    have hstands := Cursor.iterate_stands h (Nat.le_refl es.length)
    have hmore := hstands.hasNext_eq
    have hend := hstands.isLast_eq (hsplit es.length)
    rw [List.drop_length] at hmore hend
    have hstop : (Cursor.next^[es.length] (Cursor.ofPath d p)).stop = p.length := by
      rw [Cursor.isLast, (Cursor.iterate_path _ _).2] at hend
      exact eq_of_beq hend
    obtain ⟨hbehind, hbehindStop⟩ := Cursor.iterate_behind hmore (by omega) m
    rw [← Function.iterate_add_apply] at hbehind hbehindStop
    rw [hbehind, Cursor.isLast, hbehindStop, hstop, (Cursor.iterate_path _ _).2]
    refine ⟨(decide_eq_false (by omega)).symm, ?_⟩
    have hpath : (Cursor.ofPath d p).path = p := rfl
    rw [hpath, Bool.beq_eq_decide_eq, decide_eq_decide]
    omega

end RootedAs

/-- On a volume and names, each with a separator in front, all ways to take the path apart agree.
The path is clean. A cursor over it is on each name in turn, on the last part exactly at the last
name, and has no part behind it. The base name is the last name, and the path is split around the
separator in front of it. The directory ends before that separator, or with it if there is no other
name. -/
theorem decompositions_agree {d : Dialect} {v s p : Text} {ss : List Text}
    (hvolume : d.volumeName p = v) (hp : p = v ++ d.trail (ss ++ [s]))
    (hnames : ∀ e ∈ ss ++ [s], IsElement d e ∧ e ≠ parentElement) :
    d.clean p = p ∧
      (∀ n, (Cursor.next^[n] (Cursor.ofPath d p)).hasNext = decide (n < ss.length + 1) ∧
        (Cursor.next^[n] (Cursor.ofPath d p)).isLast = decide (n = ss.length + 1) ∧
        ∀ e, (ss ++ [s])[n]? = some e → (Cursor.next^[n + 1] (Cursor.ofPath d p)).part = e) ∧
      d.basename p = s ∧
      d.split p = (v ++ d.trail ss ++ [d.sep], s) ∧
      d.splitAbs p = (v ++ d.trail ss, s) ∧
      d.dirname p = if ss = [] then v ++ [d.sep] else v ++ d.trail ss := by
  have h : RootedAs d v (ss ++ [s]) p := by
    refine ⟨hvolume, fun e he => (hnames e he).1, fun hup => (hnames _ hup).2 rfl, .inl ?_⟩
    rw [spell_eq_trail (by simp)]
    exact hp
  refine ⟨h.clean_eq, fun n => ?_, h.basename_eq, h.split_eq, h.splitAbs_eq, ?_⟩
  · obtain ⟨hmore, hlast⟩ := h.iterate_state (by simp) n
    rw [List.length_append] at hmore hlast
    refine ⟨hmore, hlast, fun e he => ?_⟩
    obtain ⟨hn, rfl⟩ := List.getElem?_eq_some_iff.1 he
    exact (Cursor.iterate_onPart h hn).part_eq
  · rw [h.dirname_eq]
    split
    · next hnil =>
      rw [hnil]
      rfl
    · next hne => rw [spell_eq_trail hne]

/-- Names that look like a device mark and like a drive are names like any other. -/
theorem decompositions_agree_marks :
    windows.clean "c:\\??\\d:".toList = "c:\\??\\d:".toList ∧
      (Cursor.next^[2] (Cursor.ofPath windows "c:\\??\\d:".toList)).part = "d:".toList ∧
      (Cursor.next^[2] (Cursor.ofPath windows "c:\\??\\d:".toList)).isLast = true ∧
      windows.basename "c:\\??\\d:".toList = "d:".toList ∧
      windows.split "c:\\??\\d:".toList = ("c:\\??\\".toList, "d:".toList) ∧
      windows.dirname "c:\\??\\d:".toList = "c:\\??".toList := by
  have hvolume : windows.volumeName "c:\\??\\d:".toList = "c:".toList := by decide
  have hp : "c:\\??\\d:".toList =
      "c:".toList ++ windows.trail (["??".toList] ++ ["d:".toList]) := by decide
  have hnames : ∀ e ∈ ["??".toList] ++ ["d:".toList],
      IsElement windows e ∧ e ≠ parentElement := by decide
  obtain ⟨hclean, hcursor, hbase, hsplit, -, hdir⟩ := decompositions_agree hvolume hp hnames
  exact ⟨hclean, (hcursor 1).2.2 _ rfl, (hcursor 2).2.1, hbase, hsplit, hdir⟩

end PathAlgebra
