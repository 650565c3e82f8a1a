import PathAlgebra.Proofs.Directories
import PathAlgebra.Proofs.GlobRejection
import PathAlgebra.Proofs.Splitting

/-!
# How expansion descends

A directory part is read as a pattern of its own after a change at its end. Nothing and a bare drive
get a `.`, so they get longer; a root stays as it is; any other directory part loses its last
character (`directoryPattern_snd`). It needs expansion exactly when there is a special character
behind the volume and in front of the last character (`needsExpansion_directoryPattern`), and only in
the last of the three cases something stands there.

`stage` says what expansion does with one pattern. It has a guard that the running expansion does
without: a directory part that is the pattern again would be refused. Expansion goes on exactly where
the pattern is cut at its last separator with a special character between the volume and the cut, and
it goes on with all that stands in front of the cut (`stage_eq_expanding_iff`). So each pattern is
shorter than the one before it and has one separator less, and the guard never refuses anything.
Expansion with the guard and with a bound on its depth is the running expansion as soon as the bound
is greater than the number of separators (`globWithin_eq`).
-/

set_option autoImplicit false

namespace PathAlgebra

namespace Dialect

variable {d : Dialect} {source : Source} {p q dir file : Text} {c : Char}

/-! ## A directory part as a pattern -/

theorem length_eq_volumeLength_add (d : Dialect) (p : Text) :
    p.length = d.volumeLength p + (d.tail p).length := by
  have hle := volumeLength_le d p
  rw [tail, List.length_drop]
  omega

/-- A text ends as its part behind the volume does. -/
theorem getLast?_of_tail (h : d.tail dir ≠ []) : dir.getLast? = (d.tail dir).getLast? := by
  have hparts : dir.take (d.volumeLength dir) ++ d.tail dir = dir := List.take_append_drop _ _
  rw [← List.getLast?_append_of_ne_nil (dir.take (d.volumeLength dir)) h, hparts]

/-- A root has a separator at its end and nothing else behind the volume. -/
theorem isSepText_tail_iff (dir : Text) :
    windows.isSepText (windows.tail dir) = true ↔
      windows.volumeLength dir + 1 = dir.length ∧ dir.getLast?.any isSlash = true := by
  have hlength := length_eq_volumeLength_add windows dir
  cases htail : windows.tail dir with
  | nil =>
      rw [htail, List.length_nil] at hlength
      refine iff_of_false Bool.false_ne_true ?_
      rintro ⟨hone, -⟩
      omega
  | cons c t =>
      have hlast := getLast?_of_tail (by rw [htail]; exact List.cons_ne_nil c t)
      rw [htail, List.length_cons] at hlength
      rw [hlast, htail]
      cases t with
      | nil => exact ⟨fun h => ⟨hlength.symm, h⟩, fun h => h.2⟩
      | cons x t =>
          refine iff_of_false Bool.false_ne_true ?_
          rintro ⟨hone, -⟩
          rw [List.length_cons] at hlength
          omega

/-- Nothing stands behind a volume that is no share: the text is empty or a drive. -/
theorem tail_nil_unshared_iff (dir : Text) :
    windows.tail dir = [] ∧ (windows.volume dir).isShare = false ↔
      dir = [] ∨ windows.volumeLength dir = dir.length ∧ dir.length = 2 := by
  have hlength := length_eq_volumeLength_add windows dir
  rw [← List.length_eq_zero_iff, ← List.length_eq_zero_iff]
  cases hvol : windows.volume dir with
  | none =>
      have hzero := volumeLength_eq_zero_iff.2 hvol
      simp only [Volume.isShare, and_true]
      omega
  | drive =>
      have htwo : windows.volumeLength dir = 2 := by
        rw [volumeLength, hvol]
        rfl
      simp only [Volume.isShare, and_true]
      omega
  | share n =>
      -- A share has more than two characters.
      obtain ⟨u, rest, -, hu, -, rfl⟩ := volume_eq_share_iff.1 hvol
      have hlong : 2 < windows.volumeLength dir := by
        rw [volumeLength, hvol, Volume.length]
        cases hu
        simp only [List.length_cons, List.length_append]
        omega
      simp only [Volume.isShare, Bool.true_eq_false, and_false, false_iff]
      omega

/-- A directory part as a pattern gets a `.` when it is empty or a drive, stays as it is when it is
a root, and loses its last character otherwise. -/
theorem directoryPattern_snd (d : Dialect) (dir : Text) :
    (d.directoryPattern dir).2 =
      if d.tail dir = [] ∧ (d.volume dir).isShare = false then dir ++ ['.']
      else if d.isSepText (d.tail dir) = true then dir
      else dir.dropLast := by
  cases d with
  | posix =>
      match dir with
      | [] => rfl
      | [c] => by_cases hc : c = '/' <;> simp [directoryPattern, isSepText, isSep, sep, hc]
      | a :: b :: t => simp [directoryPattern, isSepText]
  | windows =>
      simp only [directoryPattern, isSepText_tail_iff, tail_nil_unshared_iff]
      by_cases hnil : dir = []
      · rw [hnil]
        rfl
      · simp only [hnil, false_or, ↓reduceIte]
        by_cases hroot : windows.volumeLength dir + 1 = dir.length ∧
            dir.getLast?.any isSlash = true
        · -- A root is longer than its volume, so it is no drive.
          rw [if_pos hroot, if_pos hroot, if_neg (by omega)]
        · rw [if_neg hroot, if_neg hroot]
          split <;> rfl

/-- A directory part needs expansion when there is a special character behind its volume and in
front of its last character. -/
theorem needsExpansion_directoryPattern (d : Dialect) (dir : Text) :
    d.needsExpansion (d.directoryPattern dir) = d.hasMeta (d.tail dir).dropLast := by
  have hlength := length_eq_volumeLength_add d dir
  cases d with
  | posix =>
      match dir with
      | [] => rfl
      | [c] =>
          by_cases hc : c = '/' <;>
            simp [directoryPattern, needsExpansion, hasMeta, sep, isMeta, hc]
      | a :: b :: t => simp [directoryPattern, needsExpansion]
  | windows =>
      have hdrop (hlen : (windows.tail dir).length ≤ 1) : (windows.tail dir).dropLast = [] := by
        rw [← List.length_eq_zero_iff, List.length_dropLast]
        omega
      simp only [directoryPattern]
      split
      · next hnil =>
        rw [hnil]
        rfl
      · next hnil =>
        split
        · next hroot =>
          rw [needsExpansion, hdrop (by omega), hroot.1, List.drop_length]
        · split
          · next hdrive =>
            rw [needsExpansion, hdrop (by omega), hdrive.1, List.drop_left]
            rfl
          · have hpos := List.length_pos_iff.2 hnil
            rw [needsExpansion, tail, List.dropLast_eq_take, List.dropLast_eq_take, List.drop_take,
              List.length_drop]
            by_cases hle : windows.volumeLength dir ≤ dir.length - 1
            · rw [min_eq_left hle, Nat.sub_right_comm]
            · -- A share that nothing follows leaves no character to read.
              have hend : dir.length - windows.volumeLength dir - 1 = 0 := by omega
              rw [min_eq_right (by omega), Nat.sub_self, hend, List.take_zero, List.take_zero]

/-! ## The cut of a pattern -/

/-- The directory part of a pattern has its volume, and behind it all up to the last separator. -/
theorem tail_split (d : Dialect) (p : Text) : d.tail (d.split p).1 = d.directoryTail p := by
  cases d with
  | posix => rfl
  | windows => exact (directory_parts p).2.2

theorem needsExpansion_directoryPart (d : Dialect) (p : Text) :
    d.needsExpansion (d.directoryPart p) = d.hasMeta (d.directoryTail p).dropLast := by
  rw [directoryPart, needsExpansion_directoryPattern, tail_split]

/-- Behind elements the directory part ends with a separator that is no root, and loses it. -/
theorem directoryPart_snd {u : Text} (hdir : d.directoryTail p = u ++ [c]) (hu : u ≠ []) :
    (d.directoryPart p).2 = p.take (d.volumeLength p) ++ u := by
  have htail : d.tail (d.split p).1 = u ++ [c] := (tail_split d p).trans hdir
  have hroot : d.isSepText (u ++ [c]) ≠ true := by
    cases u with
    | nil => exact absurd rfl hu
    | cons x u => cases u <;> exact Bool.false_ne_true
  have hsplit : (d.split p).1 = p.take (d.volumeLength p) ++ u ++ [c] := by
    rw [split, ← directoryTail, hdir, List.append_assoc]
  rw [directoryPart, directoryPattern_snd, htail, if_neg (by simp), if_neg hroot, hsplit,
    List.dropLast_concat]

/-- A pattern is another one, with a special character behind the volume, in front of a separator and
a text without separators. -/
structure Cut (d : Dialect) (p q file : Text) (c : Char) : Prop where
  text : p = q ++ c :: file
  isSep : d.isSep c = true
  no_sep : ∀ a ∈ file, d.isSep a = false
  special : d.hasMeta (q.drop (d.volumeLength p)) = true

/-- A directory part that needs expansion is cut off at the separator at its end. -/
theorem exists_cut (h : d.needsExpansion (d.directoryPart p) = true) :
    ∃ c, d.Cut p (d.directoryPart p).2 (d.split p).2 c := by
  rw [needsExpansion_directoryPart] at h
  rcases Text.beforeLastRun_cases d.isSep (d.tail p) with hdir | ⟨u, c, hdir, hc⟩
  · rw [directoryTail, hdir] at h
    cases h
  · have hmeta : d.hasMeta u = true := by
      rw [directoryTail, hdir, List.dropLast_concat] at h
      exact h
    have hu : u ≠ [] := by
      rintro rfl
      cases hmeta
    have hvolume : (p.take (d.volumeLength p)).length = d.volumeLength p :=
      List.length_take_of_le (volumeLength_le d p)
    rw [directoryPart_snd hdir hu]
    refine ⟨c, ?_, hc, fun a ha => Text.not_isSep_of_mem_lastRun ha, ?_⟩
    · calc p = (d.split p).1 ++ (d.split p).2 := (split_append d p).symm
        _ = p.take (d.volumeLength p) ++ (u ++ [c]) ++ (d.split p).2 := by rw [← hdir]; rfl
        _ = p.take (d.volumeLength p) ++ u ++ c :: (d.split p).2 := by simp
    · rw [List.drop_left' hvolume]
      exact hmeta

/-- A pattern can be cut in one way, at its last separator. -/
theorem Cut.directoryTail_eq (h : d.Cut p q file c) :
    d.directoryTail p = q.drop (d.volumeLength p) ++ [c] ∧ (d.split p).2 = file := by
  have hlt : d.volumeLength p < q.length := by
    by_contra hle
    have hspecial := h.special
    rw [List.drop_eq_nil_of_le (Nat.le_of_not_lt hle)] at hspecial
    cases hspecial
  have htail : d.tail p = (q.drop (d.volumeLength p) ++ [c]) ++ file := by
    rw [tail, List.append_assoc, List.singleton_append, ← List.drop_append_of_le_length hlt.le,
      ← h.text]
  have hend : ∀ a ∈ (q.drop (d.volumeLength p) ++ [c]).getLast?, d.isSep a = true := by
    simp [h.isSep]
  rw [directoryTail, split, htail]
  exact ⟨Text.beforeLastRun_append hend h.no_sep, Text.lastRun_append hend h.no_sep⟩

/-- A pattern with a cut has a directory part that needs expansion, and it is what is cut off. -/
theorem Cut.directoryPart_eq (h : d.Cut p q file c) :
    d.needsExpansion (d.directoryPart p) = true ∧ (d.directoryPart p).2 = q ∧
      (d.split p).2 = file := by
  obtain ⟨hdir, hfile⟩ := h.directoryTail_eq
  have hneeds : d.needsExpansion (d.directoryPart p) = true := by
    rw [needsExpansion_directoryPart, hdir, List.dropLast_concat]
    exact h.special
  obtain ⟨c', hcut⟩ := exists_cut hneeds
  have htext : (d.directoryPart p).2 ++ c' :: file = q ++ c :: file := by
    rw [← h.text, ← hfile, ← hcut.text]
  exact ⟨hneeds, (List.append_inj' htext rfl).1, hfile⟩

/-- What is cut off has one separator less. -/
theorem Cut.countP_sep (h : d.Cut p q file c) : p.countP d.isSep = q.countP d.isSep + 1 := by
  have hfile : file.countP d.isSep = 0 := by
    rw [List.countP_eq_zero]
    intro a ha
    rw [h.no_sep a ha]
    exact Bool.false_ne_true
  rw [h.text, List.countP_append, List.countP_cons_of_pos h.isSep, hfile]

theorem Cut.hasMeta (h : d.Cut p q file c) : d.hasMeta p = true := by
  obtain ⟨a, ha, hmeta⟩ := List.any_eq_true.1 h.special
  refine List.any_eq_true.2 ⟨a, ?_, hmeta⟩
  rw [h.text]
  exact List.mem_append_left _ (List.mem_of_mem_drop ha)

end Dialect

/-! ## One stage -/

/-- What expansion does with one pattern: it rejects it, looks it up as a path, matches the names in
a directory against a file part, refuses to expand the pattern again, or expands a directory part
and goes on with a file part. -/
inductive Stage where
  | rejected (e : Malformed)
  | lookup
  | listing (dir file : Text)
  | repeated
  | expanding (dir file : Text)
  deriving DecidableEq

namespace Dialect

/-- What expansion does with a pattern. A directory part that is the pattern again would be expanded
forever, so it is refused. -/
def stage (d : Dialect) (p : Text) : Stage :=
  match d.matchName p [] with
  | .error e => .rejected e
  | .ok _ =>
      if d.hasMeta p then
        let dir := d.directoryPattern (d.split p).1
        if d.needsExpansion dir then
          if dir.2 = p then .repeated else .expanding dir.2 (d.split p).2
        else .listing dir.2 (d.split p).2
      else .lookup

/-- Expansion in stages, at most a number of them inside one another. There is no result where that
number is too small. -/
def globWithin (d : Dialect) (source : Source) : Nat → Text → Option (Observed (List Text))
  | 0, _ => none
  | depth + 1, p =>
      match d.stage p with
      | .rejected e => some (.ofExcept (.error e))
      | .lookup => some ⟨.ok (if source.present p then [p] else []), [.lookup p]⟩
      | .listing dir file => some (d.expandIn source file dir)
      | .repeated => some (.ofExcept (.error ⟨some p⟩))
      | .expanding dir file =>
          (d.globWithin source depth dir).map fun dirs => dirs >>= d.expandInAll source file

variable {d : Dialect} {source : Source} {p q dir file : Text} {c : Char}

theorem stage_rejected (h : d.Rejects p []) : d.stage p = .rejected ⟨some p⟩ := by
  rw [stage, h]

theorem stage_plain (h : ¬ d.Rejects p []) (hmeta : d.hasMeta p = false) :
    d.stage p = .lookup := by
  obtain ⟨answer, hanswer⟩ := exists_answer h
  rw [stage, hanswer]
  simp [hmeta]

theorem stage_listed (h : ¬ d.Rejects p []) (hmeta : d.hasMeta p = true)
    (hdir : d.needsExpansion (d.directoryPart p) = false) :
    d.stage p = .listing (d.directoryPart p).2 (d.split p).2 := by
  obtain ⟨answer, hanswer⟩ := exists_answer h
  rw [directoryPart] at hdir ⊢
  rw [stage, hanswer]
  simp [hmeta, hdir]

/-- The directory part that needs expansion is shorter than the pattern, so it is not refused. -/
theorem stage_expanded (h : ¬ d.Rejects p []) (hmeta : d.hasMeta p = true)
    (hdir : d.needsExpansion (d.directoryPart p) = true) :
    d.stage p = .expanding (d.directoryPart p).2 (d.split p).2 := by
  obtain ⟨answer, hanswer⟩ := exists_answer h
  have hne : (d.directoryPart p).2 ≠ p := by
    intro heq
    have hlt := directoryPart_length_lt hdir
    rw [heq] at hlt
    exact Nat.lt_irrefl _ hlt
  rw [directoryPart] at hdir hne ⊢
  rw [stage, hanswer]
  simp [hmeta, hdir, hne]

/-- Expansion goes on with another pattern exactly where the pattern has a cut. -/
theorem stage_eq_expanding_iff :
    d.stage p = .expanding q file ↔ ¬ d.Rejects p [] ∧ ∃ c, d.Cut p q file c := by
  constructor
  · intro h
    induction p using expansion_induction (d := d) with
    | rejected p hp =>
        rw [stage_rejected hp] at h
        cases h
    | plain p hp hmeta =>
        rw [stage_plain hp hmeta] at h
        cases h
    | listed p hp hmeta hdir =>
        rw [stage_listed hp hmeta hdir] at h
        cases h
    | expanded p hp hmeta hdir _ =>
        rw [stage_expanded hp hmeta hdir] at h
        cases h
        exact ⟨hp, exists_cut hdir⟩
  · rintro ⟨hp, c, hcut⟩
    obtain ⟨hdir, hpart, hfile⟩ := hcut.directoryPart_eq
    rw [stage_expanded hp hcut.hasMeta hdir, hpart, hfile]

/-- Where expansion goes on, its result comes from that of the directory part. -/
theorem glob_of_expanding (h : d.stage p = .expanding q file) :
    d.glob source p = d.glob source q >>= d.expandInAll source file := by
  obtain ⟨hp, c, hcut⟩ := stage_eq_expanding_iff.1 h
  obtain ⟨hdir, hpart, hfile⟩ := hcut.directoryPart_eq
  rw [glob_expanded hp hcut.hasMeta hdir, hpart, hfile]

/-- Nothing is refused. -/
theorem stage_ne_repeated (d : Dialect) (p : Text) : d.stage p ≠ .repeated := by
  induction p using expansion_induction (d := d) with
  | rejected p hp =>
      rw [stage_rejected hp]
      exact Stage.noConfusion
  | plain p hp hmeta =>
      rw [stage_plain hp hmeta]
      exact Stage.noConfusion
  | listed p hp hmeta hdir =>
      rw [stage_listed hp hmeta hdir]
      exact Stage.noConfusion
  | expanded p hp hmeta hdir _ =>
      rw [stage_expanded hp hmeta hdir]
      exact Stage.noConfusion

/-! ## The whole descent -/

/-- Within one stage more than the pattern has separators, expansion comes to its result. -/
theorem globWithin_eq {depth : Nat} (h : p.countP d.isSep ≤ depth) :
    d.globWithin source (depth + 1) p = some (d.glob source p) := by
  rw [globWithin]
  induction p using expansion_induction (d := d) generalizing depth with
  | rejected p hp => rw [stage_rejected hp, glob_rejected hp]
  | plain p hp hmeta => rw [stage_plain hp hmeta, glob_plain hp hmeta]
  | listed p hp hmeta hdir => rw [stage_listed hp hmeta hdir, glob_listed hp hmeta hdir]
  | expanded p hp hmeta hdir ih =>
      obtain ⟨c, hcut⟩ := exists_cut hdir
      have hcount := hcut.countP_sep
      -- The separator of the cut pays for the stage.
      obtain ⟨rest, rfl⟩ : ∃ rest, depth = rest + 1 := ⟨depth - 1, by omega⟩
      have hinner : d.globWithin source (rest + 1) (d.directoryPart p).2 = _ := ih (by omega)
      rw [stage_expanded hp hmeta hdir, glob_expanded hp hmeta hdir]
      exact congrArg (Option.map _) hinner

theorem length_lt_of_expanding (h : d.stage p = .expanding q file) : q.length < p.length := by
  obtain ⟨-, c, hcut⟩ := stage_eq_expanding_iff.1 h
  obtain ⟨hdir, hpart, -⟩ := hcut.directoryPart_eq
  rw [← hpart]
  exact directoryPart_length_lt hdir

/-- The patterns that expansion goes on with, one after the other, come to an end. -/
theorem wellFounded_expanding (d : Dialect) :
    WellFounded fun q p => ∃ file, d.stage p = .expanding q file := by
  apply Subrelation.wf _ (measure List.length).wf
  rintro q p ⟨file, hstage⟩
  exact length_lt_of_expanding hstage

/-- As a pattern of its own a directory part can be as long as before, when it is a root, or longer,
when it is empty or a drive; but then nothing in it needs expansion. Expansion goes on with a
directory part exactly where the pattern is cut at its last separator behind a special character,
and there the directory part is strictly shorter than the pattern. So no pattern is refused for being
expanded again, no chain of directory parts goes on forever, and a stage for each separator of a
pattern, and one more, are enough to complete its expansion. -/
theorem glob_descends (d : Dialect) :
    (∀ dir, ((d.directoryPattern dir).2 =
        if d.tail dir = [] ∧ (d.volume dir).isShare = false then dir ++ ['.']
        else if d.isSepText (d.tail dir) = true then dir
        else dir.dropLast) ∧
      d.needsExpansion (d.directoryPattern dir) = d.hasMeta (d.tail dir).dropLast) ∧
    (∀ p q file, d.stage p = .expanding q file ↔
      ¬ d.Rejects p [] ∧ ∃ c, d.Cut p q file c) ∧
    (∀ p q file, d.stage p = .expanding q file → q.length < p.length ∧
      ∀ source, d.glob source p = d.glob source q >>= d.expandInAll source file) ∧
    (∀ p, d.stage p ≠ .repeated) ∧
    (WellFounded fun q p => ∃ file, d.stage p = .expanding q file) ∧
    (∀ source p depth, p.countP d.isSep ≤ depth →
      d.globWithin source (depth + 1) p = some (d.glob source p)) := by
  refine ⟨?_, ?_, ?_, stage_ne_repeated d, wellFounded_expanding d, ?_⟩
  · intro dir
    exact ⟨directoryPattern_snd d dir, needsExpansion_directoryPattern d dir⟩
  · intro p q file
    exact stage_eq_expanding_iff
  · intro p q file hstage
    exact ⟨length_lt_of_expanding hstage, fun source => glob_of_expanding hstage⟩
  · intro source p depth hdepth
    exact globWithin_eq hdepth

/-- Special characters of a share are no reason to go on. Those of a directory in it are, and then the
pattern gets shorter and its expansion ends. -/
theorem glob_descends_in_share :
    windows.stage "\\\\h\\s*\\x?".toList = .listing "\\\\h\\s*\\".toList "x?".toList ∧
      windows.stage "\\\\h\\s*\\a?\\x".toList =
        .expanding "\\\\h\\s*\\a?".toList "x".toList ∧
      "\\\\h\\s*\\a?".toList.length < "\\\\h\\s*\\a?\\x".toList.length ∧
      windows.globWithin (uniformSource []) 6 "\\\\h\\s*\\a?\\x".toList =
        some (windows.glob (uniformSource []) "\\\\h\\s*\\a?\\x".toList) := by
  obtain ⟨-, -, hshorter, -, -, hwithin⟩ := glob_descends .windows
  have hlisted : windows.stage "\\\\h\\s*\\x?".toList =
      .listing "\\\\h\\s*\\".toList "x?".toList := by decide +kernel
  have hexpanded : windows.stage "\\\\h\\s*\\a?\\x".toList =
      .expanding "\\\\h\\s*\\a?".toList "x".toList := by decide +kernel
  exact ⟨hlisted, hexpanded, (hshorter _ _ _ hexpanded).1, hwithin _ _ 5 (by decide)⟩

end Dialect

end PathAlgebra
