import PathAlgebra.Proofs.CursorSteps

/-!
# Runs of a cursor

A cursor is run by steps, restarts and replacements of the part that it is on (`Cursor.Reached`).
Replacing a part makes a path that is anchored and clean again (`OnPart.anchored_pathWith`), and
leaves the cursor standing: in front of all the names of the new path if it starts over
(`OnPart.restarted`), and otherwise behind the names it has passed, which the new path has kept,
with at least one name ahead (`OnPart.rewound`). So every run keeps the cursor on a clean anchored
path, and on the bounds of a part whenever it is on one (`run_consistent`); the history of a run
leaves no other trace (`Reached.exists_iterate`).

A replacement neither skips nor repeats a component (`replacePart_skips_nothing`). Under the POSIX
dialect the new path has the components passed so far, unless the replacement is absolute, then the
elements of the replacement and the components behind the part, resolved together.
-/

set_option autoImplicit false

namespace PathAlgebra

open Dialect

namespace Cursor

variable {c : Cursor} {d : Dialect} {v e p q : Text} {before after : List Text}

/-! ## Replacing a part -/

/-- A replacement starts over, or goes back to in front of the part. -/
theorem replacePart_cases (c : Cursor) (q : Text) :
    c.replacePart q = (({ c with path := c.pathWith q } : Cursor).reset, true) ∨
      (c.start < (c.pathWith q).length ∧ (c.pathWith q).take c.start = c.left) ∧
        c.replacePart q = ({ c with path := c.pathWith q, stop := c.start - 1 }, false) := by
  rw [replacePart]
  split
  · exact .inl rfl
  · next hkept =>
    obtain ⟨hlong, hleft⟩ := not_or.1 hkept
    exact .inr ⟨⟨Nat.lt_of_not_le hlong, not_not.1 hleft⟩, rfl⟩

theorem replacePart_path (c : Cursor) (q : Text) : (c.replacePart q).1.path = c.pathWith q := by
  rcases c.replacePart_cases q with hcase | ⟨-, hcase⟩
  · rw [hcase]
    rfl
  · rw [hcase]

namespace OnPart

theorem volumeName_eq (h : c.OnPart v before e after) : c.dialect.volumeName c.path = v :=
  h.rooted.volumeName_eq

theorem elements_eq (h : c.OnPart v before e after) :
    c.dialect.elements (c.dialect.tail c.path) = before ++ e :: after := by
  rw [h.rooted.elements_tail]
  simp

theorem elements_before (h : c.OnPart v before e after) : ∀ f ∈ before, IsElement c.dialect f :=
  fun f hf => h.rooted.elements f (by simp [hf])

theorem elements_after (h : c.OnPart v before e after) : ∀ f ∈ after, IsElement c.dialect f :=
  fun f hf => h.rooted.elements f (by simp [hf])

/-- The path before the part is anchored like the whole path, with something behind its volume. -/
theorem anchored_left (h : c.OnPart v before e after) (hroot : c.dialect.Anchored c.path) :
    c.dialect.volumeName c.left = v ∧
      c.dialect.tail c.left = c.dialect.trail before ++ [c.dialect.sep] ∧
      c.dialect.Anchored c.left := by
  have hname := hroot.name_append (isRooted_trail_concat c.dialect before)
  rw [h.volumeName_eq, ← List.append_assoc, ← h.left_eq] at hname
  exact hname

theorem tail_left_ne_nil (h : c.OnPart v before e after) (hroot : c.dialect.Anchored c.path) :
    c.dialect.tail c.left ≠ [] := by
  rw [(h.anchored_left hroot).2.1]
  simp

/-- The path with a part replaced is anchored and clean. -/
theorem anchored_pathWith (h : c.OnPart v before e after) (hroot : c.dialect.Anchored c.path)
    (hq : c.dialect = .windows → isReservedName q = false) :
    c.dialect.Anchored (c.pathWith q) ∧
      c.dialect.clean (c.pathWith q) = c.pathWith q := by
  rw [pathWith]
  split
  · next habs =>
    have hfirst : c.dialect.Anchored q := ⟨habs, hq⟩
    exact (hfirst.concat [c.right]).join
  · obtain ⟨-, -, hleft⟩ := h.anchored_left hroot
    exact (hleft.concat _).join

/-- A cursor that starts over stands in front of all the names of the new path. -/
theorem restarted (h : c.OnPart v before e after) (hroot : c.dialect.Anchored c.path)
    (hq : c.dialect = .windows → isReservedName q = false) :
    ({ c with path := c.pathWith q } : Cursor).reset.Stands (c.dialect.volumeName (c.pathWith q)) []
      (c.dialect.elements (c.dialect.tail (c.pathWith q))) := by
  obtain ⟨hanchored, hclean⟩ := h.anchored_pathWith hroot hq
  exact stands_reset (c := { c with path := c.pathWith q }) (hanchored.rootedAs_of_clean hclean)

/-- A cursor that does not start over stands behind the names that it has passed, which the new path
has too, and there is a name ahead. -/
theorem rewound (h : c.OnPart v before e after) (hroot : c.dialect.Anchored c.path)
    (hq : c.dialect = .windows → isReservedName q = false)
    (hlong : c.start < (c.pathWith q).length) (hleft : (c.pathWith q).take c.start = c.left) :
    ∃ ahead, ahead ≠ [] ∧ ({ c with path := c.pathWith q, stop := c.start - 1 } : Cursor).Stands
      v before ahead := by
  obtain ⟨hanchored, hclean⟩ := h.anchored_pathWith hroot hq
  have hrooted := hanchored.rootedAs_of_clean hclean
  generalize c.pathWith q = path at hlong hleft hrooted
  obtain ⟨hname, htail, hanchoredLeft⟩ := h.anchored_left hroot
  have hne := h.tail_left_ne_nil hroot
  -- The new path goes on behind what was left of the part, so it has the same volume.
  obtain ⟨rest, hrest, hpath⟩ : ∃ rest, rest ≠ [] ∧ path = c.left ++ rest := by
    refine ⟨path.drop c.start, ?_, ?_⟩
    · rwa [Ne, List.drop_eq_nil_iff, Nat.not_le]
    · rw [← hleft, List.take_append_drop]
  have hvolume : c.dialect.volumeName path = v := by
    have hbegins : c.left <+: path := ⟨rest, hpath.symm⟩
    rw [← hname]
    exact volumeName_eq_of_isPrefix hbegins (volume_of_isPrefix hanchoredLeft hne hbegins)
  rw [hvolume] at hrooted
  have hcut : path = v ++ (c.dialect.trail before ++ c.dialect.sep :: rest) := by
    rw [hpath, h.left_eq]
    simp
  have helements : c.dialect.elements (c.dialect.tail path) =
      before ++ c.dialect.elements rest := by
    have hdrop : c.dialect.tail path = c.dialect.trail before ++ c.dialect.sep :: rest := by
      rw [tail, hrooted.volumeLength_eq, hcut, List.drop_left]
    rw [hdrop, elements_append_sep (isSep_sep _), elements_trail h.elements_before]
  rw [helements] at hrooted
  refine ⟨c.dialect.elements rest, ?_, hrooted, h.volumeLength_eq, ?_⟩
  -- Without a name ahead there would be nothing behind the separator.
  · intro hnil
    rw [hnil, List.append_nil] at hrooted
    obtain ⟨u, hend, hu⟩ := hrooted.exists_end
    have hsep := List.append_cancel_left (List.append_cancel_left (hcut.symm.trans hend))
    rcases hu with rfl | ⟨-, rfl⟩
    · cases hsep
    · exact hrest (List.cons.inj hsep).2
  · show (c.start : Int) - 1 = (v ++ c.dialect.trail before).length
    rw [h.start_eq]
    omega

/-- Under the POSIX dialect the new path has the elements of what is put together, resolved. -/
theorem elements_pathWith (h : c.OnPart v before e after) (hroot : c.dialect.Anchored c.path)
    (hposix : c.dialect = .posix) :
    posix.elements (c.pathWith q) =
      resolve true ((if posix.isAbs q then [] else before) ++ posix.elements q ++ after) := by
  have hright : posix.elements c.right = after := by
    rw [h.right_eq, ← hposix, elements_trail h.elements_after]
  have hwritten {es : List Text} {f : Text} (hf : posix.isRooted f = true)
      (hfind : es.find? (fun e => e ≠ []) = some f) :
      posix.elements (posix.join es) = resolve true (es.flatMap posix.elements) := by
    rw [join_posix hfind, hf, elements_writeElements]
    intro g hg
    obtain ⟨t, ht, hgt⟩ := List.mem_flatMap.1 (mem_of_mem_resolve hg)
    exact isElement_of_mem_elements hgt
  have hfirst {f : Text} (hf : posix.Anchored f) (es : List Text) :
      (f :: es).find? (fun e => e ≠ []) = some f :=
    List.find?_cons_of_pos (by simpa using hf.ne_nil)
  rw [pathWith, hposix]
  by_cases habs : posix.isAbs q = true
  · have hq : posix.Anchored q := ⟨habs, fun hd => by cases hd⟩
    rw [if_pos habs, if_pos habs, hwritten (anchored_posix_iff.1 hq) (hfirst hq _), List.nil_append,
      List.flatMap_cons, List.flatMap_singleton, hright]
  · obtain ⟨-, htail, hleft⟩ := h.anchored_left hroot
    rw [hposix] at htail hleft
    have hbefore : posix.elements c.left = before := by
      rw [← tail_posix c.left, htail, elements_append_sep (isSep_sep posix), elements_nil,
        List.append_nil]
      exact elements_trail (hposix ▸ h.elements_before)
    rw [if_neg habs, if_neg habs, hwritten (anchored_posix_iff.1 hleft) (hfirst hleft _),
      List.flatMap_cons, List.flatMap_cons, List.flatMap_singleton, hbefore, hright,
      List.append_assoc]

end OnPart

/-! ## Runs -/

/-- The cursors that a run over a path reaches, each with whether the last thing it did was a step
to a part. Only such a cursor has its part replaced, and under the Windows dialect not by a device
name. -/
inductive Reached (d : Dialect) (p : Text) : Cursor → Bool → Prop where
  | start : Reached d p (ofPath d p) false
  | next {c : Cursor} {on : Bool} : Reached d p c on → Reached d p c.next c.hasNext
  | reset {c : Cursor} {on : Bool} : Reached d p c on → Reached d p c.reset false
  | replacePart {c : Cursor} {q : Text} : Reached d p c true →
      (d = .windows → isReservedName q = false) → Reached d p (c.replacePart q).1 false

/-- What a run keeps: a clean anchored path, and a cursor that stands between its names or behind
them; after a step to a part, it is on one. -/
structure Tracked (d : Dialect) (c : Cursor) (on : Bool) : Prop where
  dialect_eq : c.dialect = d
  anchored : d.Anchored c.path
  clean_eq : d.clean c.path = c.path
  standing : (∃ v before after, c.Stands v before after) ∨ c.hasNext = false
  onPart : on = true → ∃ v before e after, c.OnPart v before e after

namespace Tracked

variable {on : Bool}

theorem rootedAs (h : Tracked d c on) :
    RootedAs c.dialect (d.volumeName c.path) (d.elements (d.tail c.path)) c.path := by
  rw [h.dialect_eq]
  exact h.anchored.rootedAs_of_clean h.clean_eq

theorem next (h : Tracked d c on) : Tracked d c.next c.hasNext := by
  have hpart : c.hasNext = true → ∃ v before e after, c.next.OnPart v before e after := by
    intro hmore
    rcases h.standing with ⟨v, before, after, hstands⟩ | hlast
    · cases after with
      | nil =>
          rw [hstands.hasNext_eq] at hmore
          cases hmore
      | cons e after => exact ⟨v, before, e, after, hstands.next⟩
    · rw [hlast] at hmore
      cases hmore
  refine ⟨h.dialect_eq, h.anchored, h.clean_eq, ?_, hpart⟩
  cases hmore : c.hasNext with
  | true =>
      obtain ⟨v, before, e, after, honPart⟩ := hpart hmore
      exact .inl ⟨v, before ++ [e], after, honPart.toStands⟩
  | false => exact .inr (hasNext_next hmore)

theorem reset (h : Tracked d c on) : Tracked d c.reset false where
  dialect_eq := h.dialect_eq
  anchored := h.anchored
  clean_eq := h.clean_eq
  standing := .inl ⟨_, [], _, stands_reset h.rootedAs⟩
  onPart := by simp

theorem replacePart (h : Tracked d c true) (hq : d = .windows → isReservedName q = false) :
    Tracked d (c.replacePart q).1 false := by
  obtain ⟨v, before, e, after, honPart⟩ := h.onPart rfl
  obtain ⟨rfl, hanchored, -, -, -⟩ := h
  obtain ⟨hroot, hclean⟩ := honPart.anchored_pathWith hanchored hq
  rcases c.replacePart_cases q with hcase | ⟨⟨hlong, hleft⟩, hcase⟩
  · rw [hcase]
    exact ⟨rfl, hroot, hclean, .inl ⟨_, _, _, honPart.restarted hanchored hq⟩, by simp⟩
  · obtain ⟨ahead, -, hstands⟩ := honPart.rewound hanchored hq hlong hleft
    rw [hcase]
    exact ⟨rfl, hroot, hclean, .inl ⟨v, before, ahead, hstands⟩, by simp⟩

end Tracked

/-- Every run from a clean anchored path keeps it. -/
theorem Reached.tracked {on : Bool} (hroot : d.Anchored p) (hclean : d.clean p = p)
    (h : Reached d p c on) : Tracked d c on := by
  induction h with
  | start =>
      exact ⟨rfl, hroot, hclean, .inl ⟨_, [], _, stands_ofPath (hroot.rootedAs_of_clean hclean)⟩,
        by simp⟩
  | next hrun ih => exact ih.next
  | reset hrun ih => exact ih.reset
  | replacePart hrun hq ih => exact ih.replacePart hq

/-- A cursor on a part that a run has reached is a new cursor over its path, moved on to the
part. -/
theorem Reached.exists_iterate (hroot : d.Anchored p) (hclean : d.clean p = p)
    (h : Reached d p c true) :
    ∃ k < (d.elements (d.tail c.path)).length, c = Cursor.next^[k + 1] (ofPath d c.path) := by
  have htracked := h.tracked hroot hclean
  obtain ⟨v, before, e, after, honPart⟩ := htracked.onPart rfl
  obtain ⟨rfl, -, -, -, -⟩ := htracked
  have helements := honPart.elements_eq
  have hk : before.length < (before ++ [e] ++ after).length := by simp
  refine ⟨before.length, by rw [helements]; simp, ?_⟩
  have hnew := iterate_onPart honPart.rooted hk
  have htake : (before ++ [e] ++ after).take before.length = before := by simp
  have hget : (before ++ [e] ++ after)[before.length] = e := by simp
  have hdrop : (before ++ [e] ++ after).drop (before.length + 1) = after :=
    List.drop_left' (by simp)
  rw [htake, hget, hdrop] at hnew
  obtain ⟨hdialect, hpath⟩ := iterate_path (ofPath c.dialect c.path) (before.length + 1)
  exact hnew.unique honPart hdialect.symm hpath.symm

/-! ## On every part -/

/-- What holds of a cursor on a part: the volume length is that of the path, the part stands behind
the volume between a separator and a separator or the end of the path, it has no separator itself,
and with the path on either side it makes up the path. -/
structure Consistent (c : Cursor) : Prop where
  volumeLength_eq : c.volumeLength = c.dialect.volumeLength c.path
  volumeLength_lt_start : c.volumeLength < c.start
  start_lt_stop : c.start < c.stop
  stop_le_length : c.stop ≤ c.path.length
  sep_before : c.path[c.start - 1]? = some c.dialect.sep
  sep_after : c.stop = c.path.length ∨ c.path[c.stop.toNat]? = some c.dialect.sep
  part_no_sep : ∀ x ∈ c.part, c.dialect.isSep x = false
  whole : c.left ++ c.part ++ c.right = c.path

theorem OnPart.consistent (h : c.OnPart v before e after) : c.Consistent := by
  have hpath := h.path_eq
  have hlength := congrArg List.length hpath
  rw [← List.append_assoc, List.length_append, h.length_leftPart] at hlength
  have hpos : 0 < e.length := List.length_pos_iff.2 h.element.ne_nil
  have hstart := h.start_eq
  have hvolume := h.volumeLength_eq
  refine ⟨?_, ?_, ?_, ?_, ?_, ?_, ?_, ?_⟩
  · rw [hvolume, h.rooted.volumeLength_eq]
  · rw [List.length_append] at hstart
    omega
  · rw [h.stop_eq_add]
    omega
  · rw [h.stop_eq_add]
    omega
  · rw [hpath, h.start_eq, Nat.add_sub_cancel, List.append_assoc]
    simp
  · cases after with
    | nil =>
        left
        rw [h.stop_eq_add, hlength]
        rfl
    | cons f after =>
        right
        rw [h.stop_eq_add, Int.toNat_natCast, hpath, ← List.append_assoc, ← h.length_leftPart,
          trail_cons]
        simp
  · rw [h.part_eq]
    exact h.element.no_sep
  · rw [h.left_eq, h.part_eq, h.right_eq, hpath, List.append_assoc]

/-- From a clean absolute path that is no device name, every run keeps the path absolute and clean,
and every step to a part leaves the cursor consistent. -/
theorem run_consistent {on : Bool} (habs : d.isAbs p = true) (hclean : d.clean p = p)
    (hdevice : d = .windows → isReservedName p = false) (h : Reached d p c on) :
    c.dialect = d ∧ d.isAbs c.path = true ∧ d.clean c.path = c.path ∧
      (on = true → c.Consistent) := by
  have htracked := h.tracked ⟨habs, hdevice⟩ hclean
  refine ⟨htracked.dialect_eq, htracked.anchored.1, htracked.clean_eq, fun hon => ?_⟩
  obtain ⟨v, before, e, after, honPart⟩ := htracked.onPart hon
  exact honPart.consistent

/-- A run over a share that replaces a part by a path that climbs to the root. -/
theorem run_consistent_share :
    ∃ c : Cursor, Reached windows "\\\\h\\s\\a\\b".toList c true ∧ c.part = "c".toList ∧
      c.path = "\\\\h\\s\\c\\b".toList ∧ windows.isAbs c.path = true ∧ c.Consistent := by
  have hfirst : Reached windows "\\\\h\\s\\a\\b".toList
      (ofPath windows "\\\\h\\s\\a\\b".toList).next true := by
    have hmore : (ofPath windows "\\\\h\\s\\a\\b".toList).hasNext = true := by decide
    exact hmore ▸ Reached.start.next
  have hrun := (hfirst.replacePart (q := "../..\\c".toList) (by decide)).next
  have hmore : ((ofPath windows "\\\\h\\s\\a\\b".toList).next.replacePart
      "../..\\c".toList).1.hasNext = true := by decide
  rw [hmore] at hrun
  obtain ⟨-, habs, -, hconsistent⟩ :=
    run_consistent (by decide) (by decide) (by decide) hrun
  exact ⟨_, hrun, by decide, by decide, habs, hconsistent rfl⟩

/-! ## Replacements skip nothing -/

/-- On the part of number `k` of a clean absolute path, a replacement that goes back leaves the
volume and the `k` parts before, and all later parts of the new path ahead, at least one; a
replacement that starts over leaves all parts of the new path ahead. Under the POSIX dialect the new
path has the parts before, unless the replacement is absolute, then the elements of the replacement
and the parts behind, resolved together. -/
theorem replacePart_skips_nothing {c' : Cursor} {again : Bool} {k : Nat} (habs : d.isAbs p = true)
    (hclean : d.clean p = p)
    (hdevice : d = .windows → isReservedName p = false ∧ isReservedName q = false)
    (hk : k < (d.elements (d.tail p)).length) (hc : c = Cursor.next^[k + 1] (ofPath d p))
    (hreplace : c.replacePart q = (c', again)) :
    (d.elements (d.tail p))[k]? = some c.part ∧
      (again = false →
        d.volumeName c'.path = d.volumeName p ∧
        (d.elements (d.tail c'.path)).take k = (d.elements (d.tail p)).take k ∧
        k < (d.elements (d.tail c'.path)).length ∧
        c'.remaining.1 = (d.elements (d.tail c'.path)).drop k) ∧
      (again = true → c'.remaining.1 = d.elements (d.tail c'.path)) ∧
      (d = .posix → posix.elements c'.path =
        resolve true ((if posix.isAbs q then [] else (posix.elements p).take k) ++
          posix.elements q ++ (posix.elements p).drop (k + 1))) := by
  have hroot : d.Anchored p := ⟨habs, fun hd => (hdevice hd).1⟩
  have honPart := iterate_onPart (hroot.rootedAs_of_clean hclean) hk
  have hdialect : c.dialect = d := hc ▸ (iterate_path _ _).1
  have hpath : c.path = p := hc ▸ (iterate_path _ _).2
  rw [← hc] at honPart
  subst hdialect
  subst hpath
  have hq : c.dialect = .windows → isReservedName q = false := fun hd => (hdevice hd).2
  refine ⟨?_, ?_, ?_, ?_⟩
  · rw [honPart.part_eq, List.getElem?_eq_getElem hk]
  · rintro rfl
    rcases c.replacePart_cases q with hcase | ⟨⟨hlong, hleft⟩, hcase⟩
    · rw [hreplace] at hcase
      exact absurd (congrArg Prod.snd hcase) (by simp)
    · obtain ⟨ahead, hahead, hstands⟩ := honPart.rewound hroot hq hlong hleft
      rw [hreplace] at hcase
      obtain rfl := (Prod.mk.inj hcase).1
      have helements : c.dialect.elements (c.dialect.tail (c.pathWith q)) =
          (c.dialect.elements (c.dialect.tail c.path)).take k ++ ahead :=
        hstands.rooted.elements_tail
      have hlength : ((c.dialect.elements (c.dialect.tail c.path)).take k).length = k :=
        List.length_take_of_le (Nat.le_of_lt hk)
      refine ⟨hstands.rooted.volumeName_eq, ?_, ?_, ?_⟩
      · rw [helements]
        exact List.take_left' hlength
      · have hpos := List.length_pos_iff.2 hahead
        rw [helements, List.length_append, hlength]
        omega
      · rw [hstands.remaining_eq, helements]
        exact (List.drop_left' hlength).symm
  · rintro rfl
    rcases c.replacePart_cases q with hcase | ⟨-, hcase⟩
    · rw [hreplace] at hcase
      obtain rfl := (Prod.mk.inj hcase).1
      exact (honPart.restarted hroot hq).remaining_eq
    · rw [hreplace] at hcase
      exact absurd (congrArg Prod.snd hcase) (by simp)
  · intro hposix
    have hnew : c'.path = c.pathWith q := by
      rw [← replacePart_path, hreplace]
    have helements := honPart.elements_pathWith (q := q) hroot hposix
    rw [hposix, tail_posix] at helements
    rw [hnew, helements]

/-- A link in the middle of a path on a drive, to a path that erases a part of its own. -/
theorem replacePart_skips_nothing_link :
    ∃ c c' : Cursor, c = Cursor.next^[2] (ofPath windows "C:\\a\\b\\c".toList) ∧
      c.replacePart "x/../y".toList = (c', false) ∧ c.part = "b".toList ∧
      c'.path = "C:\\a\\y\\c".toList ∧ c'.remaining.1 = ["y".toList, "c".toList] := by
  have hagain : ((Cursor.next^[2] (ofPath windows "C:\\a\\b\\c".toList)).replacePart
      "x/../y".toList).2 = false := by decide
  have hreplace : (Cursor.next^[2] (ofPath windows "C:\\a\\b\\c".toList)).replacePart
      "x/../y".toList = (((Cursor.next^[2] (ofPath windows "C:\\a\\b\\c".toList)).replacePart
        "x/../y".toList).1, false) := Prod.ext rfl hagain
  obtain ⟨-, hback, -, -⟩ := replacePart_skips_nothing (k := 1) (by decide) (by decide) (by decide)
    (by decide) rfl hreplace
  obtain ⟨-, -, -, hahead⟩ := hback rfl
  exact ⟨_, _, rfl, hreplace, by decide, by decide, hahead.trans (by decide)⟩

end Cursor

end PathAlgebra
