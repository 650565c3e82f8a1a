import PathAlgebra.Proofs.Cleaning

/-!
# Cleaned paths are shortest

Cleaning writes no more characters than it reads. An element takes the room of its characters and
one separator. Resolving leaves some of the elements and adds none, so resolved elements take no
more room than the elements of the path (`room_resolve_le`), and these no more than its characters
(`room_elements_le`). Hence the overlay never holds more characters than the path has behind its
volume, and a normal form is no longer than what it is the normal form of (`length_normalForm_le`).

Two POSIX paths are equivalent when they have the same cleaned path, so this is the shortest one of
all that are equivalent to it (`clean_shortest`).
-/

set_option autoImplicit false

namespace PathAlgebra

/-! ## The room of elements -/

/-- The number of characters of elements with a separator for each. -/
def room : List Text → Nat
  | [] => 0
  | e :: es => e.length + 1 + room es

@[simp] theorem room_nil : room [] = 0 := rfl

@[simp] theorem room_cons (e : Text) (es : List Text) :
    room (e :: es) = e.length + 1 + room es := rfl

/-- Elements that are left out leave room. -/
theorem room_le_of_sublist {es fs : List Text} (h : es.Sublist fs) : room es ≤ room fs := by
  induction h with
  | slnil => exact Nat.le_refl _
  | cons f _ ih =>
      rw [room_cons]
      omega
  | cons_cons e _ ih =>
      rw [room_cons, room_cons]
      omega

/-- Resolved elements take no more room than the elements before. -/
theorem room_resolve_le (rooted : Bool) (es : List Text) : room (resolve rooted es) ≤ room es :=
  room_le_of_sublist (resolve_sublist rooted es)

namespace Dialect

variable {d : Dialect} {p t : Text}

/-! ## The room of a text -/

/-- The runs of a text take its characters and the separator behind its last run. -/
theorem room_splitOnP (t : Text) : room (t.splitOnP d.isSep) = t.length + 1 := by
  induction t with
  | nil => rfl
  | cons c t ih =>
      rw [List.splitOnP_cons_eq_if_modifyHead]
      by_cases hc : d.isSep c = true
      · rw [if_pos hc, room_cons, ih, List.length_cons, List.length_nil]
        omega
      · rw [if_neg hc]
        obtain ⟨run, runs, hruns⟩ := List.exists_cons_of_ne_nil (List.splitOnP_ne_nil d.isSep t)
        rw [hruns, room_cons] at ih
        rw [hruns, List.modifyHead_cons, room_cons, List.length_cons, List.length_cons]
        omega

/-- The root of a text is a character of it. -/
theorem root_le_length (d : Dialect) (t : Text) : (if d.isRooted t then 1 else 0) ≤ t.length := by
  cases t with
  | nil => exact Nat.le_refl 0
  | cons c t =>
      rw [List.length_cons]
      split <;> omega

/-- The elements of a text take no more room than its characters and a separator behind them. The
root of a text stands in front of its elements. -/
theorem room_elements_le (d : Dialect) (t : Text) :
    (if d.isRooted t then 1 else 0) + room (d.elements t) ≤ t.length + 1 := by
  have hle (u : Text) : room (d.elements u) ≤ u.length + 1 := by
    rw [← room_splitOnP (d := d) u]
    exact room_le_of_sublist List.filter_sublist
  split
  · next hrooted =>
    cases t with
    | nil => cases hrooted
    | cons c t =>
        have ht := hle t
        rw [elements_sep_cons hrooted, List.length_cons]
        omega
  · have ht := hle t
    omega

theorem length_intercalate_add_one {c : Char} {es : List Text} (hes : es ≠ []) :
    ([c].intercalate es).length + 1 = room es := by
  induction es with
  | nil => exact absurd rfl hes
  | cons e es ih =>
      by_cases hnil : es = []
      · rw [hnil, List.intercalate_singleton, room_cons, room_nil]
      · have ih' := ih hnil
        rw [List.intercalate_cons_of_ne_nil hnil, List.length_append, List.length_append,
          List.length_singleton, room_cons]
        omega

/-- A spelling takes the root and the room of its elements, without the separator behind the last
one. -/
theorem length_spell_le_room (d : Dialect) (rooted : Bool) (es : List Text) :
    (d.spell rooted es).length ≤ (if rooted then 1 else 0) + (room es - 1) := by
  have hroot : (if rooted then [d.sep] else []).length = if rooted then 1 else 0 := by
    cases rooted <;> rfl
  rw [spell, List.length_append, hroot]
  by_cases hes : es = []
  · simp [hes]
  · have hlength := length_intercalate_add_one (c := d.sep) hes
    omega

/-- What is left of some elements of a text is spelled with no more characters than the text has. -/
theorem length_spell_resolve_le {es : List Text} (h : es.Sublist (d.elements t)) :
    (d.spell (d.isRooted t) (resolve (d.isRooted t) es)).length ≤ t.length := by
  have hspell := length_spell_le_room d (d.isRooted t) (resolve (d.isRooted t) es)
  have hresolve := room_resolve_le (d.isRooted t) es
  have hes := room_le_of_sublist h
  have helements := room_elements_le d t
  have hroot := root_le_length d t
  omega

/-- A normal form is no longer than the text. -/
theorem length_normalForm_le (d : Dialect) (ht : t ≠ []) :
    (d.normalForm t).length ≤ t.length := by
  rw [normalForm_eq, writeElements_eq]
  split
  · exact List.length_pos_iff.2 ht
  · exact length_spell_resolve_le (List.Sublist.refl _)

/-! ## The sweep -/

/-- The sweep of a path after some of its runs. -/
def sweepRuns (d : Dialect) (p : Text) (runs : List Text) : Sweep :=
  runs.foldl (d.sweepElement (d.isRooted (d.tail p))) (d.startSweep p)

theorem sweepRuns_spells {runs : List Text} (h : runs <+: (d.tail p).splitOnP d.isSep) :
    ∃ es, es.Sublist (d.elements (d.tail p)) ∧
      (d.sweepRuns p runs).out.Spells p (d.volumeLength p)
        (d.spell (d.isRooted (d.tail p)) (resolve (d.isRooted (d.tail p)) es)) := by
  have hsublist := h.sublist.filter fun e => e ≠ [] ∧ e ≠ ['.']
  have helement : ∀ e ∈ runs.filter fun e => e ≠ [] ∧ e ≠ ['.'], IsElement d e :=
    fun e he => isElement_of_mem_elements (hsublist.subset he)
  refine ⟨_, hsublist, ?_⟩
  rw [sweepRuns, foldl_sweepElement_filter]
  exact ((startSweep_follows d p).foldl helement).spells

/-- The overlay never holds more characters than the path has behind its volume. -/
theorem length_written_sweepRuns_le {runs : List Text} (h : runs <+: (d.tail p).splitOnP d.isSep) :
    (d.sweepRuns p runs).out.written.length ≤ (d.tail p).length := by
  obtain ⟨es, hes, hspells⟩ := sweepRuns_spells h
  rw [hspells.written_eq]
  exact length_spell_resolve_le hes

/-- A cleaned POSIX path is a shortest one of the paths with this cleaned path. Under both dialects
the overlay never holds more characters than the path has behind its volume, neither on the way nor
in the end, with the `.` for an empty result. -/
theorem clean_shortest :
    (∀ p : Text, posix.clean (posix.clean p) = posix.clean p ∧
      ∀ q : Text, q ≠ [] → posix.clean q = posix.clean p → (posix.clean p).length ≤ q.length) ∧
    ∀ (d : Dialect) (p : Text),
      (∀ runs, runs <+: (d.tail p).splitOnP d.isSep →
        (d.sweepRuns p runs).out.written.length ≤ (d.tail p).length) ∧
      (d.tail p ≠ [] → (d.sweep p).written.length ≤ (d.tail p).length) := by
  refine ⟨fun p => ⟨?_, fun q hq hclean => ?_⟩, fun d p => ⟨fun runs hruns => ?_, fun hp => ?_⟩⟩
  · rw [clean_posix, clean_posix, normalForm_normalForm]
  · rw [← hclean, clean_posix]
    exact length_normalForm_le posix hq
  · exact length_written_sweepRuns_le hruns
  · rw [(d.sweep_spells p).written_eq]
    exact length_normalForm_le d hp

/-- A detour has no shorter cleaned path than the way without it. Behind a drive, `..` elements that
take off a name and that stay are written in the room of what was read. -/
theorem clean_shortest_detour :
    (posix.clean "a/.//../../b".toList = posix.clean "../b".toList ∧
      (posix.clean "../b".toList).length ≤ "a/.//../../b".toList.length) ∧
    ["a".toList, "..".toList] <+: (windows.tail "C:a\\..\\..\\b".toList).splitOnP windows.isSep ∧
      (windows.sweepRuns "C:a\\..\\..\\b".toList ["a".toList, "..".toList]).out.written.length ≤
        (windows.tail "C:a\\..\\..\\b".toList).length ∧
      (windows.sweep "C:a\\..\\..\\b".toList).written.length ≤
        (windows.tail "C:a\\..\\..\\b".toList).length := by
  have hclean : posix.clean "a/.//../../b".toList = posix.clean "../b".toList := by decide
  have hruns : ["a".toList, "..".toList] <+:
      (windows.tail "C:a\\..\\..\\b".toList).splitOnP windows.isSep := by decide
  obtain ⟨hshortest, hwritten⟩ := clean_shortest
  have hsweep := hwritten windows "C:a\\..\\..\\b".toList
  exact ⟨⟨hclean, (hshortest _).2 _ (by decide) hclean⟩, hruns, hsweep.1 _ hruns,
    hsweep.2 (by decide)⟩

end Dialect

end PathAlgebra
