import PathAlgebra.Clean
import PathAlgebra.Proofs.Spelling

/-!
# The sweep writes the normal form

A sweep runs over the elements of a path and keeps its result as characters in an overlay, with a
cursor that moves back over erased elements. This file says what these characters are: at every
step the overlay spells the stack of resolved elements, and the floor of the sweep is where the
leading `..` elements of that stack end (`Sweep.Follows`). One element of the path keeps this
relation (`Sweep.Follows.step`), so a whole sweep does (`Sweep.Follows.foldl`), and the sweep of a
path spells the normal form of what follows its volume (`sweep_spells`).
-/

set_option autoImplicit false

namespace PathAlgebra

/-! ## What an overlay spells -/

/-- An overlay of what follows the first `n` characters of `p`, on which `t` is written. -/
structure Overlay.Spells (b : Overlay) (p : Text) (n : Nat) (t : Text) : Prop where
  valid : b.Valid
  whole_eq : b.whole = p
  volumeEnd_eq : b.volumeEnd = n
  source_eq : b.source.toList = p.drop n
  written_eq : b.written = t

namespace Overlay

variable {b : Overlay} {p t : Text} {n : Nat}

/-- Appending a character leaves the source, the whole path and the volume alone. -/
theorem append_frame (b : Overlay) (c : Char) :
    (b.append c).source = b.source ∧ (b.append c).whole = b.whole ∧
      (b.append c).volumeEnd = b.volumeEnd := by
  unfold append appendAt
  split
  · split
    · split
      · exact ⟨rfl, rfl, rfl⟩
      · exact ⟨rfl, rfl, rfl⟩
    · exact ⟨rfl, rfl, rfl⟩
  · exact ⟨rfl, rfl, rfl⟩

theorem ofSource_spells (p : Text) (n : Nat) : (ofSource (p.drop n) p n).Spells p n [] where
  valid := ofSource_valid _ _ _
  whole_eq := rfl
  volumeEnd_eq := rfl
  source_eq := List.toList_toArray
  written_eq := written_ofSource _ _ _

theorem Spells.cursor_eq (h : b.Spells p n t) : b.cursor = t.length := by
  rw [cursor_eq_length h.valid, h.written_eq]

theorem Spells.append (h : b.Spells p n t) (c : Char) : (b.append c).Spells p n (t ++ [c]) where
  valid := h.valid.append c
  whole_eq := (append_frame b c).2.1.trans h.whole_eq
  volumeEnd_eq := (append_frame b c).2.2.trans h.volumeEnd_eq
  source_eq := (congrArg Array.toList (append_frame b c).1).trans h.source_eq
  written_eq := by rw [written_append h.valid, h.written_eq]

theorem Spells.appendText (h : b.Spells p n t) (u : Text) :
    (b.appendText u).Spells p n (t ++ u) := by
  induction u generalizing b t with
  | nil =>
      rw [List.append_nil]
      exact h
  | cons c u ih =>
      have h' := ih (h.append c)
      rw [List.append_assoc, List.singleton_append] at h'
      exact h'

/-- Moving the cursor back leaves the first characters. -/
theorem Spells.moveTo (h : b.Spells p n t) {m : Nat} (hm : m ≤ t.length) :
    (b.moveTo m).Spells p n (t.take m) where
  valid := h.valid.moveTo (by rw [h.cursor_eq]; omega)
  whole_eq := h.whole_eq
  volumeEnd_eq := h.volumeEnd_eq
  source_eq := h.source_eq
  written_eq := by rw [written_moveTo (by rw [h.cursor_eq]; omega), h.written_eq]

theorem Spells.charAt?_eq (h : b.Spells p n t) {i : Nat} (hi : i < t.length) :
    b.charAt? i = t[i]? := by
  rw [charAt?_eq_written (by rw [h.cursor_eq]; omega), h.written_eq]

theorem Spells.text_eq (h : b.Spells p n t) : b.text = p.take n ++ t := by
  have hdrop : b.whole.drop n = b.source.toList := by rw [h.whole_eq, h.source_eq]
  rw [Overlay.text_eq h.valid h.volumeEnd_eq hdrop, h.whole_eq, h.written_eq]

/-- An overlay that has not diverged has written a beginning of its source. -/
theorem Spells.isPrefix (h : b.Spells p n t) (hb : b.diverged = false) : t <+: p.drop n := by
  have hslots : b.slots = none := by simpa [diverged] using hb
  obtain ⟨m, hm, -⟩ := h.valid.cursor_eq
  rw [← h.written_eq, written_of_cursor hm, base, hslots, Option.getD_none, h.source_eq]
  exact List.take_prefix m _

/-- A text can be put in front of what is written exactly after divergence. -/
theorem Spells.prepend (h : b.Spells p n t) (u : Text) :
    ((b.prepend u).toOption.getD b).Spells p n (if b.diverged then u ++ t else t) := by
  -- An overlay that still shares its source refuses, and the overlay before is kept.
  cases hslots : b.slots with
  | none =>
      have hprepend : b.prepend u = .error .prependShared := by simp [Overlay.prepend, hslots]
      have hb : b.diverged = false := by simp [diverged, hslots]
      rw [hprepend, hb]
      exact h
  | some slots =>
      have hb : b.diverged = true := by simp [diverged, hslots]
      have hprepend : b.prepend u =
          .ok { b with slots := some (u.toArray ++ slots), cursor := b.cursor + u.length } := by
        simp [Overlay.prepend, hslots]
      have hwritten := written_prepend h.valid hprepend
      rw [h.written_eq] at hwritten
      have hvalid := h.valid.prepend hprepend
      rw [hprepend, hb, if_pos rfl]
      exact ⟨hvalid, h.whole_eq, h.volumeEnd_eq, h.source_eq, hwritten⟩

end Overlay

namespace Dialect

variable {d : Dialect} {rooted : Bool}

/-! ## One more element -/

theorem spell_nil (d : Dialect) (rooted : Bool) :
    (d.spell rooted []).length = if rooted then 1 else 0 := by
  cases rooted <;> rfl

theorem length_spell_lt (d : Dialect) (rooted : Bool) (es : List Text) {e : Text} (he : e ≠ []) :
    (d.spell rooted es).length < (d.spell rooted (es ++ [e])).length := by
  have hpos := List.length_pos_iff.2 he
  rw [spell_append_singleton, List.length_append, List.length_append]
  omega

/-- The spelling of the first elements is a beginning of the spelling of all. -/
theorem spell_isPrefix (d : Dialect) (rooted : Bool) (es fs : List Text) :
    d.spell rooted es <+: d.spell rooted (es ++ fs) := by
  induction fs using List.reverseRecOn with
  | nil => simp
  | append_singleton fs f ih =>
      rw [← List.append_assoc, spell_append_singleton]
      exact ih.trans (List.prefix_append _ _)

theorem length_spell_le (d : Dialect) (rooted : Bool) (es fs : List Text) :
    (d.spell rooted es).length ≤ (d.spell rooted (es ++ fs)).length :=
  (spell_isPrefix d rooted es fs).length_le

/-- The spelling is as short as the root exactly when there is no element. -/
theorem length_spell_eq_iff {es : List Text} (h : ∀ e ∈ es, IsElement d e) :
    (d.spell rooted es).length = (if rooted then 1 else 0) ↔ es = [] := by
  constructor
  · intro hlen
    cases es with
    | nil => rfl
    | cons e es =>
        have hlt := length_spell_lt d rooted [] (h e List.mem_cons_self).ne_nil
        have hle := length_spell_le d rooted [e] es
        rw [spell_nil] at hlt
        rw [List.nil_append] at hlt
        rw [List.singleton_append] at hle
        omega
  · rintro rfl
    exact spell_nil d rooted

/-- A separator is written exactly when there is an element before. -/
theorem separate_eq {b : Overlay} {p : Text} {n : Nat} {es : List Text}
    (h : b.Spells p n (d.spell rooted es)) (hes : ∀ e ∈ es, IsElement d e) :
    d.separate (if rooted then 1 else 0) b = if es = [] then b else b.append d.sep := by
  -- The cursor is where the elements start exactly when nothing is written behind the root.
  have hcursor : (b.cursor == ((if rooted then 1 else 0 : Nat) : Int)) = decide (es = []) := by
    rw [Bool.eq_iff_iff, beq_iff_eq, decide_eq_true_iff, h.cursor_eq, Int.natCast_inj]
    exact length_spell_eq_iff hes
  rw [separate, hcursor]
  by_cases hnil : es = [] <;> simp [hnil]

theorem separate_spells {b : Overlay} {p : Text} {n : Nat} {es : List Text}
    (h : b.Spells p n (d.spell rooted es)) (hes : ∀ e ∈ es, IsElement d e) :
    (d.separate (if rooted then 1 else 0) b).Spells p n
      (d.spell rooted es ++ if es = [] then [] else [d.sep]) := by
  rw [separate_eq h hes]
  by_cases hnil : es = []
  · rw [if_pos hnil, if_pos hnil, List.append_nil]
    exact h
  · rw [if_neg hnil, if_neg hnil]
    exact h.append d.sep

/-- The cursor goes back to the last separator, but not past the floor. -/
theorem lastBreak_eq {b : Overlay} {floor m j : Nat} (hfloor : floor ≤ m) (hj : m < j)
    (hm : m = floor ∨ (b.charAt? m).any d.isSep = true)
    (hrun : ∀ i, m < i → i < j → (b.charAt? i).any d.isSep = false) :
    d.lastBreak b floor j = m := by
  -- The cursor goes back over a run without separators, one character a step.
  induction j with
  | zero => omega
  | succ i ih =>
      rw [lastBreak]
      by_cases hi : i = m
      · subst hi
        have hstop : ¬ (decide (i > floor) && !(b.charAt? i).any d.isSep) = true := by
          rcases hm with hm | hm
          · simp [hm]
          · simp [hm]
        rw [if_neg hstop]
      · have hlt : m < i := by omega
        have hgo : (decide (i > floor) && !(b.charAt? i).any d.isSep) = true := by
          rw [hrun i hlt (Nat.lt_succ_self i)]
          simp only [Bool.not_false, Bool.and_true, decide_eq_true_eq]
          omega
        rw [if_pos hgo]
        exact ih hlt fun k hk hki => hrun k hk (Nat.lt_succ_of_lt hki)

/-- Erasing the last element leaves the spelling of the elements before it. -/
theorem lastBreak_spell {b : Overlay} {p : Text} {n : Nat} {es : List Text} {e : Text} {floor : Nat}
    (h : b.Spells p n (d.spell rooted (es ++ [e]))) (he : IsElement d e)
    (hfloor : floor ≤ (d.spell rooted es).length)
    (hnil : es = [] → floor = (d.spell rooted es).length) :
    d.lastBreak b floor (d.spell rooted (es ++ [e])).length = (d.spell rooted es).length := by
  have hlt := length_spell_lt d rooted es he.ne_nil
  refine lastBreak_eq hfloor hlt ?_ ?_
  -- The break is the floor below a first element, and a separator below any other.
  · by_cases hes : es = []
    · exact Or.inl (hnil hes).symm
    · right
      rw [h.charAt?_eq hlt, spell_append_singleton, List.getElem?_append_right (Nat.le_refl _),
        Nat.sub_self, if_neg hes]
      simp
  · intro i hi hj
    rw [h.charAt?_eq hj, spell_append_singleton, List.getElem?_append_right (by omega)]
    -- What stands behind the break is the element alone.
    have hlast : ((if es = [] then [] else [d.sep]) ++ e)[i - (d.spell rooted es).length]? =
        e[i - (d.spell rooted es).length - if es = [] then 0 else 1]? := by
      by_cases hes : es = []
      · simp [hes]
      · rw [if_neg hes, if_neg hes, List.singleton_append]
        obtain ⟨k, hk⟩ : ∃ k, i - (d.spell rooted es).length = k + 1 :=
          ⟨i - (d.spell rooted es).length - 1, by omega⟩
        rw [hk, List.getElem?_cons_succ, Nat.add_sub_cancel]
    rw [hlast]
    cases hc : e[i - (d.spell rooted es).length - if es = [] then 0 else 1]? with
    | none => rfl
    | some c => exact he.no_sep c (List.mem_of_getElem? hc)

end Dialect

namespace Dialect

variable {d : Dialect} {rooted : Bool} {s : Sweep} {e : Text}

/-- A name is written behind a separator. -/
theorem sweepElement_name (he : IsElement d e) (hname : e ≠ parentElement) :
    d.sweepElement rooted s e =
      { s with out := (d.separate (if rooted then 1 else 0) s.out).appendText e } := by
  rw [sweepElement, if_neg (by simp [he.ne_nil, he.ne_dot]),
    if_neg (show ¬ e = ['.', '.'] from hname)]

/-- With the cursor on the floor, a `..` is dropped at a root and written elsewhere. -/
theorem sweepElement_parent (hcursor : ¬ s.out.cursor > s.floor) :
    d.sweepElement rooted s parentElement =
      if rooted then s
      else ⟨(d.separate 0 s.out).appendText parentElement,
        ((d.separate 0 s.out).appendText parentElement).cursor.toNat⟩ := by
  rw [sweepElement, if_neg (by decide), if_pos (show parentElement = ['.', '.'] from rfl),
    if_neg hcursor]
  rfl

/-- Empty runs and `.` change nothing. -/
theorem foldl_sweepElement_filter (runs : List Text) :
    runs.foldl (d.sweepElement rooted) s =
      (runs.filter fun e => e ≠ [] ∧ e ≠ ['.']).foldl (d.sweepElement rooted) s := by
  induction runs generalizing s with
  | nil => rfl
  | cons e runs ih =>
      rw [List.foldl_cons, ih]
      by_cases he : e ≠ [] ∧ e ≠ ['.']
      · rw [List.filter_cons_of_pos (by simpa using he), List.foldl_cons]
      · have hskip : d.sweepElement rooted s e = s := by
          rw [sweepElement, if_pos (by tauto)]
        rw [List.filter_cons_of_neg (by simpa using he), hskip]

/-- A sweep over the runs of a text is one over its elements. -/
theorem foldl_sweepElement (t : Text) :
    (t.splitOnP d.isSep).foldl (d.sweepElement rooted) s =
      (d.elements t).foldl (d.sweepElement rooted) s :=
  foldl_sweepElement_filter _

end Dialect

/-! ## The invariant of a sweep -/

/-- A sweep whose overlay spells a stack of elements, newest first, and whose floor is where the
leading `..` elements of the stack end. -/
structure Sweep.Follows (d : Dialect) (p : Text) (n : Nat) (rooted : Bool) (stack : List Text)
    (s : Sweep) : Prop where
  resolved : Resolved rooted stack.reverse
  isElement : ∀ e ∈ stack.reverse, IsElement d e
  spells : s.out.Spells p n (d.spell rooted stack.reverse)
  floor_eq : s.floor =
    (d.spell rooted (stack.reverse.takeWhile fun e => e == parentElement)).length

namespace Sweep.Follows

open Dialect

variable {d : Dialect} {p : Text} {n : Nat} {rooted : Bool} {stack : List Text} {s : Sweep}

theorem takeWhile_append_name {es : List Text} {e : Text} (he : e ≠ parentElement) :
    (es ++ [e]).takeWhile (fun e => e == parentElement) =
      es.takeWhile fun e => e == parentElement := by
  rw [List.takeWhile_append]
  split
  · next hall => simp [he, List.IsPrefix.eq_of_length (List.takeWhile_prefix _) hall]
  · rfl

/-- A name is written behind the elements before it. -/
theorem sweep_name (h : s.Follows d p n rooted stack) {e : Text} (he : IsElement d e)
    (hname : e ≠ parentElement) :
    (d.sweepElement rooted s e).Follows d p n rooted (e :: stack) := by
  rw [sweepElement_name he hname]
  refine ⟨?_, ?_, ?_, ?_⟩
  · rw [List.reverse_cons]
    exact h.resolved.append_name hname
  · intro f hf
    rw [List.reverse_cons] at hf
    rcases List.mem_append.1 hf with hf | hf
    · exact h.isElement f hf
    · rw [List.mem_singleton.1 hf]
      exact he
  -- The overlay gains a separator, if one is due, and the name.
  · have hout := (separate_spells h.spells h.isElement).appendText e
    rw [List.append_assoc, ← spell_append_singleton, ← List.reverse_cons] at hout
    exact hout
  -- A name adds nothing to the leading `..` elements, so the floor stays.
  · rw [List.reverse_cons, takeWhile_append_name hname]
    exact h.floor_eq

/-- The floor is not above the elements below a name. -/
theorem floor_le {top : Text} (h : s.Follows d p n rooted (top :: stack))
    (htop : top ≠ parentElement) : s.floor ≤ (d.spell rooted stack.reverse).length := by
  have hsplit : stack.reverse = stack.reverse.takeWhile (fun e => e == parentElement) ++
      stack.reverse.dropWhile fun e => e == parentElement :=
    List.takeWhile_append_dropWhile.symm
  rw [h.floor_eq, List.reverse_cons, takeWhile_append_name htop]
  conv_rhs => rw [hsplit]
  exact length_spell_le d rooted _ _

/-- Behind a name the cursor stands above the floor. -/
theorem above_floor {top : Text} (h : s.Follows d p n rooted (top :: stack))
    (htop : top ≠ parentElement) : s.out.cursor > s.floor := by
  have hle := h.floor_le htop
  have hlt := length_spell_lt d rooted stack.reverse (h.isElement top (by simp)).ne_nil
  rw [h.spells.cursor_eq, List.reverse_cons]
  omega

/-- A `..` takes off the name before it. -/
theorem sweep_pop {top : Text} (h : s.Follows d p n rooted (top :: stack))
    (htop : top ≠ parentElement) :
    (d.sweepElement rooted s parentElement).Follows d p n rooted stack := by
  have hle := h.floor_le htop
  have hcursor := h.above_floor htop
  obtain ⟨hresolved, helement, hspells, hfloor⟩ := h
  rw [List.reverse_cons] at hresolved helement hspells hfloor
  rw [takeWhile_append_name htop] at hfloor
  have he := helement top (List.mem_append_right _ List.mem_cons_self)
  have hlt := length_spell_lt d rooted stack.reverse he.ne_nil
  -- The sweep sees an element to erase and erases down to its break.
  have hbreak := lastBreak_spell hspells he hle fun hnil => by rw [hfloor, hnil]; rfl
  have hstep : d.sweepElement rooted s parentElement =
      { s with out := s.out.moveTo (d.spell rooted stack.reverse).length } := by
    rw [sweepElement, if_neg (by decide), if_pos (show parentElement = ['.', '.'] from rfl),
      if_pos hcursor, hspells.cursor_eq, Int.toNat_natCast, hbreak]
  rw [hstep]
  refine ⟨hresolved.of_append, fun f hf => helement f (List.mem_append_left _ hf), ?_, hfloor⟩
  have hout := hspells.moveTo (Nat.le_of_lt hlt)
  rw [spell_append_singleton, List.take_left] at hout
  exact hout

/-- When all that is written are leading `..` elements, the cursor stands on the floor. -/
theorem not_above_floor (h : s.Follows d p n rooted stack)
    (hstack : stack.reverse = List.replicate stack.length parentElement) :
    ¬ s.out.cursor > s.floor := by
  have hwhile : (stack.reverse.takeWhile fun e => e == parentElement) = stack.reverse := by
    rw [hstack, List.takeWhile_replicate, if_pos (by simp)]
  have hfloor := h.floor_eq
  rw [hwhile] at hfloor
  rw [h.spells.cursor_eq]
  omega

/-- With no name to take off, a `..` is dropped at a root and written elsewhere. -/
theorem sweep_parent (h : s.Follows d p n rooted stack)
    (hstack : stack.reverse = List.replicate stack.length parentElement) :
    (d.sweepElement rooted s parentElement).Follows d p n rooted
      (pushElement rooted stack parentElement) := by
  rw [sweepElement_parent (h.not_above_floor hstack)]
  cases rooted with
  | true =>
      -- At a root a resolved stack of `..` elements is empty.
      have hnil : stack = [] := by
        cases stack with
        | nil => rfl
        | cons top stack =>
            have hmem : parentElement ∈ (top :: stack).reverse := by simp [hstack]
            exact absurd hmem h.resolved.parentElement_notMem
      rw [if_pos rfl, hnil, pushElement_parent_root, ← hnil]
      exact h
  | false =>
      -- Elsewhere the `..` is written and the floor moves behind it.
      have hpush : pushElement false stack parentElement = parentElement :: stack := by
        have hrev := congrArg List.reverse hstack
        rw [List.reverse_reverse, List.reverse_replicate] at hrev
        rw [hrev, pushElement_parent_ups, List.replicate_succ]
      have hout := (separate_spells h.spells h.isElement).appendText parentElement
      rw [List.append_assoc, ← spell_append_singleton, ← List.reverse_cons] at hout
      have hall : (parentElement :: stack).reverse =
          List.replicate (stack.length + 1) parentElement := by
        rw [List.reverse_cons, hstack, ← List.replicate_succ']
      rw [if_neg Bool.false_ne_true, hpush]
      refine ⟨?_, ?_, hout, ?_⟩
      · rw [hall]
        exact ⟨stack.length + 1, [], by simp, by simp, by simp⟩
      · intro f hf
        rw [hall] at hf
        rw [List.eq_of_mem_replicate hf]
        exact isElement_parent d
      · rw [hall, List.takeWhile_replicate, if_pos (by simp), ← hall]
        show Int.toNat _ = _
        have hcursor' := hout.cursor_eq
        rw [show (if false = true then 1 else 0) = 0 from rfl] at hcursor'
        rw [hcursor', Int.toNat_natCast]

/-- One element of the path goes on the stack as resolving has it. -/
theorem step (h : s.Follows d p n rooted stack) {e : Text} (he : IsElement d e) :
    (d.sweepElement rooted s e).Follows d p n rooted (pushElement rooted stack e) := by
  by_cases hname : e = parentElement
  · subst hname
    cases stack with
    | nil => exact h.sweep_parent rfl
    | cons top stack =>
        by_cases htop : top = parentElement
        -- A `..` on top means that the whole stack is `..`.
        · apply h.sweep_parent
          have hresolved := h.resolved
          rw [List.reverse_cons, htop] at hresolved
          obtain ⟨-, hall⟩ := hresolved.eq_replicate_of_last
          rw [List.reverse_cons, htop, hall, ← List.replicate_succ', List.length_reverse]
          simp
        · rw [pushElement_parent_name htop]
          exact h.sweep_pop htop
  · rw [pushElement_name hname]
    exact h.sweep_name he hname

/-- The elements of a path go on the stack one after the other. -/
theorem foldl {es : List Text} (hes : ∀ e ∈ es, IsElement d e)
    (h : s.Follows d p n rooted stack) :
    (es.foldl (d.sweepElement rooted) s).Follows d p n rooted
      (es.foldl (pushElement rooted) stack) := by
  induction es generalizing s stack with
  | nil => exact h
  | cons e es ih =>
      exact ih (fun f hf => hes f (List.mem_cons_of_mem _ hf)) (h.step (hes e List.mem_cons_self))

end Sweep.Follows

namespace Dialect

theorem startSweep_follows (d : Dialect) (p : Text) :
    (d.startSweep p).Follows d p (d.volumeLength p) (d.isRooted (d.tail p)) [] := by
  have hstart := Overlay.ofSource_spells p (d.volumeLength p)
  have hsource : d.tail p = p.drop (d.volumeLength p) := rfl
  rw [startSweep, hsource]
  cases d.isRooted (p.drop (d.volumeLength p)) with
  | true =>
      rw [if_pos rfl]
      exact ⟨resolved_nil true, by simp, hstart.append d.sep, rfl⟩
  | false =>
      rw [if_neg (by simp)]
      exact ⟨resolved_nil false, by simp, hstart, rfl⟩

/-- The overlay after the elements of a path. -/
def swept (d : Dialect) (p : Text) : Overlay :=
  ((d.elements (d.tail p)).foldl (d.sweepElement (d.isRooted (d.tail p))) (d.startSweep p)).out

theorem swept_spells (d : Dialect) (p : Text) :
    (d.swept p).Spells p (d.volumeLength p)
      (d.spell (d.isRooted (d.tail p)) (d.resolvedElements (d.tail p))) := by
  have helement : ∀ e ∈ d.elements (d.tail p), IsElement d e :=
    fun e he => isElement_of_mem_elements he
  exact ((startSweep_follows d p).foldl helement).spells

/-- A sweep ends with a `.` for an empty spelling. -/
theorem sweep_eq (d : Dialect) (p : Text) :
    d.sweep p =
      if d.spell (d.isRooted (d.tail p)) (d.resolvedElements (d.tail p)) = [] then
        (d.swept p).append '.'
      else d.swept p := by
  have hempty : (d.swept p).cursor = 0 ↔
      d.spell (d.isRooted (d.tail p)) (d.resolvedElements (d.tail p)) = [] := by
    rw [(d.swept_spells p).cursor_eq, Int.natCast_eq_zero, List.length_eq_zero_iff]
  rw [sweep, foldl_sweepElement]
  simp only [beq_iff_eq, ← hempty]
  rfl

/-- The sweep of a path spells the normal form of what follows its volume. -/
theorem sweep_spells (d : Dialect) (p : Text) :
    (d.sweep p).Spells p (d.volumeLength p) (d.normalForm (d.tail p)) := by
  have hspells := d.swept_spells p
  rw [sweep_eq, normalForm_eq, writeElements_eq]
  by_cases hnil : d.spell (d.isRooted (d.tail p)) (d.resolvedElements (d.tail p)) = []
  · rw [if_pos hnil, if_pos hnil]
    rw [hnil] at hspells
    exact hspells.append '.'
  · rw [if_neg hnil, if_neg hnil]
    exact hspells

end Dialect

end PathAlgebra
