import Mathlib.Data.List.Induction
import PathAlgebra.Elements

/-!
# Resolved elements

A list of elements is resolved when `..` stands only at its front, and nowhere at a root. Resolving
gives a resolved list (`resolve_resolved`) and changes none (`Resolved.resolve_eq`). Resolving a
concatenation goes on from the resolved first part (`resolve_append`), where as many `..` as there
are names take off exactly these names (`foldl_push_parents`). The second part may be resolved
beforehand too (`resolve_append_resolve`). What is left are elements of the list, in their order
(`resolve_sublist`).
-/

set_option autoImplicit false

namespace PathAlgebra

/-! ## Resolved lists -/

/-- `..` stands only at the front, and nowhere at a root. -/
def Resolved (rooted : Bool) (es : List Text) : Prop :=
  ∃ (ups : Nat) (names : List Text), es = List.replicate ups parentElement ++ names ∧
    parentElement ∉ names ∧ (rooted = true → ups = 0)

/-- A list without `..` is resolved. -/
theorem resolved_of_notMem {rooted : Bool} {es : List Text} (h : parentElement ∉ es) :
    Resolved rooted es :=
  ⟨0, es, rfl, h, fun _ => rfl⟩

theorem resolved_nil (rooted : Bool) : Resolved rooted [] :=
  resolved_of_notMem List.not_mem_nil

theorem Resolved.parentElement_notMem {es : List Text} (h : Resolved true es) :
    parentElement ∉ es := by
  obtain ⟨ups, names, rfl, hnames, hups⟩ := h
  rw [hups rfl]
  exact hnames

/-- A resolved list stays resolved when elements are taken off its end. -/
theorem Resolved.of_append {rooted : Bool} {es fs : List Text} (h : Resolved rooted (es ++ fs)) :
    Resolved rooted es := by
  obtain ⟨ups, names, heq, hnames, hups⟩ := h
  -- The cut falls among the leading `..` elements or among the names.
  rcases List.append_eq_append_iff.1 heq with ⟨mid, hmid, -⟩ | ⟨mid, rfl, rfl⟩
  · obtain ⟨-, hes, -⟩ := List.append_eq_replicate_iff.1 hmid.symm
    refine ⟨es.length, [], ?_, by simp, fun hr => ?_⟩
    · rw [List.append_nil]
      exact hes
    · have := congrArg List.length hmid
      rw [hups hr, List.length_append, List.length_replicate] at this
      omega
  · exact ⟨ups, mid, rfl, fun hm => hnames (List.mem_append_left _ hm), hups⟩

/-- What a resolved list goes on with is resolved by itself. -/
theorem Resolved.of_append_right {rooted : Bool} {es fs : List Text}
    (h : Resolved rooted (es ++ fs)) : Resolved false fs := by
  obtain ⟨ups, names, heq, hnames, -⟩ := h
  -- The cut leaves some of the leading `..` elements or none of them.
  rcases List.append_eq_append_iff.1 heq with ⟨mid, hmid, rfl⟩ | ⟨mid, -, rfl⟩
  · have hups := (List.append_eq_replicate_iff.1 hmid.symm).2.2
    exact ⟨mid.length, names, by rw [← hups], hnames, by simp⟩
  · exact resolved_of_notMem fun hm => hnames (List.mem_append_right _ hm)

/-- What is resolved at a root is resolved anywhere. -/
theorem Resolved.unrooted {rooted : Bool} {es : List Text} (h : Resolved rooted es) :
    Resolved false es := by
  have happend : Resolved rooted ([] ++ es) := h
  exact happend.of_append_right

/-- Without a root more `..` elements can stand in front. -/
theorem Resolved.replicate_append {es : List Text} (h : Resolved false es) (n : Nat) :
    Resolved false (List.replicate n parentElement ++ es) := by
  obtain ⟨ups, names, rfl, hnames, -⟩ := h
  refine ⟨n + ups, names, ?_, hnames, by simp⟩
  rw [← List.append_assoc, List.replicate_append_replicate]

/-- Without a root anything can stand in front of a list without `..`. -/
theorem resolved_cons {es : List Text} (h : parentElement ∉ es) (e : Text) :
    Resolved false (e :: es) := by
  by_cases he : e = parentElement
  · rw [he]
    exact (resolved_of_notMem h).replicate_append 1
  · refine resolved_of_notMem fun hm => ?_
    rcases List.mem_cons.1 hm with heq | hm
    · exact he heq.symm
    · exact h hm

/-- A name can follow any resolved list. -/
theorem Resolved.append_name {rooted : Bool} {es : List Text} (h : Resolved rooted es) {e : Text}
    (he : e ≠ parentElement) : Resolved rooted (es ++ [e]) := by
  obtain ⟨ups, names, rfl, hnames, hups⟩ := h
  refine ⟨ups, names ++ [e], by rw [List.append_assoc], ?_, hups⟩
  intro hm
  rcases List.mem_append.1 hm with hm | hm
  · exact hnames hm
  · exact he (List.mem_singleton.1 hm).symm

/-- Past a place where a resolved list does not go on with `..` there is none. -/
theorem Resolved.notMem_of_head {rooted : Bool} {es fs : List Text}
    (h : Resolved rooted (es ++ fs)) (hfs : fs.head? ≠ some parentElement) :
    parentElement ∉ fs := by
  obtain ⟨ups, names, heq, hnames, -⟩ := h
  -- Behind a cut among the leading `..` elements, the rest starts with the next of them.
  rcases List.append_eq_append_iff.1 heq with ⟨mid, hmid, rfl⟩ | ⟨mid, -, rfl⟩
  · have hups := (List.append_eq_replicate_iff.1 hmid.symm).2.2
    cases mid with
    | nil => exact hnames
    | cons m mid =>
        have hm : m = parentElement := by
          have hmem : m ∈ List.replicate (m :: mid).length parentElement :=
            hups ▸ List.mem_cons_self
          exact List.eq_of_mem_replicate hmem
        exact absurd (by rw [hm]; rfl) hfs
  · exact fun hm => hnames (List.mem_append_right _ hm)

theorem Resolved.notMem_cons {rooted : Bool} {e : Text} {es : List Text}
    (h : Resolved rooted (e :: es)) (he : e ≠ parentElement) : parentElement ∉ e :: es := by
  have happend : Resolved rooted ([] ++ e :: es) := h
  exact happend.notMem_of_head (by simpa using he)

/-- A resolved list that ends in `..` has nothing but `..`, and no root. -/
theorem Resolved.eq_replicate_of_last {rooted : Bool} {es : List Text}
    (h : Resolved rooted (es ++ [parentElement])) :
    rooted = false ∧ es = List.replicate es.length parentElement := by
  obtain ⟨ups, names, heq, hnames, hups⟩ := h
  have hnil : names = [] := by
    cases names using List.reverseRecOn with
    | nil => rfl
    | append_singleton names top =>
        rw [← List.append_assoc] at heq
        have htop := (List.append_inj' heq rfl).2
        simp only [List.cons.injEq, and_true] at htop
        -- The last element would be a name and a `..`.
        exact absurd (by simp [← htop]) hnames
  rw [hnil, List.append_nil] at heq
  obtain ⟨hlen, hes, -⟩ := List.append_eq_replicate_iff.1 heq
  refine ⟨?_, hes⟩
  cases rooted with
  | false => rfl
  | true =>
      rw [hups rfl] at hlen
      simp at hlen

/-! ## Pushing -/

theorem pushElement_name {e : Text} (h : e ≠ parentElement) (rooted : Bool) (stack : List Text) :
    pushElement rooted stack e = e :: stack := if_neg h

theorem pushElement_parent_name {top : Text} (h : top ≠ parentElement) (rooted : Bool)
    (stack : List Text) : pushElement rooted (top :: stack) parentElement = stack := by
  simp [pushElement, h]

theorem pushElement_parent_root : pushElement true [] parentElement = [] := rfl

theorem pushElement_parent_ups (ups : Nat) :
    pushElement false (List.replicate ups parentElement) parentElement =
      List.replicate (ups + 1) parentElement := by
  cases ups with
  | zero => rfl
  | succ n => simp [pushElement, List.replicate_succ]

/-- The stack of a resolved list, newest element first, is the stack of one after each push. -/
theorem Resolved.push {rooted : Bool} {stack : List Text} (h : Resolved rooted stack.reverse)
    (e : Text) : Resolved rooted (pushElement rooted stack e).reverse := by
  by_cases he : e = parentElement
  · subst he
    obtain ⟨ups, names, heq, hnames, hups⟩ := h
    have hstack : stack = names.reverse ++ List.replicate ups parentElement := by
      rw [← List.reverse_reverse stack, heq, List.reverse_append, List.reverse_replicate]
    cases names using List.reverseRecOn with
    | nil =>
        -- There is no name to take off: a root drops the `..`, anything else keeps it.
        rw [hstack, List.reverse_nil, List.nil_append]
        cases rooted with
        | true =>
            rw [hups rfl]
            exact resolved_nil true
        | false =>
            rw [pushElement_parent_ups, List.reverse_replicate]
            exact ⟨ups + 1, [], by simp, by simp, by simp⟩
    | append_singleton names top =>
        -- The `..` takes off the newest name.
        have htop : top ≠ parentElement := fun ht => hnames (by simp [ht])
        rw [hstack, List.reverse_append, List.reverse_singleton, List.singleton_append,
          List.cons_append, pushElement_parent_name htop, List.reverse_append,
          List.reverse_reverse, List.reverse_replicate]
        exact ⟨ups, names, rfl, fun hm => hnames (List.mem_append_left _ hm), hups⟩
  · rw [pushElement_name he, List.reverse_cons]
    exact h.append_name he

theorem Resolved.foldl_push {rooted : Bool} (es : List Text) {stack : List Text}
    (h : Resolved rooted stack.reverse) :
    Resolved rooted (es.foldl (pushElement rooted) stack).reverse := by
  induction es generalizing stack with
  | nil => exact h
  | cons e es ih => exact ih (h.push e)

/-- Resolving gives a resolved list. -/
theorem resolve_resolved (rooted : Bool) (es : List Text) : Resolved rooted (resolve rooted es) :=
  Resolved.foldl_push es (resolved_nil rooted)

theorem foldl_push_resolve (rooted : Bool) (es : List Text) :
    es.foldl (pushElement rooted) [] = (resolve rooted es).reverse := by
  rw [resolve, List.reverse_reverse]

/-- Resolving a concatenation goes on from the resolved first part. -/
theorem resolve_append (rooted : Bool) (es fs : List Text) :
    resolve rooted (es ++ fs) =
      (fs.foldl (pushElement rooted) (resolve rooted es).reverse).reverse := by
  rw [resolve, List.foldl_append, foldl_push_resolve]

/-- The last element of a resolved list goes on the stack of the others. -/
theorem Resolved.push_eq {rooted : Bool} {es : List Text} {e : Text}
    (h : Resolved rooted (es ++ [e])) : pushElement rooted es.reverse e = e :: es.reverse := by
  by_cases he : e = parentElement
  · rw [he] at h ⊢
    -- A `..` in a resolved list has nothing but `..` below it.
    obtain ⟨hrooted, hes⟩ := h.eq_replicate_of_last
    rw [hes, List.reverse_replicate, hrooted, pushElement_parent_ups]
    rfl
  · exact pushElement_name he rooted es.reverse

/-- In a resolved list nothing takes off anything: each element goes on the stack. -/
theorem foldl_push_of_resolved {rooted : Bool} (es fs : List Text)
    (h : Resolved rooted (es ++ fs)) :
    fs.foldl (pushElement rooted) es.reverse = (es ++ fs).reverse := by
  induction fs generalizing es with
  | nil => rw [List.append_nil, List.foldl_nil]
  | cons f fs ih =>
      -- The induction moves one element at a time from the rest onto the stack.
      have hcons : es ++ f :: fs = (es ++ [f]) ++ fs := by simp
      rw [hcons] at h ⊢
      rw [List.foldl_cons, h.of_append.push_eq, ← ih (es ++ [f]) h, List.reverse_append,
        List.reverse_singleton, List.singleton_append]

/-- Resolving changes no resolved list. -/
theorem Resolved.resolve_eq {rooted : Bool} {es : List Text} (h : Resolved rooted es) :
    resolve rooted es = es := by
  have hfold := foldl_push_of_resolved [] es (by simpa using h)
  rw [List.reverse_nil, List.nil_append] at hfold
  rw [resolve, hfold, List.reverse_reverse]

/-- Resolving the first part beforehand changes nothing. -/
theorem resolve_resolve_append (rooted : Bool) (es fs : List Text) :
    resolve rooted (resolve rooted es ++ fs) = resolve rooted (es ++ fs) := by
  rw [resolve_append, (resolve_resolved rooted es).resolve_eq, resolve_append]

/-- Names can follow any resolved list. -/
theorem Resolved.append_of_notMem {rooted : Bool} {es fs : List Text} (h : Resolved rooted es)
    (hfs : parentElement ∉ fs) : Resolved rooted (es ++ fs) := by
  obtain ⟨ups, names, rfl, hnames, hups⟩ := h
  refine ⟨ups, names ++ fs, List.append_assoc _ _ _, ?_, hups⟩
  intro hm
  rcases List.mem_append.1 hm with hm | hm
  · exact hnames hm
  · exact hfs hm

/-- Elements that were resolved without a root leave the stack that they would have left before. -/
theorem foldl_push_resolved (rooted : Bool) (es stack : List Text) :
    (resolve false es).foldl (pushElement rooted) stack = es.foldl (pushElement rooted) stack := by
  induction es using List.reverseRecOn with
  | nil => rfl
  | append_singleton es e ih =>
      have hstep : resolve false (es ++ [e]) =
          (pushElement false (resolve false es).reverse e).reverse := resolve_append false es [e]
      rw [List.foldl_append, ← ih, ← List.foldl_append, hstep]
      generalize resolve false es = rs
      by_cases he : e = parentElement
      · subst he
        cases rs using List.reverseRecOn with
        | nil => rfl
        | append_singleton rs top =>
            rw [List.reverse_append, List.reverse_singleton, List.singleton_append]
            by_cases htop : top = parentElement
            · simp [pushElement, htop]
            -- The `..` takes off the name in front of it in either order.
            · rw [pushElement_parent_name htop, List.reverse_reverse, List.foldl_append,
                List.foldl_append]
              simp only [List.foldl_cons, List.foldl_nil]
              rw [pushElement_name htop, pushElement_parent_name htop]
      · rw [pushElement_name he, List.reverse_cons, List.reverse_reverse]

/-- Resolving the second part beforehand changes nothing either. -/
theorem resolve_append_resolve (rooted : Bool) (es fs : List Text) :
    resolve rooted (es ++ resolve false fs) = resolve rooted (es ++ fs) := by
  rw [resolve_append, resolve_append, foldl_push_resolved]

/-- What resolves to names by itself follows the first part as these names. -/
theorem resolve_append_of_notMem (rooted : Bool) {es fs : List Text}
    (h : parentElement ∉ resolve false fs) :
    resolve rooted (es ++ fs) = resolve rooted es ++ resolve false fs := by
  have hresolved := (resolve_resolved rooted es).append_of_notMem h
  rw [← resolve_append_resolve, resolve_append, foldl_push_of_resolved _ _ hresolved,
    List.reverse_reverse]

/-- Elements that go up by themselves start with a `..` once they are resolved. It takes off the
element in front of them, and leaves the rest. -/
theorem exists_resolve_cons_erased {e : Text} {es : List Text} (he : e ≠ parentElement)
    (h : parentElement ∈ resolve false es) :
    ∃ rest, resolve false es = parentElement :: rest ∧ Resolved false rest ∧
      resolve false (e :: es) = rest := by
  have hresolved := resolve_resolved false es
  cases hcase : resolve false es with
  | nil =>
      rw [hcase] at h
      cases h
  | cons up rest =>
      rw [hcase] at h hresolved
      obtain rfl : up = parentElement := by
        by_contra hup
        exact hresolved.notMem_cons hup h
      have happend : Resolved false ([parentElement] ++ rest) := hresolved
      refine ⟨rest, rfl, happend.of_append_right, ?_⟩
      rw [← List.singleton_append, ← resolve_append_resolve, hcase, List.singleton_append, resolve,
        List.foldl_cons, List.foldl_cons, pushElement_name he, pushElement_parent_name he]
      exact happend.of_append_right.resolve_eq

/-- As many `..` as there are names on top of the stack take off exactly these names. -/
theorem foldl_push_parents (rooted : Bool) {names : List Text} (h : parentElement ∉ names)
    (stack : List Text) :
    (List.replicate names.length parentElement).foldl (pushElement rooted) (names ++ stack) =
      stack := by
  induction names with
  | nil => rfl
  | cons top names ih =>
      have htop : top ≠ parentElement := fun ht => h (by simp [ht])
      rw [List.length_cons, List.replicate_succ, List.foldl_cons, List.cons_append,
        pushElement_parent_name htop]
      exact ih fun hm => h (List.mem_cons_of_mem _ hm)

/-- One element more leaves elements of the stack, in their order. -/
theorem push_sublist (rooted : Bool) (stack : List Text) (e : Text) :
    (pushElement rooted stack e).Sublist (e :: stack) := by
  by_cases he : e = parentElement
  · subst he
    cases stack with
    | nil =>
        cases rooted with
        | true => exact List.nil_sublist _
        | false => exact List.Sublist.refl _
    | cons top rest =>
        by_cases htop : top = parentElement
        · rw [pushElement, if_pos rfl, htop]
          exact List.Sublist.refl _
        -- The name below goes with the `..`.
        · rw [pushElement_parent_name htop]
          exact (List.sublist_cons_self _ _).trans (List.sublist_cons_self _ _)
  · have hpush := pushElement_name he rooted stack
    exact hpush ▸ List.Sublist.refl _

theorem foldl_push_sublist (rooted : Bool) (es stack : List Text) :
    (es.foldl (pushElement rooted) stack).Sublist (es.reverse ++ stack) := by
  induction es generalizing stack with
  | nil => exact List.Sublist.refl _
  | cons e es ih =>
      rw [List.foldl_cons, List.reverse_cons, List.append_assoc, List.singleton_append]
      exact (ih _).trans ((push_sublist rooted stack e).append_left es.reverse)

/-- Resolving leaves elements that were there before, in their order. -/
theorem resolve_sublist (rooted : Bool) (es : List Text) : (resolve rooted es).Sublist es := by
  have hstack := (foldl_push_sublist rooted es []).reverse
  rwa [List.append_nil, List.reverse_reverse] at hstack

/-- Every element that is left was there before. -/
theorem mem_of_mem_resolve {rooted : Bool} {es : List Text} {e : Text}
    (h : e ∈ resolve rooted es) : e ∈ es :=
  (resolve_sublist rooted es).mem h

end PathAlgebra
