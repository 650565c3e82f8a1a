import Mathlib.Data.List.Forall2
import Mathlib.Data.List.Induction
import Mathlib.Data.List.TakeWhile
import PathAlgebra.Text.Basic

/-!
# Lists

Facts about lists that hold whatever the lists stand for: predicates that agree on a list cut it
alike (`takeWhile_congr`, `splitOnP_congr`), lists are put together with a separator between any two
of them (`intercalate_append`, `mem_intercalate`, `map_intercalate`), two lists part behind what they
share (`exists_shared_beginning`), and one element more at the end changes little
(`forall₂_concat_iff`, `findIdx_concat`).

The last section is about the last run of a text, the characters behind its last separator.
`Text.lastRun_append` reads it off, and `Text.beforeLastRun_cases` says what stands in front of it.
-/

set_option autoImplicit false

namespace PathAlgebra

variable {α β : Type}

/-! ## Cuts at the same elements -/

section Cuts

variable {p q : α → Bool} {l : List α}

theorem takeWhile_congr (h : ∀ a ∈ l, p a = q a) : l.takeWhile p = l.takeWhile q := by
  induction l with
  | nil => rfl
  | cons a l ih =>
      rw [List.takeWhile_cons, List.takeWhile_cons, h a List.mem_cons_self,
        ih fun x hx => h x (List.mem_cons_of_mem a hx)]

theorem dropWhile_congr (h : ∀ a ∈ l, p a = q a) : l.dropWhile p = l.dropWhile q := by
  have hsplit := List.takeWhile_append_dropWhile (p := p) (l := l)
  rw [takeWhile_congr h] at hsplit
  exact List.append_cancel_left (hsplit.trans List.takeWhile_append_dropWhile.symm)

theorem splitOnP_congr (h : ∀ a ∈ l, p a = q a) : l.splitOnP p = l.splitOnP q := by
  induction l with
  | nil => rfl
  | cons a l ih =>
      rw [List.splitOnP_cons_eq_if_modifyHead, List.splitOnP_cons_eq_if_modifyHead,
        h a List.mem_cons_self, ih fun x hx => h x (List.mem_cons_of_mem a hx)]

end Cuts

/-- Changed elements are cut where the elements were cut, when the change keeps what cuts them. -/
theorem splitOnP_map {f : α → β} {p : α → Bool} {q : β → Bool} (h : ∀ a, q (f a) = p a)
    (l : List α) : (l.map f).splitOnP q = (l.splitOnP p).map (List.map f) := by
  induction l with
  | nil => rfl
  | cons a l ih =>
      rw [List.map_cons, List.splitOnP_cons_eq_if_modifyHead, List.splitOnP_cons_eq_if_modifyHead,
        h, ih]
      split
      · rfl
      · cases l.splitOnP p with
        | nil => rfl
        | cons e es => rfl

/-! ## Lists with a separator between any two of them -/

section Intercalate

variable {c x : α} {e : List α} {es fs : List (List α)}

/-- Lists with a separator between any two of them, in two parts. -/
theorem intercalate_append (hes : es ≠ []) (hfs : fs ≠ []) :
    [c].intercalate (es ++ fs) = [c].intercalate es ++ c :: [c].intercalate fs := by
  induction es with
  | nil => exact absurd rfl hes
  | cons e es ih =>
      cases es with
      | nil =>
          rw [List.singleton_append, List.intercalate_cons_of_ne_nil hfs,
            List.intercalate_singleton, List.append_assoc, List.singleton_append]
      | cons e' es =>
          have ih' := ih (List.cons_ne_nil e' es)
          rw [List.cons_append, List.intercalate_cons_of_ne_nil (by simp), ih',
            List.intercalate_cons_cons, List.append_assoc _ _ (c :: _)]

theorem mem_intercalate (h : x ∈ [c].intercalate es) : x = c ∨ ∃ e ∈ es, x ∈ e := by
  induction es with
  | nil => simp at h
  | cons e es ih =>
      by_cases hes : es = []
      · rw [hes, List.intercalate_singleton] at h
        exact Or.inr ⟨e, List.mem_cons_self, h⟩
      · rw [List.intercalate_cons_of_ne_nil hes, List.append_assoc] at h
        rcases List.mem_append.1 h with h | h
        · exact Or.inr ⟨e, List.mem_cons_self, h⟩
        · rcases List.mem_cons.1 h with h | h
          · exact Or.inl h
          · rcases ih h with h | ⟨f, hf, hx⟩
            · exact Or.inl h
            · exact Or.inr ⟨f, List.mem_cons_of_mem _ hf, hx⟩

theorem mem_intercalate_of_mem (he : e ∈ es) (hx : x ∈ e) : x ∈ [c].intercalate es := by
  induction es with
  | nil => cases he
  | cons f es ih =>
      cases es with
      | nil =>
          rw [List.mem_singleton.1 he] at hx
          rw [List.intercalate_singleton]
          exact hx
      | cons f' es =>
          rw [List.intercalate_cons_of_ne_nil (List.cons_ne_nil f' es)]
          rcases List.mem_cons.1 he with rfl | he
          · simp [hx]
          · exact List.mem_append_right _ (ih he)

theorem intercalate_eq_nil_iff (h : ∀ e ∈ es, e ≠ []) : [c].intercalate es = [] ↔ es = [] := by
  constructor
  · intro hnil
    cases es with
    | nil => rfl
    | cons e es =>
        cases es with
        | nil => exact absurd (by simpa using hnil) (h e List.mem_cons_self)
        | cons e' es => simp at hnil
  · rintro rfl
    rfl

theorem map_intercalate (f : α → β) (c : α) (es : List (List α)) :
    ([c].intercalate es).map f = [f c].intercalate (es.map (List.map f)) := by
  induction es with
  | nil => rfl
  | cons e es ih =>
      by_cases hes : es = []
      · rw [hes, List.intercalate_singleton, List.map_singleton, List.intercalate_singleton]
      · have hmap : es.map (List.map f) ≠ [] := by simpa using hes
        rw [List.intercalate_cons_of_ne_nil hes, List.map_append, List.map_append, ih,
          List.map_singleton, List.map_cons, List.intercalate_cons_of_ne_nil hmap]

end Intercalate

/-! ## Two lists side by side -/

/-- Two lists part behind their longest common beginning. -/
theorem exists_shared_beginning (as bs : List α) :
    ∃ cs us vs, as = cs ++ us ∧ bs = cs ++ vs ∧ (us.head? = vs.head? → us = [] ∧ vs = []) := by
  induction as generalizing bs with
  | nil =>
      refine ⟨[], [], bs, rfl, rfl, fun h => ⟨rfl, ?_⟩⟩
      exact List.head?_eq_none_iff.1 h.symm
  | cons a as ih =>
      cases bs with
      | nil => exact ⟨[], a :: as, [], rfl, rfl, fun h => by simp at h⟩
      | cons b bs =>
          -- Equal heads join the shared beginning; the first different ones end it.
          by_cases hab : a = b
          · obtain ⟨cs, us, vs, rfl, rfl, hparts⟩ := ih bs
            exact ⟨b :: cs, us, vs, by rw [hab]; rfl, rfl, hparts⟩
          · refine ⟨[], a :: as, b :: bs, rfl, rfl, fun h => ?_⟩
            exact absurd (Option.some.inj h) hab

/-- The order of two lists of one length is not changed by what follows them. -/
theorem append_lt_append [LT α] {as bs us vs : List α} (hlen : as.length = bs.length)
    (h : as < bs) : as ++ us < bs ++ vs := by
  induction as generalizing bs with
  | nil =>
      rw [List.length_nil] at hlen
      rw [List.length_eq_zero_iff.1 hlen.symm] at h
      cases h
  | cons a as ih =>
      cases bs with
      | nil => cases h
      | cons b bs =>
          rw [List.cons_append, List.cons_append, List.cons_lt_cons_iff]
          rcases List.cons_lt_cons_iff.1 h with hlt | ⟨heq, hlt⟩
          · exact .inl hlt
          · exact .inr ⟨heq, ih (Nat.succ.inj hlen) hlt⟩

/-- Lists related to a list and one more element end with an element related to it. -/
theorem forall₂_concat_iff {r : α → β → Prop} {as : List α} {a : α} {rs : List β} :
    List.Forall₂ r (as ++ [a]) rs ↔
      ∃ bs b, rs = bs ++ [b] ∧ List.Forall₂ r as bs ∧ r a b := by
  induction as generalizing rs with
  | nil =>
      rw [List.nil_append, List.forall₂_cons_left_iff]
      constructor
      · rintro ⟨b, bs, hab, hnil, rfl⟩
        cases hnil
        exact ⟨[], b, rfl, .nil, hab⟩
      · rintro ⟨bs, b, rfl, hnil, hab⟩
        cases hnil
        exact ⟨b, [], hab, .nil, rfl⟩
  | cons c as ih =>
      rw [List.cons_append, List.forall₂_cons_left_iff]
      constructor
      · rintro ⟨x, rest, hcx, hrest, rfl⟩
        obtain ⟨bs, b, rfl, hbs, hab⟩ := ih.1 hrest
        exact ⟨x :: bs, b, rfl, .cons hcx hbs, hab⟩
      · rintro ⟨bs, b, rfl, hbs, hab⟩
        cases hbs with
        | @cons _ x _ bs hcx hbs => exact ⟨x, bs ++ [b], hcx, ih.2 ⟨bs, b, rfl, hbs, hab⟩, rfl⟩

/-- One element more does not move the first one that `p` accepts, nor the place behind the last. -/
theorem findIdx_concat {p : α → Bool} {as : List α} {a : α} (h : (as ++ [a]).any p = true) :
    (as ++ [a]).findIdx p = as.findIdx p := by
  cases has : as.any p with
  | false =>
      have ha : p a = true := by simpa [List.any_append, has] using h
      have hend : as.findIdx p = as.length := List.findIdx_eq_length.2 (by simpa using has)
      rw [List.findIdx_append, hend, if_neg (Nat.lt_irrefl _), List.findIdx_cons, ha]
      simp
  | true =>
      have hlt : as.findIdx p < as.length := List.findIdx_lt_length.2 (by simpa using has)
      rw [List.findIdx_append, if_pos hlt]

/-! ## Last runs -/

namespace Text

variable {f g : Char → Bool} {t : Text}

theorem lastRun_congr (h : ∀ c ∈ t, f c = g c) : lastRun f t = lastRun g t := by
  rw [lastRun, lastRun,
    takeWhile_congr fun c hc => congrArg not (h c (List.mem_reverse.1 hc))]

theorem beforeLastRun_congr (h : ∀ c ∈ t, f c = g c) : beforeLastRun f t = beforeLastRun g t := by
  rw [beforeLastRun, beforeLastRun,
    dropWhile_congr fun c hc => congrArg not (h c (List.mem_reverse.1 hc))]

/-- What is in front of the last run ends with a separator. -/
theorem isSep_of_getLast?_beforeLastRun {c : Char} (h : c ∈ (beforeLastRun f t).getLast?) :
    f c = true := by
  have hhead := List.head?_dropWhile_not (fun c => !f c) t.reverse
  rw [beforeLastRun, List.getLast?_reverse] at h
  rw [h] at hhead
  simpa using hhead

/-- In front of the last run there is nothing or a text that ends with a separator. -/
theorem beforeLastRun_cases (f : Char → Bool) (t : Text) :
    beforeLastRun f t = [] ∨ ∃ u c, beforeLastRun f t = u ++ [c] ∧ f c = true := by
  rcases List.eq_nil_or_concat (beforeLastRun f t) with h | ⟨u, c, h⟩
  · exact .inl h
  · rw [List.concat_eq_append] at h
    refine .inr ⟨u, c, h, isSep_of_getLast?_beforeLastRun (t := t) ?_⟩
    rw [h, List.getLast?_concat]
    rfl

/-- A run behind a separator, or behind nothing, is the last run. -/
theorem lastRun_append {e : Text} (ht : ∀ c ∈ t.getLast?, f c = true) (he : ∀ c ∈ e, f c = false) :
    lastRun f (t ++ e) = e := by
  have hall : ∀ c ∈ e.reverse, (!f c) = true := by
    intro c hc
    rw [he c (List.mem_reverse.1 hc)]
    rfl
  have hstop : t.reverse.takeWhile (fun c => !f c) = [] := by
    rcases List.eq_nil_or_concat t with rfl | ⟨u, c, rfl⟩
    · rfl
    · simp [ht c (by simp)]
  rw [lastRun, List.reverse_append, List.takeWhile_append_of_pos hall, hstop,
    List.append_nil, List.reverse_reverse]

theorem beforeLastRun_append {e : Text} (ht : ∀ c ∈ t.getLast?, f c = true)
    (he : ∀ c ∈ e, f c = false) : beforeLastRun f (t ++ e) = t := by
  have hboth := beforeLastRun_append_lastRun f (t ++ e)
  rw [lastRun_append ht he] at hboth
  exact List.append_cancel_right hboth

/-- A text without a separator is its own last run. -/
theorem lastRun_eq_self (ht : ∀ c ∈ t, f c = false) : lastRun f t = t :=
  lastRun_append (t := []) (by simp) ht

/-- A text in front does not change the last run of a text with a separator. -/
theorem lastRun_append_of_mem {c : Char} (hc : c ∈ t) (hsep : f c = true) (u : Text) :
    lastRun f (u ++ t) = lastRun f t := by
  have hcut := beforeLastRun_append_lastRun f t
  rcases beforeLastRun_cases f t with hnil | ⟨v, a, hbefore, ha⟩
  · rw [hnil, List.nil_append] at hcut
    rw [← hcut] at hc
    rw [not_isSep_of_mem_lastRun hc] at hsep
    cases hsep
  · conv_lhs => rw [← hcut, ← List.append_assoc]
    apply lastRun_append
    · intro b hb
      rw [hbefore, ← List.append_assoc, List.getLast?_concat] at hb
      rw [← Option.some.inj hb]
      exact ha
    · exact fun b hb => not_isSep_of_mem_lastRun hb

end Text

end PathAlgebra
