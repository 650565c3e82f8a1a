import Mathlib.Data.List.TakeWhile
import PathAlgebra.Join
import PathAlgebra.Proofs.Cleaning

/-!
# Joining elements

Joined elements are put together and cleaned. Under the POSIX dialect they stand with a separator
between any two of them, so the result is spelled from the elements of all (`join_posix`). Under the
Windows dialect one element after the other goes behind the first that is not empty
(`concat_windows`): behind a slash at the end of the base (`attach_slash`) or with a separator of
its own (`attach_name`). `Attached` lists all the ways in which it can stand there; in each of them
the result starts with the base (`Attached.isPrefix`), and behind anything but a colon its elements
are those of the base and then those of the element (`elements_attached`).

POSIX elements may be grouped from the left (`join_join_append`).
-/

set_option autoImplicit false

namespace PathAlgebra

/-- Without a slash there is none to drop. -/
theorem dropWhile_isSlash {e : Text} (he : ∀ x ∈ e, isSlash x = false) :
    e.dropWhile isSlash = e := by
  cases e with
  | nil => rfl
  | cons x e => rw [List.dropWhile_cons_of_neg (by simp [he x List.mem_cons_self])]

/-- Behind a slash that is not the whole base, an element follows directly. -/
theorem attach_slash {b e : Text} {c : Char} (hlen : b.length ≠ 1) (hc : isSlash c = true)
    (hb : b.getLast? = some c) (he : ∀ x ∈ e, isSlash x = false) : attach b e = b ++ e := by
  rw [attach, hb]
  simp [hc, dropWhile_isSlash he, hlen]

/-- Behind a character that is neither a slash nor a colon, an element gets a separator. -/
theorem attach_name {b e : Text} {c : Char} (hb : b.getLast? = some c) (hc : isSlash c = false)
    (hcolon : c ≠ ':') : attach b e = b ++ '\\' :: e := by
  rw [attach, hb]
  simp [hc, hcolon]

/-- How an element can stand behind a base that is not empty: behind a slash without its own leading
slashes, the same with a `.` element in between, right behind a colon, or behind a separator. -/
inductive Attached (b e : Text) : Text → Prop where
  | behindSlash {u : Text} {c : Char} : b = u ++ [c] → isSlash c = true →
      (u = [] → hasPrefixFold (e.dropWhile isSlash) ['?', '?'] = false) →
      Attached b e (b ++ e.dropWhile isSlash)
  | shielded {c : Char} : b = [c] → isSlash c = true →
      hasPrefixFold (e.dropWhile isSlash) ['?', '?'] = true →
      Attached b e (b ++ '.' :: '\\' :: e.dropWhile isSlash)
  | behindColon {u : Text} : b = u ++ [':'] → Attached b e (b ++ e)
  | separated {u : Text} {c : Char} : b = u ++ [c] → isSlash c = false → c ≠ ':' →
      Attached b e (b ++ '\\' :: e)

theorem attached {b : Text} (hb : b ≠ []) (e : Text) : Attached b e (attach b e) := by
  obtain ⟨u, c, rfl⟩ : ∃ u c, b = u ++ [c] := ⟨_, _, (List.dropLast_concat_getLast hb).symm⟩
  have hlast : (u ++ [c]).getLast? = some c := List.getLast?_concat
  by_cases hc : isSlash c = true
  · by_cases hshield : u = [] ∧ hasPrefixFold (e.dropWhile isSlash) ['?', '?'] = true
    · obtain ⟨rfl, hfold⟩ := hshield
      have hattach : attach [c] e = [c] ++ '.' :: '\\' :: e.dropWhile isSlash := by
        simp [attach, hc, hfold]
      rw [List.nil_append, hattach]
      exact .shielded rfl hc hfold
    · have hattach : attach (u ++ [c]) e = u ++ [c] ++ e.dropWhile isSlash := by
        rw [attach, hlast]
        simp only [hc, if_true]
        rw [if_neg]
        simpa using hshield
      rw [hattach]
      exact .behindSlash rfl hc fun hu => Bool.eq_false_iff.2 fun hfold => hshield ⟨hu, hfold⟩
  · have hslash : isSlash c = false := Bool.eq_false_iff.2 hc
    by_cases hcolon : c = ':'
    · have hattach : attach (u ++ [c]) e = u ++ [c] ++ e := by
        rw [attach, hlast]
        simp [hcolon, isSlash]
      rw [hattach]
      exact .behindColon (by rw [hcolon])
    · rw [attach_name hlast hslash hcolon]
      exact .separated rfl hslash hcolon

namespace Attached

variable {b e q : Text}

/-- An element only adds to the base. -/
theorem isPrefix (h : Attached b e q) : b <+: q := by
  cases h with
  | behindSlash => exact List.prefix_append _ _
  | shielded => exact List.prefix_append _ _
  | behindColon => exact List.prefix_append _ _
  | separated => exact List.prefix_append _ _

/-- Only separators and dots are added to the characters of the base and of the element. -/
theorem notMem (h : Attached b e q) {c : Char} (hback : c ≠ '\\') (hdot : c ≠ '.') (hb : c ∉ b)
    (he : c ∉ e) : c ∉ q := by
  have hdrop : c ∉ e.dropWhile isSlash := fun hm => he ((List.dropWhile_sublist _).subset hm)
  cases h with
  | behindSlash => simp [hb, hdrop]
  | shielded => simp [hb, hdot, hback, hdrop]
  | behindColon => simp only [List.mem_append, hb, he, or_self, not_false_eq_true]
  | separated => simp [hb, hback, he]

end Attached

namespace Dialect

variable {d : Dialect}

/-- Separators in front of a text make no element. -/
theorem elements_dropWhile (e : Text) :
    windows.elements (e.dropWhile isSlash) = windows.elements e := by
  induction e with
  | nil => rfl
  | cons c e ih =>
      by_cases hc : isSlash c = true
      · have hsep : windows.isSep c = true := hc
        rw [List.dropWhile_cons_of_pos hc, ih, elements_sep_cons hsep]
      · rw [List.dropWhile_cons_of_neg hc]

/-- Behind anything but a colon an element adds its own elements to those of the base. -/
theorem elements_attached {b e q : Text} (h : Attached b e q) (hcolon : b.getLast? ≠ some ':') :
    windows.elements q = windows.elements b ++ windows.elements e := by
  have hlast (u : Text) {c : Char} (hc : windows.isSep c = true) :
      windows.elements (u ++ [c]) = windows.elements u := by
    rw [elements_append_sep hc, elements_nil, List.append_nil]
  cases h with
  | @behindSlash u c hb hc hfold =>
      have hsep : windows.isSep c = true := hc
      rw [hb, List.append_assoc, List.singleton_append, elements_append_sep hsep, hlast u hsep,
        elements_dropWhile]
  | @shielded c hb hc hfold =>
      have hsep : windows.isSep c = true := hc
      have hdot := elements_append_sep (isSep_sep windows) ['.'] (e.dropWhile isSlash)
      rw [elements_dot, List.nil_append] at hdot
      rw [hb, List.singleton_append, elements_sep_cons hsep, elements_sep_cons hsep, elements_nil,
        List.nil_append, ← elements_dropWhile e]
      exact hdot
  | @behindColon u hb =>
      rw [hb, List.getLast?_concat] at hcolon
      exact absurd rfl hcolon
  | separated hb hslash hname => exact elements_append_sep (isSep_sep windows) b e

/-! ## Joined paths -/

theorem join_eq_clean {es : List Text} (h : d.concat es ≠ []) :
    d.join es = d.clean (d.concat es) := by
  rw [join]
  split
  · next hnil => exact absurd hnil h
  · rfl

/-- Without any other elements there is nothing to join. -/
theorem join_of_empty (d : Dialect) {es : List Text} (h : ∀ e ∈ es, e = []) : d.join es = [] := by
  have hconcat : d.concat es = [] := by
    cases d with
    | posix =>
        have hdrop : es.dropWhile List.isEmpty = [] :=
          List.dropWhile_eq_nil_iff.2 fun e he => by rw [h e he]; rfl
        rw [concat, hdrop]
        rfl
    | windows =>
        induction es with
        | nil => rfl
        | cons e es ih =>
            rw [h e List.mem_cons_self]
            exact ih fun f hf => h f (List.mem_cons_of_mem _ hf)
  rw [join, hconcat]

/-- In front of the first element that is not empty there are empty ones. -/
theorem exists_first {es : List Text} {e : Text} (h : es.find? (fun e => e ≠ []) = some e) :
    e ≠ [] ∧ ∃ empty rest, es = empty ++ e :: rest ∧ ∀ x ∈ empty, x = [] := by
  obtain ⟨he, empty, rest, heq, hempty⟩ := List.find?_eq_some_iff_append.1 h
  exact ⟨by simpa using he, empty, rest, heq, by simpa using hempty⟩

section First

variable {empty rest : List Text} {e : Text}

theorem concat_windows (hempty : ∀ x ∈ empty, x = []) :
    windows.concat (empty ++ e :: rest) = rest.foldl attach e := by
  induction empty with
  | nil => rfl
  | cons x empty ih =>
      rw [hempty x List.mem_cons_self]
      exact ih fun y hy => hempty y (List.mem_cons_of_mem x hy)

theorem concat_posix (hempty : ∀ x ∈ empty, x = []) (he : e ≠ []) :
    posix.concat (empty ++ e :: rest) = [posix.sep].intercalate (e :: rest) := by
  have hdrop : (empty ++ e :: rest).dropWhile List.isEmpty = e :: rest := by
    rw [List.dropWhile_append_of_pos fun x hx => by rw [hempty x hx]; rfl,
      List.dropWhile_cons_of_neg (by simpa using he)]
  rw [concat, hdrop]

/-- Empty elements add nothing. -/
theorem flatMap_elements (hempty : ∀ x ∈ empty, x = []) :
    (empty ++ e :: rest).flatMap d.elements = d.elements e ++ rest.flatMap d.elements := by
  have hnil : empty.flatMap d.elements = [] := by
    rw [List.flatMap_eq_nil_iff]
    intro x hx
    rw [hempty x hx, elements_nil]
  rw [List.flatMap_append, hnil, List.nil_append, List.flatMap_cons]

end First

/-- POSIX elements are joined by all their elements, behind the root of the first that is not
empty. -/
theorem join_posix {es : List Text} {e : Text} (h : es.find? (fun e => e ≠ []) = some e) :
    posix.join es = posix.writeElements (posix.isRooted e)
      (resolve (posix.isRooted e) (es.flatMap posix.elements)) := by
  obtain ⟨he, empty, rest, rfl, hempty⟩ := exists_first h
  obtain ⟨c, e, rfl⟩ := List.exists_cons_of_ne_nil he
  obtain ⟨t, hconcat⟩ : ∃ t, [posix.sep].intercalate ((c :: e) :: rest) = c :: t := by
    by_cases hrest : rest = []
    · rw [hrest, List.intercalate_singleton]
      exact ⟨e, rfl⟩
    · rw [List.intercalate_cons_of_ne_nil hrest]
      exact ⟨_, rfl⟩
  have hconcat' : posix.concat (empty ++ (c :: e) :: rest) = c :: t :=
    (concat_posix hempty he).trans hconcat
  have helements : posix.elements (c :: t) = ((c :: e) :: rest).flatMap posix.elements := by
    rw [← hconcat, elements_intercalate_texts]
  rw [join_eq_clean (by rw [hconcat']; exact List.cons_ne_nil c t), hconcat', clean_posix,
    normalForm_eq, resolvedElements, helements, flatMap_elements hempty, List.flatMap_cons]
  rfl

/-- A text that is not rooted, joined to a base, goes on from the elements of the base. -/
theorem join_posix_pair (base : Text) {r : Text} (hr : r ≠ [])
    (hrooted : posix.isRooted r = false) :
    posix.join [base, r] = posix.writeElements (posix.isRooted base)
      (resolve (posix.isRooted base) (posix.elements base ++ posix.elements r)) := by
  have hflat : [base, r].flatMap posix.elements = posix.elements base ++ posix.elements r := by
    rw [List.flatMap_cons, List.flatMap_singleton]
  by_cases hbase : base = []
  · have hroot : posix.isRooted base = posix.isRooted r := by
      rw [hbase, hrooted]
      rfl
    rw [hroot, ← hflat]
    apply join_posix
    rw [hbase, List.find?_cons_of_neg (by simp), List.find?_cons_of_pos (by simpa using hr)]
  · rw [← hflat]
    apply join_posix
    rw [List.find?_cons_of_pos (by simpa using hbase)]

/-! ## Grouped joins -/

/-- Empty elements in front count for nothing. -/
theorem join_append_of_empty {xs : List Text} (h : ∀ x ∈ xs, x = []) (ys : List Text) :
    posix.join (xs ++ ys) = posix.join ys := by
  have hdrop : (xs ++ ys).dropWhile List.isEmpty = ys.dropWhile List.isEmpty :=
    List.dropWhile_append_of_pos fun x hx => by rw [h x hx]; rfl
  rw [join, join, concat, concat, hdrop]

/-- Joined POSIX elements make a path that is rooted as the first element that is not empty, and
that has the elements of all, resolved. -/
theorem join_posix_parts {es : List Text} {e : Text} (h : es.find? (fun e => e ≠ []) = some e) :
    posix.join es ≠ [] ∧ posix.isRooted (posix.join es) = posix.isRooted e ∧
      posix.elements (posix.join es) =
        resolve (posix.isRooted e) (es.flatMap posix.elements) := by
  have helements : ∀ f ∈ resolve (posix.isRooted e) (es.flatMap posix.elements),
      IsElement posix f := by
    intro f hf
    obtain ⟨t, -, ht⟩ := List.mem_flatMap.1 (mem_of_mem_resolve hf)
    exact isElement_of_mem_elements ht
  rw [join_posix h]
  exact ⟨writeElements_ne_nil posix _ _, isRooted_writeElements helements,
    elements_writeElements helements⟩

/-- POSIX elements may be joined in two goes: first some of them, and then the result with the
others behind it. -/
theorem join_join_append (xs ys : List Text) :
    posix.join (posix.join xs :: ys) = posix.join (xs ++ ys) := by
  cases hfirst : xs.find? (fun e => e ≠ []) with
  | none =>
      -- Without any other element, the first go gives an empty one, which counts for nothing.
      have hempty : ∀ x ∈ xs, x = [] := by simpa using hfirst
      have hnil : ∀ x ∈ [([] : Text)], x = [] := by simp
      rw [join_of_empty posix hempty, join_append_of_empty hempty]
      exact join_append_of_empty hnil ys
  | some e =>
      obtain ⟨hne, hrooted, helements⟩ := join_posix_parts hfirst
      have hgrouped : (posix.join xs :: ys).find? (fun e => e ≠ []) = some (posix.join xs) :=
        List.find?_cons_of_pos (by simpa using hne)
      have hall : (xs ++ ys).find? (fun e => e ≠ []) = some e := by
        rw [List.find?_append, hfirst]
        rfl
      -- What a later `..` takes off is the same whether or not the first elements are resolved.
      rw [join_posix hgrouped, join_posix hall, hrooted, List.flatMap_cons, List.flatMap_append,
        helements, resolve_resolve_append]

end Dialect

end PathAlgebra
