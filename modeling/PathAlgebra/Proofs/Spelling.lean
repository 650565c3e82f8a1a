import PathAlgebra.Proofs.Lists
import PathAlgebra.Proofs.Resolution

/-!
# Spelling elements

An element that a path can keep is not empty, not `.`, and holds no separator. Such elements are
spelled with native separators between them, after a root separator if there is one. The elements of
a text are of this kind (`isElement_of_mem_elements`), a separator cuts them apart
(`elements_append_sep`), and the spelling of elements is read back as the same elements
(`elements_writeElements`). So the spelling of a resolved list is its own normal form
(`normalForm_writeElements`), and two texts have the same normal form when they have the same root
and the same resolved elements (`normalForm_eq_iff`). A change of characters that keeps dots and
separators can be made in the elements or in their spelling (`map_writeElements`).
-/

set_option autoImplicit false

namespace PathAlgebra

/-- An element that a path can keep. -/
structure IsElement (d : Dialect) (e : Text) : Prop where
  ne_nil : e ≠ []
  ne_dot : e ≠ ['.']
  no_sep : ∀ c ∈ e, d.isSep c = false

instance (d : Dialect) (e : Text) : Decidable (IsElement d e) :=
  decidable_of_iff (e ≠ [] ∧ e ≠ ['.'] ∧ (e.all fun c => !d.isSep c) = true)
    ⟨fun ⟨hne, hdot, hsep⟩ => ⟨hne, hdot, by simpa using hsep⟩,
      fun ⟨hne, hdot, hsep⟩ => ⟨hne, hdot, by simpa using hsep⟩⟩

/-- A run of characters between separators. A `.` is a run, but no element. -/
def IsRun (d : Dialect) (e : Text) : Prop := e ≠ [] ∧ ∀ c ∈ e, d.isSep c = false

@[simp] theorem isRun_iff {d : Dialect} {e : Text} :
    IsRun d e ↔ e ≠ [] ∧ ∀ c ∈ e, d.isSep c = false := Iff.rfl

instance (d : Dialect) (e : Text) : Decidable (IsRun d e) :=
  decidable_of_iff (e ≠ [] ∧ (e.all fun c => !d.isSep c) = true)
    ⟨fun ⟨hne, hsep⟩ => ⟨hne, by simpa using hsep⟩, fun ⟨hne, hsep⟩ => ⟨hne, by simpa using hsep⟩⟩

theorem IsElement.isRun {d : Dialect} {e : Text} (h : IsElement d e) : IsRun d e :=
  ⟨h.ne_nil, h.no_sep⟩

theorem isRun_dot (d : Dialect) : IsRun d ['.'] := by cases d <;> decide

theorem isElement_parent (d : Dialect) : IsElement d parentElement where
  ne_nil := by decide
  ne_dot := by decide
  no_sep := by cases d <;> simp [parentElement, Dialect.isSep, isSlash]

theorem IsRun.sep_notMem {d : Dialect} {e : Text} (h : IsRun d e) : d.sep ∉ e := by
  intro hm
  have hsep := h.2 d.sep hm
  simp at hsep

theorem IsElement.sep_notMem {d : Dialect} {e : Text} (h : IsElement d e) : d.sep ∉ e :=
  h.isRun.sep_notMem

namespace Dialect

variable {d : Dialect}

/-- A list of elements as a text, with a separator in front when it is rooted. -/
def spell (d : Dialect) (rooted : Bool) (es : List Text) : Text :=
  (if rooted then [d.sep] else []) ++ [d.sep].intercalate es

/-! ## Elements of a text -/

@[simp] theorem elements_nil (d : Dialect) : d.elements [] = [] := by
  simp [elements]

/-- A separator cuts the elements of a text in two. -/
theorem elements_append_sep {c : Char} (hc : d.isSep c = true) (t u : Text) :
    d.elements (t ++ c :: u) = d.elements t ++ d.elements u := by
  rw [elements, List.splitOnP_append_cons t u hc, List.filter_append]
  rfl

theorem elements_sep_cons {c : Char} (hc : d.isSep c = true) (t : Text) :
    d.elements (c :: t) = d.elements t := by
  have h := elements_append_sep hc [] t
  rwa [elements_nil, List.nil_append, List.nil_append] at h

/-- In front of a separator or the end the elements of a text are complete. -/
theorem elements_append {u : Text} (hu : u = [] ∨ d.isRooted u = true) (t : Text) :
    d.elements (t ++ u) = d.elements t ++ d.elements u := by
  cases u with
  | nil => rw [elements_nil, List.append_nil, List.append_nil]
  | cons c u =>
      have hc : d.isSep c = true := hu.resolve_left (List.cons_ne_nil c u)
      rw [elements_append_sep hc, elements_sep_cons hc]

/-- A text without a separator is one element, if it is one at all. -/
theorem elements_of_noSep {e : Text} (h : ∀ c ∈ e, d.isSep c = false) :
    d.elements e = if e ≠ [] ∧ e ≠ ['.'] then [e] else [] := by
  rw [elements, List.splitOnP_eq_singleton h]
  by_cases he : e ≠ [] ∧ e ≠ ['.']
  · rw [if_pos he, List.filter_cons_of_pos (by simpa using he), List.filter_nil]
  · rw [if_neg he, List.filter_cons_of_neg (by simpa using he), List.filter_nil]

theorem elements_of_isElement {e : Text} (h : IsElement d e) : d.elements e = [e] := by
  rw [elements_of_noSep h.no_sep, if_pos ⟨h.ne_nil, h.ne_dot⟩]

@[simp] theorem elements_dot (d : Dialect) : d.elements ['.'] = [] := by
  rw [elements_of_noSep (by cases d <;> simp [isSep, isSlash])]
  simp

/-- A run without a separator is read up to a separator or the end. -/
theorem takeWhile_noSep {e rest : Text} (he : ∀ c ∈ e, d.isSep c = false)
    (hrest : rest = [] ∨ d.isRooted rest = true) :
    (e ++ rest).takeWhile (fun c => !d.isSep c) = e := by
  rw [List.takeWhile_append_of_pos (by simpa using he)]
  cases rest with
  | nil => simp
  | cons c rest =>
      have hc : d.isSep c = true := hrest.resolve_left (List.cons_ne_nil _ _)
      rw [List.takeWhile_cons_of_neg (by simp [hc]), List.append_nil]

/-- The runs between separators hold characters of the text other than separators. -/
theorem mem_of_mem_splitOnP {t e : Text} (h : e ∈ t.splitOnP d.isSep) :
    ∀ c ∈ e, c ∈ t ∧ d.isSep c = false := by
  induction t generalizing e with
  | nil =>
      rw [List.splitOnP_nil, List.mem_singleton] at h
      simp [h]
  | cons a t ih =>
      have ih' {f : Text} (hf : f ∈ t.splitOnP d.isSep) (c : Char) (hc : c ∈ f) :
          c ∈ a :: t ∧ d.isSep c = false :=
        ⟨List.mem_cons_of_mem a (ih hf c hc).1, (ih hf c hc).2⟩
      -- A separator starts a new run; any other character joins the first run of the rest.
      rw [List.splitOnP_cons_eq_if_modifyHead] at h
      by_cases ha : d.isSep a = true
      · rw [if_pos ha] at h
        rcases List.mem_cons.1 h with rfl | h
        · simp
        · exact ih' h
      · rw [if_neg ha] at h
        obtain ⟨r, rs, hr⟩ := List.exists_cons_of_ne_nil (List.splitOnP_ne_nil d.isSep t)
        rw [hr, List.modifyHead_cons] at h
        rw [hr] at ih'
        rcases List.mem_cons.1 h with rfl | h
        · intro c hc
          rcases List.mem_cons.1 hc with rfl | hc
          · exact ⟨List.mem_cons_self, by simpa using ha⟩
          · exact ih' List.mem_cons_self c hc
        · exact ih' (List.mem_cons_of_mem _ h)

theorem isElement_of_mem_elements {t e : Text} (h : e ∈ d.elements t) : IsElement d e := by
  obtain ⟨hmem, he⟩ := List.mem_filter.1 h
  have he' : e ≠ [] ∧ e ≠ ['.'] := by simpa using he
  exact ⟨he'.1, he'.2, fun c hc => (mem_of_mem_splitOnP hmem c hc).2⟩

theorem mem_of_mem_elements {t e : Text} (h : e ∈ d.elements t) {c : Char} (hc : c ∈ e) : c ∈ t :=
  (mem_of_mem_splitOnP (List.mem_filter.1 h).1 c hc).1

/-- The elements of a text, resolved. -/
def resolvedElements (d : Dialect) (t : Text) : List Text :=
  resolve (d.isRooted t) (d.elements t)

theorem normalForm_eq (d : Dialect) (t : Text) :
    d.normalForm t = d.writeElements (d.isRooted t) (d.resolvedElements t) := rfl

theorem resolvedElements_resolved (d : Dialect) (t : Text) :
    Resolved (d.isRooted t) (d.resolvedElements t) :=
  resolve_resolved _ _

theorem isElement_of_mem_resolve {rooted : Bool} {t e : Text}
    (h : e ∈ resolve rooted (d.elements t)) : IsElement d e :=
  isElement_of_mem_elements (mem_of_mem_resolve h)

theorem isElement_of_mem_resolvedElements {t e : Text} (h : e ∈ d.resolvedElements t) :
    IsElement d e :=
  isElement_of_mem_resolve h

theorem mem_of_mem_resolvedElements {t e : Text} (h : e ∈ d.resolvedElements t) {c : Char}
    (hc : c ∈ e) : c ∈ t :=
  mem_of_mem_elements (mem_of_mem_resolve h) hc

/-! ## Spelled elements -/

/-- Runs without a separator, put together with separators, give their elements back. -/
theorem elements_intercalate_filter {es : List Text} (h : ∀ e ∈ es, ∀ c ∈ e, d.isSep c = false) :
    d.elements ([d.sep].intercalate es) = es.filter fun e => e ≠ [] ∧ e ≠ ['.'] := by
  induction es with
  | nil => exact elements_nil d
  | cons e es ih =>
      have he := elements_of_noSep (h e List.mem_cons_self)
      have ih' := ih fun f hf => h f (List.mem_cons_of_mem _ hf)
      by_cases hes : es = []
      · rw [hes, List.intercalate_singleton, he]
        by_cases hkeep : e ≠ [] ∧ e ≠ ['.'] <;> simp [hkeep]
      · rw [List.intercalate_cons_of_ne_nil hes, List.append_assoc, List.singleton_append,
          elements_append_sep (isSep_sep d), he, ih']
        by_cases hkeep : e ≠ [] ∧ e ≠ ['.']
        · rw [if_pos hkeep, List.filter_cons_of_pos (by simpa using hkeep), List.singleton_append]
        · rw [if_neg hkeep, List.filter_cons_of_neg (by simpa using hkeep), List.nil_append]

theorem filter_isElement {es : List Text} (h : ∀ e ∈ es, IsElement d e) :
    es.filter (fun e => e ≠ [] ∧ e ≠ ['.']) = es := by
  rw [List.filter_eq_self]
  intro e he
  simpa using And.intro (h e he).ne_nil (h e he).ne_dot

theorem elements_intercalate {es : List Text} (h : ∀ e ∈ es, IsElement d e) :
    d.elements ([d.sep].intercalate es) = es := by
  rw [elements_intercalate_filter fun e he => (h e he).no_sep, filter_isElement h]

/-- Texts put together with separators have the elements of each, one after the other. -/
theorem elements_intercalate_texts (d : Dialect) (ts : List Text) :
    d.elements ([d.sep].intercalate ts) = ts.flatMap d.elements := by
  induction ts with
  | nil => exact elements_nil d
  | cons t ts ih =>
      by_cases hts : ts = []
      · rw [hts, List.intercalate_singleton, List.flatMap_singleton]
      · rw [List.intercalate_cons_of_ne_nil hts, List.append_assoc, List.singleton_append,
          elements_append_sep (isSep_sep d), ih, List.flatMap_cons]

theorem elements_spell {rooted : Bool} {es : List Text} (h : ∀ e ∈ es, IsElement d e) :
    d.elements (d.spell rooted es) = es := by
  cases rooted with
  | false => exact elements_intercalate h
  | true =>
      show d.elements (d.sep :: [d.sep].intercalate es) = es
      rw [elements_sep_cons (isSep_sep d), elements_intercalate h]

/-- One element more comes after a separator, unless it is the first. -/
theorem spell_append_singleton (d : Dialect) (rooted : Bool) (es : List Text) (e : Text) :
    d.spell rooted (es ++ [e]) =
      d.spell rooted es ++ ((if es = [] then [] else [d.sep]) ++ e) := by
  by_cases hes : es = []
  · subst hes
    simp [spell]
  · rw [spell, intercalate_append hes (List.cons_ne_nil e []), List.intercalate_singleton,
      if_neg hes, spell, List.append_assoc]
    rfl

theorem spell_eq_nil_iff {rooted : Bool} {es : List Text} (h : ∀ e ∈ es, IsElement d e) :
    d.spell rooted es = [] ↔ rooted = false ∧ es = [] := by
  have hnil := intercalate_eq_nil_iff (c := d.sep) fun e he => (h e he).ne_nil
  cases rooted <;> simp [spell, hnil]

theorem writeElements_eq (d : Dialect) (rooted : Bool) (es : List Text) :
    d.writeElements rooted es = if d.spell rooted es = [] then ['.'] else d.spell rooted es := by
  have hspell : (if rooted then [d.sep] else []) ++ [d.sep].intercalate es = d.spell rooted es :=
    rfl
  rw [writeElements, hspell]
  cases d.spell rooted es with
  | nil => rfl
  | cons c t => rfl

theorem spell_isPrefix_writeElements (d : Dialect) (rooted : Bool) (es : List Text) :
    d.spell rooted es <+: d.writeElements rooted es := by
  rw [writeElements_eq]
  split
  · next hnil =>
    rw [hnil]
    exact List.nil_prefix
  · exact List.prefix_refl _

theorem writeElements_of_ne_nil {rooted : Bool} {es : List Text} (h : d.spell rooted es ≠ []) :
    d.writeElements rooted es = d.spell rooted es := by
  rw [writeElements_eq, if_neg h]

theorem writeElements_unrooted {es : List Text} (h : ∀ e ∈ es, IsElement d e) (hes : es ≠ []) :
    d.writeElements false es = [d.sep].intercalate es :=
  writeElements_of_ne_nil fun hnil => hes ((spell_eq_nil_iff h).1 hnil).2

theorem writeElements_ne_nil (d : Dialect) (rooted : Bool) (es : List Text) :
    d.writeElements rooted es ≠ [] := by
  rw [writeElements_eq]
  split
  · exact List.cons_ne_nil _ _
  · assumption

theorem normalForm_ne_nil (d : Dialect) (t : Text) : d.normalForm t ≠ [] :=
  writeElements_ne_nil d _ _

/-- The spelling of elements is read back as the same elements. -/
theorem elements_writeElements {rooted : Bool} {es : List Text} (h : ∀ e ∈ es, IsElement d e) :
    d.elements (d.writeElements rooted es) = es := by
  rw [writeElements_eq]
  split
  · next hnil => rw [elements_dot, ((spell_eq_nil_iff h).1 hnil).2]
  · exact elements_spell h

theorem isRooted_intercalate {es : List Text} (h : ∀ e ∈ es, IsRun d e) :
    d.isRooted ([d.sep].intercalate es) = false := by
  cases es with
  | nil => rfl
  | cons e es =>
      obtain ⟨hne, hsep⟩ := h e List.mem_cons_self
      cases e with
      | nil => exact absurd rfl hne
      | cons c e =>
          rw [List.intercalate_cons_cons_left]
          exact hsep c List.mem_cons_self

theorem isRooted_spell_of_isRun {rooted : Bool} {es : List Text} (h : ∀ e ∈ es, IsRun d e) :
    d.isRooted (d.spell rooted es) = rooted := by
  cases rooted with
  | false => exact isRooted_intercalate h
  | true => exact isSep_sep d

theorem isRooted_spell {rooted : Bool} {es : List Text} (h : ∀ e ∈ es, IsElement d e) :
    d.isRooted (d.spell rooted es) = rooted :=
  isRooted_spell_of_isRun fun e he => (h e he).isRun

theorem isRooted_writeElements {rooted : Bool} {es : List Text} (h : ∀ e ∈ es, IsElement d e) :
    d.isRooted (d.writeElements rooted es) = rooted := by
  rw [writeElements_eq]
  split
  · next hnil =>
    rw [((spell_eq_nil_iff h).1 hnil).1]
    cases d <;> rfl
  · exact isRooted_spell h

/-- What is written for elements are their characters, separators and dots. -/
theorem mem_of_mem_writeElements {rooted : Bool} {es : List Text} {c : Char}
    (hc : c ∈ d.writeElements rooted es) : c = d.sep ∨ c = '.' ∨ ∃ e ∈ es, c ∈ e := by
  rw [writeElements_eq] at hc
  split at hc
  · exact .inr (.inl (List.mem_singleton.1 hc))
  · rcases List.mem_append.1 hc with hc | hc
    · cases rooted with
      | false => cases hc
      | true => exact .inl (List.mem_singleton.1 hc)
    · rcases mem_intercalate hc with rfl | h
      · exact .inl rfl
      · exact .inr (.inr h)

theorem mem_of_mem_normalForm {t : Text} {c : Char} (hc : c ∈ d.normalForm t) :
    c = d.sep ∨ c = '.' ∨ c ∈ t := by
  rcases mem_of_mem_writeElements hc with h | h | ⟨e, he, h⟩
  · exact .inl h
  · exact .inr (.inl h)
  · exact .inr (.inr (mem_of_mem_resolvedElements he h))

/-- Another character than a separator or a dot does not come into a normal form. -/
theorem notMem_normalForm {t : Text} {c : Char} (hsep : c ≠ d.sep) (hdot : c ≠ '.') (h : c ∉ t) :
    c ∉ d.normalForm t := by
  intro hc
  rcases mem_of_mem_normalForm hc with hc | hc | hc
  · exact hsep hc
  · exact hdot hc
  · exact h hc

/-- The spelling of a resolved list is its own normal form. -/
theorem normalForm_writeElements {rooted : Bool} {es : List Text} (h : ∀ e ∈ es, IsElement d e)
    (hes : Resolved rooted es) :
    d.normalForm (d.writeElements rooted es) = d.writeElements rooted es := by
  rw [normalForm, isRooted_writeElements h, elements_writeElements h, hes.resolve_eq]

/-- So are resolved elements with separators between them. -/
theorem normalForm_intercalate {es : List Text} (h : ∀ e ∈ es, IsElement d e) (hes : es ≠ [])
    (hresolved : Resolved false es) :
    d.normalForm ([d.sep].intercalate es) = [d.sep].intercalate es := by
  rw [← writeElements_unrooted h hes, normalForm_writeElements h hresolved]

theorem normalForm_normalForm (d : Dialect) (t : Text) :
    d.normalForm (d.normalForm t) = d.normalForm t :=
  normalForm_writeElements (fun _ he => isElement_of_mem_resolvedElements he)
    (resolvedElements_resolved d t)

theorem elements_normalForm (d : Dialect) (t : Text) :
    d.elements (d.normalForm t) = d.resolvedElements t :=
  elements_writeElements fun _ he => isElement_of_mem_resolvedElements he

theorem isRooted_normalForm (d : Dialect) (t : Text) :
    d.isRooted (d.normalForm t) = d.isRooted t :=
  isRooted_writeElements fun _ he => isElement_of_mem_resolvedElements he

/-- Normal forms are equal when roots and resolved elements are. -/
theorem normalForm_eq_iff {t u : Text} : d.normalForm t = d.normalForm u ↔
    d.isRooted t = d.isRooted u ∧ d.resolvedElements t = d.resolvedElements u := by
  constructor
  · intro h
    rw [← isRooted_normalForm d t, ← elements_normalForm d t, h]
    exact ⟨isRooted_normalForm d u, elements_normalForm d u⟩
  · rintro ⟨hrooted, helements⟩
    rw [normalForm_eq, normalForm_eq, hrooted, helements]

/-! ## Other characters -/

/-- A change of characters that keeps separators spells the changed elements. -/
theorem map_spell {d' : Dialect} {f : Char → Char} (hsep : f d.sep = d'.sep) (rooted : Bool)
    (es : List Text) : (d.spell rooted es).map f = d'.spell rooted (es.map (List.map f)) := by
  rw [spell, spell, List.map_append, map_intercalate, hsep]
  cases rooted with
  | false => rfl
  | true => rw [if_pos rfl, if_pos rfl, List.map_singleton, hsep]

/-- If it keeps dots as well, the changed elements are written. -/
theorem map_writeElements {d' : Dialect} {f : Char → Char} (hsep : f d.sep = d'.sep)
    (hdot : f '.' = '.') (rooted : Bool) (es : List Text) :
    (d.writeElements rooted es).map f = d'.writeElements rooted (es.map (List.map f)) := by
  have hspell := map_spell (d := d) hsep rooted es
  rw [writeElements_eq, writeElements_eq, ← hspell]
  by_cases hnil : d.spell rooted es = []
  · rw [if_pos hnil, hnil, List.map_nil, if_pos rfl, List.map_singleton, hdot]
  · rw [if_neg hnil, if_neg (by simpa using hnil)]

/-! ## Native spelling -/

theorem fromSlash_append (d : Dialect) (t u : Text) :
    d.fromSlash (t ++ u) = d.fromSlash t ++ d.fromSlash u := List.map_append

/-- A text without a foreign separator is in native spelling. -/
theorem fromSlash_eq_self {t : Text} (h : ∀ c ∈ t, c = d.sep ∨ d.isSep c = false) :
    d.fromSlash t = t := by
  rw [fromSlash]
  conv_rhs => rw [← List.map_id t]
  refine List.map_congr_left fun c hc => ?_
  -- Only a slash is written anew, and here a slash is the native separator.
  by_cases hslash : c = '/'
  · subst hslash
    rcases h '/' hc with h | h
    · rw [if_pos (by decide), ← h]
      rfl
    · cases d <;> simp [isSep, isSlash] at h
  · rw [if_neg (by simpa using hslash)]
    rfl

/-- Without a slash nothing is written anew. -/
theorem fromSlash_of_notMem {t : Text} (h : '/' ∉ t) : windows.fromSlash t = t := by
  refine fromSlash_eq_self fun c hc => ?_
  by_cases hslash : isSlash c = true
  · rcases (by simpa [isSlash] using hslash : c = '\\' ∨ c = '/') with rfl | rfl
    · exact .inl rfl
    · exact absurd hc h
  · exact .inr (Bool.eq_false_iff.2 hslash)

theorem map_fromSlash_of_notMem {es : List Text} (h : ∀ e ∈ es, '/' ∉ e) :
    es.map windows.fromSlash = es := by
  conv_rhs => rw [← List.map_id es]
  exact List.map_congr_left fun e he => fromSlash_of_notMem (h e he)

theorem fromSlash_fromSlash (d : Dialect) (t : Text) :
    d.fromSlash (d.fromSlash t) = d.fromSlash t := by
  cases d with
  | posix => rw [fromSlash_posix]
  | windows => exact fromSlash_of_notMem (slash_notMem_fromSlash t)

theorem mem_fromSlash {t : Text} {c : Char} (hc : c ∈ d.fromSlash t) :
    c = d.sep ∨ c ∈ t := by
  obtain ⟨x, hx, rfl⟩ := List.mem_map.1 hc
  by_cases hslash : x = '/'
  · exact .inl (if_pos (by simpa using hslash))
  · rw [if_neg (by simpa using hslash)]
    exact .inr hx

theorem native_of_mem_spell {rooted : Bool} {es : List Text} (h : ∀ e ∈ es, IsElement d e)
    {c : Char} (hc : c ∈ d.spell rooted es) : c = d.sep ∨ d.isSep c = false := by
  rcases List.mem_append.1 hc with hc | hc
  · cases rooted with
    | false => simp at hc
    | true => exact Or.inl (by simpa using hc)
  · rcases mem_intercalate hc with rfl | ⟨e, he, hce⟩
    · exact Or.inl rfl
    · exact Or.inr ((h e he).no_sep c hce)

theorem fromSlash_writeElements {rooted : Bool} {es : List Text} (h : ∀ e ∈ es, IsElement d e) :
    d.fromSlash (d.writeElements rooted es) = d.writeElements rooted es := by
  rw [writeElements_eq]
  split
  · cases d <;> decide
  · exact fromSlash_eq_self fun c hc => native_of_mem_spell h hc

theorem fromSlash_normalForm (d : Dialect) (t : Text) :
    d.fromSlash (d.normalForm t) = d.normalForm t :=
  fromSlash_writeElements fun _ he => isElement_of_mem_resolvedElements he

end Dialect

end PathAlgebra
