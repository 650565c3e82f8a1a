import PathAlgebra.Glob.Expand
import PathAlgebra.Proofs.Joining

/-!
# Paths as components

A clean path is its components put together with separators: nothing, the empty component of a root
or a drive in front, and resolved elements behind it (`Parts`). Expansion works on such a path one
component at a time: splitting takes off the last one and leaves the path before it
(`Parts.split_eq`, `Parts.directoryPattern_eq`), and joining a name puts one on (`Parts.join_eq`).
-/

set_option autoImplicit false

namespace PathAlgebra

namespace Dialect

variable {d : Dialect}

/-- The components of a path: what stands between its separators. -/
def components (d : Dialect) (p : Text) : List Text := p.splitOn d.sep

/-- Components put together with separators. -/
def fromComponents (d : Dialect) (cs : List Text) : Text := [d.sep].intercalate cs

/-- The path of the components before one: `.` for none, and the root for a root alone. -/
def pathBefore (d : Dialect) (cs : List Text) : Text :=
  if cs = [] then ['.']
  else if d.volumeLength (d.fromComponents cs) = (d.fromComponents cs).length then
    d.fromComponents cs ++ [d.sep]
  else d.fromComponents cs

theorem components_fromComponents {cs : List Text} (hcs : cs ≠ []) (h : ∀ c ∈ cs, d.sep ∉ c) :
    d.components (d.fromComponents cs) = cs :=
  List.splitOn_intercalate d.sep h hcs

end Dialect

/-! ## Fronts -/

/-- What stands in front of the elements of a path: nothing, the empty component of a root, or a
drive. -/
inductive Front : Dialect → List Text → Prop where
  | relative : Front .posix []
  | root : Front .posix [[]]
  | drive {c : Char} : c.isAlpha = true → Front .windows [[c, ':']]

namespace Front

variable {d : Dialect} {front es : List Text}

/-- A front with elements behind it is spelled as its volume and the elements. -/
theorem fromComponents_eq (h : Front d front) (hes : es ≠ []) :
    d.fromComponents (front ++ es) = front.flatten ++ d.spell (!front.isEmpty) es := by
  cases h with
  | relative => rfl
  | root =>
      rw [Dialect.fromComponents, List.singleton_append, List.intercalate_cons_of_ne_nil hes]
      rfl
  | @drive c hc =>
      rw [Dialect.fromComponents, List.singleton_append, List.intercalate_cons_of_ne_nil hes]
      rfl

theorem volumeLength_append (h : Front d front) (t : Text) :
    d.volumeLength (front.flatten ++ t) = front.flatten.length := by
  cases h with
  | relative => rfl
  | root => rfl
  | @drive c hc => simp [Dialect.volumeLength, Dialect.volume, hc, Volume.length]

/-- The front is written natively and has no special character. -/
theorem fromSlash_flatten (h : Front d front) : d.fromSlash front.flatten = front.flatten := by
  cases h with
  | relative => rfl
  | root => rfl
  | @drive c hc =>
      have hslash : c ≠ '/' := by
        rintro rfl
        exact absurd hc (by decide)
      simp [Dialect.fromSlash, hslash]

theorem any_hasMeta (h : Front d front) : front.any d.hasMeta = false := by
  cases h with
  | relative => rfl
  | root => rfl
  | @drive c hc =>
      have hne : ∀ m : Char, m.isAlpha = false → c ≠ m := by
        rintro m hm rfl
        rw [hm] at hc
        cases hc
      simp [Dialect.hasMeta, Dialect.isMeta, Dialect.escapes, hne '*' rfl, hne '?' rfl,
        hne '[' rfl]

theorem sep_notMem (h : Front d front) : ∀ c ∈ front, d.sep ∉ c := by
  cases h with
  | relative => simp
  | root => simp
  | @drive c hc =>
      have hsep : c ≠ '\\' := by
        rintro rfl
        exact absurd hc (by decide)
      simp [Dialect.sep, hsep.symm]

end Front

/-! ## Parts of a path -/

/-- A front and elements that are a clean path together. -/
structure Parts (d : Dialect) (front es : List Text) : Prop where
  isFront : Front d front
  elements : ∀ e ∈ es, IsElement d e
  no_colon : d = .windows → ∀ e ∈ es, ':' ∉ e
  resolved : Resolved (!front.isEmpty) es

/-- A name that a directory can list: an element other than `..`, without a drive. -/
structure IsEntry (d : Dialect) (name : Text) : Prop where
  element : IsElement d name
  ne_parent : name ≠ parentElement
  no_colon : d = .windows → ':' ∉ name

instance (d : Dialect) (name : Text) : Decidable (IsEntry d name) :=
  decidable_of_iff (IsElement d name ∧ name ≠ parentElement ∧ (d = .windows → ':' ∉ name))
    ⟨fun ⟨he, hup, hcolon⟩ => ⟨he, hup, hcolon⟩, fun ⟨he, hup, hcolon⟩ => ⟨he, hup, hcolon⟩⟩

namespace Parts

variable {d : Dialect} {front es : List Text} {e : Text}

/-- The path before the last element has parts too. -/
theorem init (h : Parts d front (es ++ [e])) : Parts d front es where
  isFront := h.isFront
  elements := fun f hf => h.elements f (List.mem_append_left _ hf)
  no_colon := fun hd f hf => h.no_colon hd f (List.mem_append_left _ hf)
  resolved := h.resolved.of_append

/-- A listed name can follow. -/
theorem concat (h : Parts d front es) {name : Text} (hname : IsEntry d name) :
    Parts d front (es ++ [name]) where
  isFront := h.isFront
  elements := by
    intro f hf
    rcases List.mem_append.1 hf with hf | hf
    · exact h.elements f hf
    · rw [List.mem_singleton.1 hf]
      exact hname.element
  no_colon := by
    intro hd f hf
    rcases List.mem_append.1 hf with hf | hf
    · exact h.no_colon hd f hf
    · rw [List.mem_singleton.1 hf]
      exact hname.no_colon hd
  resolved := h.resolved.append_name hname.ne_parent

theorem last (h : Parts d front (es ++ [e])) : IsElement d e :=
  h.elements e (List.mem_append_right _ (List.mem_singleton_self e))

theorem sep_notMem (h : Parts d front es) : ∀ c ∈ front ++ es, d.sep ∉ c := by
  intro c hc
  rcases List.mem_append.1 hc with hc | hc
  · exact h.isFront.sep_notMem c hc
  · exact (h.elements c hc).sep_notMem

/-- Parts are read back as components. -/
theorem components_eq (h : Parts d front es) (hes : es ≠ []) :
    d.components (d.fromComponents (front ++ es)) = front ++ es :=
  Dialect.components_fromComponents (by simp [hes]) h.sep_notMem

theorem spell_ne_nil (h : Parts d front es) (hes : es ≠ []) :
    d.spell (!front.isEmpty) es ≠ [] := by
  intro hnil
  exact hes ((Dialect.spell_eq_nil_iff h.elements).1 hnil).2

/-- The path before a component is spelled from the parts before it. -/
theorem pathBefore_eq (h : Parts d front es) (hes : es ≠ []) :
    d.pathBefore (front ++ es) = d.fromComponents (front ++ es) := by
  have hne : front ++ es ≠ [] := by simp [hes]
  have hlen : d.volumeLength (d.fromComponents (front ++ es)) ≠
      (d.fromComponents (front ++ es)).length := by
    have hpos := List.length_pos_iff.2 (h.spell_ne_nil hes)
    rw [h.isFront.fromComponents_eq hes, h.isFront.volumeLength_append, List.length_append]
    omega
  rw [Dialect.pathBefore, if_neg hne, if_neg hlen]

/-! ## Taking off the last element -/

/-- The directory part of a path with elements: its front, and the elements before the last with a
separator behind each. -/
def directory (d : Dialect) (front es : List Text) : Text :=
  front.flatten ++ (d.spell (!front.isEmpty) es ++ if es = [] then [] else [d.sep])

/-- A directory part is empty behind its front or ends with a separator. -/
theorem directory_ends (d : Dialect) (rooted : Bool) (es : List Text) :
    ∀ c ∈ (d.spell rooted es ++ if es = [] then [] else [d.sep]).getLast?, d.isSep c = true := by
  intro c hc
  by_cases hes : es = []
  · subst hes
    cases rooted with
    | false => simp [Dialect.spell] at hc
    | true =>
        have hsep : d.sep = c := by simpa [Dialect.spell] using hc
        rw [← hsep]
        exact Dialect.isSep_sep d
  · rw [if_neg hes, List.getLast?_concat] at hc
    have hsep : d.sep = c := by simpa using hc
    rw [← hsep]
    exact Dialect.isSep_sep d

/-- Splitting takes off the last element. -/
theorem split_eq (h : Parts d front (es ++ [e])) :
    d.split (d.fromComponents (front ++ (es ++ [e]))) = (directory d front es, e) := by
  have hends := directory_ends d (!front.isEmpty) es
  have htext : d.fromComponents (front ++ (es ++ [e])) = front.flatten ++
      ((d.spell (!front.isEmpty) es ++ if es = [] then [] else [d.sep]) ++ e) := by
    rw [h.isFront.fromComponents_eq (by simp), Dialect.spell_append_singleton, List.append_assoc]
  -- Behind the volume the last run without a separator is the last element.
  rw [htext, Dialect.split, Dialect.tail, h.isFront.volumeLength_append, List.drop_left,
    List.take_left, Text.lastRun_append hends h.last.no_sep,
    Text.beforeLastRun_append hends h.last.no_sep]
  rfl

/-- A directory part behind elements loses its last separator as a pattern. -/
theorem directoryPattern_directory (h : Parts d front es) (hes : es ≠ []) :
    d.directoryPattern (directory d front es) =
      (front.flatten.length, d.fromComponents (front ++ es)) := by
  have hdir : directory d front es = d.fromComponents (front ++ es) ++ [d.sep] := by
    rw [directory, if_neg hes, h.isFront.fromComponents_eq hes, List.append_assoc]
  -- The directory part is longer than a root, so its last separator is not a root.
  have hpos := List.length_pos_iff.2 (h.spell_ne_nil hes)
  have hlen : (d.fromComponents (front ++ es)).length =
      front.flatten.length + (d.spell (!front.isEmpty) es).length := by
    rw [h.isFront.fromComponents_eq hes, List.length_append]
  have hvol : d.volumeLength (directory d front es) = front.flatten.length :=
    h.isFront.volumeLength_append _
  have hne : directory d front es ≠ [] := by simp [hdir]
  cases d with
  | posix =>
      have hroot : directory .posix front es ≠ [Dialect.posix.sep] := by
        intro heq
        have := congrArg List.length heq
        rw [hdir, List.length_append] at this
        simp only [List.length_cons, List.length_nil] at this
        omega
      have hzero : front.flatten.length = 0 := by
        rw [← hvol]
        rfl
      rw [Dialect.directoryPattern, if_neg hne, if_neg hroot, hdir, List.dropLast_concat, hzero]
  | windows =>
      have hlen' : (directory .windows front es).length =
          front.flatten.length + (Dialect.windows.spell (!front.isEmpty) es).length + 1 := by
        rw [hdir, List.length_append, hlen]
        rfl
      simp only [Dialect.directoryPattern, hvol, hlen']
      rw [if_neg hne, if_neg (by omega), if_neg (by omega), hdir, List.dropLast_concat]
      congr 1
      omega

/-- A directory part without elements is the path before the first one, and not a pattern. -/
theorem directoryPattern_front (h : Front d front) :
    (d.directoryPattern (directory d front [])).2 = d.pathBefore front ∧
      d.needsExpansion (d.directoryPattern (directory d front [])) = false := by
  cases h with
  | relative => exact ⟨rfl, rfl⟩
  | root => exact ⟨rfl, rfl⟩
  | @drive c hc =>
      have hdrive : Dialect.windows.directoryPattern [c, ':', '\\'] = (3, [c, ':', '\\']) := by
        simp [Dialect.directoryPattern, Dialect.volumeLength, Dialect.volume, hc, Volume.length,
          isSlash]
      have hbefore : Dialect.windows.pathBefore [[c, ':']] = [c, ':', '\\'] := by
        simp [Dialect.pathBefore, Dialect.fromComponents, Dialect.volumeLength, Dialect.volume, hc,
          Volume.length, Dialect.sep]
      have hdir : directory .windows [[c, ':']] [] = [c, ':', '\\'] := rfl
      rw [hdir, hdrive, hbefore]
      exact ⟨rfl, rfl⟩

end Parts

/-! ## Special characters -/

/-- Components have a special character together when one of them has. -/
theorem hasMeta_fromComponents (d : Dialect) (cs : List Text) :
    d.hasMeta (d.fromComponents cs) = cs.any d.hasMeta := by
  have hsep : d.isMeta d.sep = false := by cases d <;> rfl
  rw [Dialect.fromComponents]
  induction cs with
  | nil => rfl
  | cons c cs ih =>
      cases cs with
      | nil => simp
      | cons c' cs =>
          rw [List.any_cons, ← ih, List.intercalate_cons_cons]
          simp [Dialect.hasMeta, hsep]

namespace Parts

variable {d : Dialect} {front es : List Text} {e : Text}

/-- The directory part of a path as a pattern: the path before the last element, to be expanded
when one of its elements has a special character. -/
theorem directoryPattern_eq (h : Parts d front es) :
    (d.directoryPattern (directory d front es)).2 = d.pathBefore (front ++ es) ∧
      d.needsExpansion (d.directoryPattern (directory d front es)) = es.any d.hasMeta := by
  by_cases hes : es = []
  · subst hes
    rw [List.append_nil]
    exact directoryPattern_front h.isFront
  · rw [h.directoryPattern_directory hes, h.pathBefore_eq hes]
    refine ⟨rfl, ?_⟩
    -- The front has no special character, so leaving it out changes nothing.
    have hfront : d.hasMeta front.flatten = false := by
      rw [Dialect.hasMeta, List.any_flatten]
      exact h.isFront.any_hasMeta
    have hmeta := hasMeta_fromComponents d (front ++ es)
    rw [List.any_append, h.isFront.any_hasMeta, Bool.false_or,
      h.isFront.fromComponents_eq hes, Dialect.hasMeta, List.any_append] at hmeta
    rw [Dialect.hasMeta] at hfront
    rw [hfront, Bool.false_or] at hmeta
    rw [Dialect.needsExpansion, h.isFront.fromComponents_eq hes, List.drop_left]
    exact hmeta

/-! ## Putting on a name -/

/-- A path with elements is clean. -/
theorem clean_eq (h : Parts d front es) (hes : es ≠ []) :
    d.clean (d.fromComponents (front ++ es)) = d.fromComponents (front ++ es) := by
  have htext := h.isFront.fromComponents_eq hes
  have hne := h.spell_ne_nil hes
  have htail : d.tail (d.fromComponents (front ++ es)) = d.spell (!front.isEmpty) es := by
    rw [htext, Dialect.tail, h.isFront.volumeLength_append, List.drop_left]
  have hvol : d = .posix ∨ 0 < d.volumeLength (d.fromComponents (front ++ es)) := by
    rw [htext, h.isFront.volumeLength_append]
    cases h.isFront with
    | relative => exact .inl rfl
    | root => exact .inl rfl
    | drive hc => exact .inr (by simp)
  -- What follows the volume is spelled from resolved elements, which is its normal form.
  rw [Dialect.clean_eq_append (by rw [htail]; exact hne) hvol, htail, htext,
    h.isFront.volumeLength_append, List.take_left, h.isFront.fromSlash_flatten,
    ← Dialect.writeElements_of_ne_nil hne, Dialect.normalForm_writeElements h.elements h.resolved]

/-- Under the POSIX dialect the path before a component has the elements before it. -/
theorem elements_pathBefore (h : Parts .posix front es) :
    Dialect.posix.isRooted (Dialect.posix.pathBefore (front ++ es)) = !front.isEmpty ∧
      Dialect.posix.elements (Dialect.posix.pathBefore (front ++ es)) = es := by
  have hflat : front.flatten = [] := by
    cases h.isFront with
    | relative => rfl
    | root => rfl
  by_cases hes : es = []
  · subst hes
    cases h.isFront with
    | relative => exact ⟨rfl, Dialect.elements_dot _⟩
    | root => exact ⟨rfl, Dialect.elements_sep_cons (c := '/') rfl []⟩
  · rw [h.pathBefore_eq hes, h.isFront.fromComponents_eq hes, hflat, List.nil_append]
    exact ⟨Dialect.isRooted_spell h.elements, Dialect.elements_spell h.elements⟩

/-- Under the Windows dialect a name is attached to the path before it without cleaning. -/
theorem attach_pathBefore (h : Parts .windows front es) {name : Text}
    (hname : IsEntry .windows name) :
    attach (Dialect.windows.pathBefore (front ++ es)) name =
      Dialect.windows.fromComponents (front ++ (es ++ [name])) := by
  have hname' := hname.element.no_sep
  rcases List.eq_nil_or_concat es with rfl | ⟨init, e, rfl⟩
  · cases h.isFront with
    | @drive c hc =>
        have hbefore : Dialect.windows.pathBefore [[c, ':']] = [c, ':', '\\'] := by
          simp [Dialect.pathBefore, Dialect.fromComponents, Dialect.volumeLength, Dialect.volume,
            hc, Volume.length, Dialect.sep]
        rw [List.append_nil, hbefore, attach_slash (by simp) rfl rfl hname']
        simp [Dialect.fromComponents, Dialect.sep]
  · rw [List.concat_eq_append] at h ⊢
    have he := h.last
    obtain ⟨u, c, rfl⟩ : ∃ u c, e = u ++ [c] := by
      rcases List.eq_nil_or_concat e with hnil | ⟨u, c, hconcat⟩
      · exact absurd hnil he.ne_nil
      · exact ⟨u, c, by rw [hconcat, List.concat_eq_append]⟩
    have hlast : (Dialect.windows.fromComponents (front ++ (init ++ [u ++ [c]]))).getLast? =
        some c := by
      rw [h.isFront.fromComponents_eq (by simp), Dialect.spell_append_singleton]
      simp [← List.append_assoc]
    -- The path before ends in a name, so that a separator is put behind it.
    have hc : c ≠ ':' := by
      rintro rfl
      exact h.no_colon rfl (u ++ [':']) (by simp) (by simp)
    rw [h.pathBefore_eq (by simp), attach_name hlast (he.no_sep c (by simp)) hc,
      h.isFront.fromComponents_eq (by simp), h.isFront.fromComponents_eq (by simp),
      Dialect.spell_append_singleton _ _ (init ++ [u ++ [c]]), if_neg (by simp), List.append_assoc]
    rfl

/-- Joining puts a listed name behind the path before it. -/
theorem join_eq (h : Parts d front es) {name : Text} (hname : IsEntry d name) :
    d.join [d.pathBefore (front ++ es), name] = d.fromComponents (front ++ (es ++ [name])) := by
  have hnext := h.concat hname
  have hne : es ++ [name] ≠ [] := by simp
  cases d with
  | posix =>
      obtain ⟨hrooted, helements⟩ := h.elements_pathBefore
      have hrel : Dialect.posix.isRooted name = false := by
        cases hcons : name with
        | nil => rfl
        | cons c t =>
            rw [hcons] at hname
            exact hname.element.no_sep c List.mem_cons_self
      have hflat : front.flatten = [] := by
        cases h.isFront with
        | relative => rfl
        | root => rfl
      rw [Dialect.join_posix_pair _ hname.element.ne_nil hrel, hrooted, helements,
        Dialect.elements_of_isElement hname.element, hnext.resolved.resolve_eq,
        Dialect.writeElements_of_ne_nil (hnext.spell_ne_nil hne),
        hnext.isFront.fromComponents_eq hne, hflat, List.nil_append]
  | windows =>
      have hconcat : Dialect.windows.concat [Dialect.windows.pathBefore (front ++ es), name] =
          Dialect.windows.fromComponents (front ++ (es ++ [name])) := h.attach_pathBefore hname
      have hclean := hnext.clean_eq hne
      have htext : Dialect.windows.fromComponents (front ++ (es ++ [name])) ≠ [] := by
        rw [hnext.isFront.fromComponents_eq hne]
        simp [hnext.spell_ne_nil hne]
      rw [Dialect.join, hconcat]
      split
      · next hnil => exact absurd hnil htext
      · exact hclean

end Parts

/-! ## Clean paths -/

namespace Dialect

/-- Any POSIX path, and a Windows path at the root of a drive without another colon. -/
def OnDrive : Dialect → Text → Prop
  | posix, _ => True
  | windows, p => ∃ c t, p = c :: ':' :: '\\' :: t ∧ c.isAlpha = true ∧ ':' ∉ t

/-- A clean POSIX path has parts. -/
theorem exists_parts_posix {p : Text} (hclean : posix.clean p = p)
    (hmeta : posix.hasMeta p = true) :
    ∃ front es, Parts .posix front es ∧ es ≠ [] ∧ p = posix.fromComponents (front ++ es) := by
  have helements : ∀ e ∈ posix.resolvedElements p, IsElement .posix e :=
    fun e he => isElement_of_mem_resolvedElements he
  have hresolved := resolvedElements_resolved posix p
  rw [clean_posix, normalForm_eq] at hclean
  generalize posix.resolvedElements p = es at hclean helements hresolved
  have hes : es ≠ [] := by
    rintro rfl
    have hnone : ∀ rooted, posix.hasMeta (posix.writeElements rooted []) = false := by
      intro rooted
      cases rooted <;> rfl
    rw [← hclean, hnone] at hmeta
    cases hmeta
  have hspell : ∀ rooted, posix.spell rooted es ≠ [] :=
    fun rooted hnil => hes ((spell_eq_nil_iff helements).1 hnil).2
  cases hrooted : posix.isRooted p with
  | false =>
      rw [hrooted] at hclean hresolved
      have hparts : Parts .posix [] es := ⟨.relative, helements, by simp, hresolved⟩
      refine ⟨[], es, hparts, hes, ?_⟩
      rw [← hclean, writeElements_of_ne_nil (hspell _)]
      rfl
  | true =>
      rw [hrooted] at hclean hresolved
      have hparts : Parts .posix [[]] es := ⟨.root, helements, by simp, hresolved⟩
      refine ⟨[[]], es, hparts, hes, ?_⟩
      rw [← hclean, writeElements_of_ne_nil (hspell _), hparts.isFront.fromComponents_eq hes]
      rfl

/-- A clean Windows path at the root of a drive has parts. -/
theorem exists_parts_windows {c : Char} {t : Text} (hc : c.isAlpha = true) (ht : ':' ∉ t)
    (hclean : windows.clean (c :: ':' :: '\\' :: t) = c :: ':' :: '\\' :: t)
    (hmeta : windows.hasMeta (c :: ':' :: '\\' :: t) = true) :
    ∃ front es, Parts .windows front es ∧ es ≠ [] ∧
      c :: ':' :: '\\' :: t = windows.fromComponents (front ++ es) := by
  have hfront : Front .windows [[c, ':']] := .drive hc
  have hvol : windows.volumeLength (c :: ':' :: '\\' :: t) = 2 :=
    hfront.volumeLength_append ('\\' :: t)
  have htail : windows.tail (c :: ':' :: '\\' :: t) = '\\' :: t := by
    rw [tail, hvol]
    rfl
  have helements : ∀ e ∈ windows.resolvedElements ('\\' :: t), IsElement .windows e :=
    fun e he => isElement_of_mem_resolvedElements he
  have hresolved := resolvedElements_resolved windows ('\\' :: t)
  have hwritten : windows.writeElements true (windows.resolvedElements ('\\' :: t)) =
      '\\' :: t := by
    rw [clean_eq_append (by rw [htail]; simp) (.inr (by rw [hvol]; decide)), htail, hvol] at hclean
    have hvolume : windows.fromSlash (List.take 2 (c :: ':' :: '\\' :: t)) = [c, ':'] :=
      hfront.fromSlash_flatten
    rw [hvolume] at hclean
    exact (List.append_right_inj [c, ':']).1 hclean
  generalize windows.resolvedElements ('\\' :: t) = es at hwritten helements hresolved
  have hes : es ≠ [] := by
    rintro rfl
    have hroot : ['\\'] = '\\' :: t := hwritten
    cases hroot
    have hnone : windows.hasMeta [c, ':', '\\'] = [[c, ':'], []].any windows.hasMeta :=
      hasMeta_fromComponents windows [[c, ':'], []]
    rw [hnone, ← List.singleton_append, List.any_append, hfront.any_hasMeta] at hmeta
    cases hmeta
  have hspell : windows.spell true es = '\\' :: t := by
    rw [← hwritten, writeElements_of_ne_nil]
    intro hnil
    exact hes ((spell_eq_nil_iff helements).1 hnil).2
  -- The elements are made of characters behind the drive, where there is no colon.
  have hcolon : ∀ e ∈ es, ':' ∉ e := by
    intro e he hmem
    have hmem' : ':' ∈ windows.spell true es :=
      List.mem_append_right _ (mem_intercalate_of_mem he hmem)
    rw [hspell] at hmem'
    rcases List.mem_cons.1 hmem' with heq | hmem'
    · cases heq
    · exact ht hmem'
  have hparts : Parts .windows [[c, ':']] es := ⟨hfront, helements, fun _ => hcolon, hresolved⟩
  refine ⟨[[c, ':']], es, hparts, hes, ?_⟩
  rw [hfront.fromComponents_eq hes]
  exact congrArg ([c, ':'] ++ ·) hspell.symm

/-- A clean path that expansion is stated for has parts. -/
theorem exists_parts {d : Dialect} {p : Text} (hp : d.OnDrive p) (hclean : d.clean p = p)
    (hmeta : d.hasMeta p = true) :
    ∃ front es, Parts d front es ∧ es ≠ [] ∧ p = d.fromComponents (front ++ es) := by
  cases d with
  | posix => exact exists_parts_posix hclean hmeta
  | windows =>
      obtain ⟨c, t, rfl, hc, ht⟩ := hp
      exact exists_parts_windows hc ht hclean hmeta

end Dialect

end PathAlgebra
