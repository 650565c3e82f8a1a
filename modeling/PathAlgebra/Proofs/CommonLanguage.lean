import PathAlgebra.Proofs.RelativeWindows
import PathAlgebra.Proofs.RelativePosix
import PathAlgebra.Split

/-!
# The common language of the dialects

A path without a backslash, a colon, a question mark and a Windows volume is read alike in both
dialects: it has the same separators, so the same elements, and the same root. What the Windows
dialect makes of such paths is what the POSIX dialect makes of them in native spelling
(`dialects_agree`). Cleaned and joined paths agree because both are spelled from the same resolved
elements (`writeElements_windows`); the parts of a path are cut at the same separators; and relative
paths of lower-case ASCII texts compare the same names (`rel_windows_eq`).
-/

set_option autoImplicit false

namespace PathAlgebra

open Dialect

/-- A path that both dialects read alike. -/
structure IsCommon (p : Text) : Prop where
  no_backslash : '\\' ∉ p
  no_colon : ':' ∉ p
  no_mark : '?' ∉ p
  no_volume : windows.volume p = .none

instance (p : Text) : Decidable (IsCommon p) :=
  decidable_of_iff ('\\' ∉ p ∧ ':' ∉ p ∧ '?' ∉ p ∧ windows.volume p = .none)
    ⟨fun ⟨hback, hcolon, hmark, hvol⟩ => ⟨hback, hcolon, hmark, hvol⟩,
      fun ⟨hback, hcolon, hmark, hvol⟩ => ⟨hback, hcolon, hmark, hvol⟩⟩

namespace Dialect

theorem trimEnd_isPrefix (d : Dialect) (p : Text) : d.trimEnd p <+: p := by
  refine ⟨(p.reverse.takeWhile d.isSep).reverse, ?_⟩
  rw [trimEnd, ← List.reverse_append, List.takeWhile_append_dropWhile, List.reverse_reverse]

variable {p t : Text}

/-! ## Texts without a backslash -/

/-- Without a backslash both dialects see the same separators. -/
theorem isSep_eq (h : '\\' ∉ t) : ∀ c ∈ t, windows.isSep c = posix.isSep c := by
  intro c hc
  have hback : c ≠ '\\' := by
    rintro rfl
    exact h hc
  simp [isSep, isSlash, hback]

theorem isRooted_eq (h : '\\' ∉ t) : windows.isRooted t = posix.isRooted t := by
  cases t with
  | nil => rfl
  | cons c t => exact isSep_eq h c List.mem_cons_self

theorem elements_eq (h : '\\' ∉ t) : windows.elements t = posix.elements t := by
  rw [elements, elements, splitOnP_congr (isSep_eq h)]

theorem resolvedElements_eq (h : '\\' ∉ t) :
    windows.resolvedElements t = posix.resolvedElements t := by
  rw [resolvedElements, resolvedElements, isRooted_eq h, elements_eq h]

/-- The elements of both dialects are spelled alike but for the separators. -/
theorem writeElements_windows {rooted : Bool} {es : List Text} (h : ∀ e ∈ es, '/' ∉ e) :
    windows.writeElements rooted es = windows.fromSlash (posix.writeElements rooted es) := by
  have hwrite : windows.fromSlash (posix.writeElements rooted es) =
      windows.writeElements rooted (es.map windows.fromSlash) := map_writeElements rfl rfl rooted es
  rw [hwrite, map_fromSlash_of_notMem h]

/-- The normal forms of both dialects are the same but for the separators. -/
theorem normalForm_windows (h : '\\' ∉ t) :
    windows.normalForm t = windows.fromSlash (posix.normalForm t) := by
  rw [normalForm_eq, normalForm_eq, isRooted_eq h, resolvedElements_eq h]
  exact writeElements_windows fun e he => (isElement_of_mem_resolvedElements he).sep_notMem

/-- Two texts have the same normal form in both dialects or in neither. -/
theorem normalForm_windows_eq_iff {u : Text} (ht : '\\' ∉ t) (hu : '\\' ∉ u) :
    windows.normalForm t = windows.normalForm u ↔ posix.normalForm t = posix.normalForm u := by
  rw [normalForm_eq_iff, normalForm_eq_iff, isRooted_eq ht, isRooted_eq hu, resolvedElements_eq ht,
    resolvedElements_eq hu]

end Dialect

namespace IsCommon

variable {p q : Text}

theorem clean_windows (h : IsCommon p) : windows.clean p = windows.normalForm p :=
  clean_of_no_volume h.no_volume h.no_colon h.no_mark

theorem clean_eq (h : IsCommon p) : windows.clean p = windows.fromSlash (posix.clean p) := by
  rw [h.clean_windows, clean_posix, normalForm_windows h.no_backslash]

/-! ## Parts of a path -/

/-- A beginning of a common path is common. -/
theorem of_isPrefix (h : IsCommon p) (hq : q <+: p) : IsCommon q where
  no_backslash := fun hm => h.no_backslash (hq.subset hm)
  no_colon := fun hm => h.no_colon (hq.subset hm)
  no_mark := fun hm => h.no_mark (hq.subset hm)
  no_volume := volume_eq_none_of_isPrefix h.no_volume hq

theorem split_eq (h : IsCommon p) : windows.split p = posix.split p := by
  have hsep := isSep_eq h.no_backslash
  rw [split, split, tail_eq_self h.no_volume, volumeLength_eq_zero_iff.2 h.no_volume,
    Text.lastRun_congr hsep, Text.beforeLastRun_congr hsep]
  rfl

theorem dirname_eq (h : IsCommon p) : windows.dirname p = windows.fromSlash (posix.dirname p) := by
  have hdir : IsCommon (posix.split p).1 := h.of_isPrefix ⟨_, split_append posix p⟩
  rw [dirname_of_none h.no_volume, dirname_of_none (volume_posix p), h.split_eq, hdir.clean_eq]

theorem basename_eq (h : IsCommon p) :
    windows.basename p = windows.fromSlash (posix.basename p) := by
  have htrim : windows.trimEnd p = posix.trimEnd p := by
    rw [trimEnd, trimEnd,
      dropWhile_congr fun c hc => isSep_eq h.no_backslash c (List.mem_reverse.1 hc)]
  have hcommon : IsCommon (windows.trimEnd p) := h.of_isPrefix (trimEnd_isPrefix windows p)
  have hrun : (windows.tail (windows.trimEnd p)).lastRun windows.isSep =
      (posix.tail (posix.trimEnd p)).lastRun posix.isSep := by
    rw [tail_eq_self hcommon.no_volume, Text.lastRun_congr (isSep_eq hcommon.no_backslash), htrim,
      tail_posix]
  rw [basename, basename, hrun]
  by_cases hp : p = []
  · rw [if_pos hp, if_pos hp]
    rfl
  rw [if_neg hp, if_neg hp]
  split
  · rfl
  · next name hname =>
    symm
    apply fromSlash_of_notMem
    intro hm
    have hsep := Text.not_isSep_of_mem_lastRun hm
    cases hsep

end IsCommon

/-! ## Joined paths -/

/-- A text to which common elements can be joined without a volume or a guard. -/
structure Joinable (b : Text) : Prop where
  ne_nil : b ≠ []
  no_colon : ':' ∉ b
  no_mark : '?' ∉ b
  no_volume : windows.volume b = .none
  not_double : ¬ windows.DoublyRooted b

namespace Joinable

variable {b e : Text}

/-- A common element keeps such a text one, and adds its elements. -/
theorem attach_common (h : Joinable b) (he : IsCommon e) :
    Joinable (attach b e) ∧ windows.isRooted (attach b e) = windows.isRooted b ∧
      windows.elements (attach b e) = windows.elements b ++ windows.elements e := by
  have hattached := attached h.ne_nil e
  refine ⟨⟨?_, ?_, ?_, ?_, ?_⟩, isRooted_of_isPrefix h.ne_nil hattached.isPrefix, ?_⟩
  · obtain ⟨t, ht⟩ := hattached.isPrefix
    rw [← ht]
    exact List.append_ne_nil_of_left_ne_nil h.ne_nil t
  · exact hattached.notMem (by decide) (by decide) h.no_colon he.no_colon
  · exact hattached.notMem (by decide) (by decide) h.no_mark he.no_mark
  · exact (hattached.volume_eq h.ne_nil h.not_double).trans h.no_volume
  · exact hattached.not_doublyRooted h.ne_nil h.not_double
  · exact elements_attached hattached fun hlast => h.no_colon (List.mem_of_getLast? hlast)

/-- Common elements keep such a text one, and add all their elements. -/
theorem foldl_attach_common {es : List Text} (h : Joinable b) (hes : ∀ e ∈ es, IsCommon e) :
    Joinable (es.foldl attach b) ∧
      windows.isRooted (es.foldl attach b) = windows.isRooted b ∧
      windows.elements (es.foldl attach b) =
        windows.elements b ++ es.flatMap windows.elements := by
  induction es generalizing b with
  | nil => exact ⟨h, rfl, (List.append_nil _).symm⟩
  | cons e es ih =>
      obtain ⟨hstep, hroot, helements⟩ := h.attach_common (hes e List.mem_cons_self)
      obtain ⟨hall, hroots, hflat⟩ := ih hstep fun f hf => hes f (List.mem_cons_of_mem e hf)
      refine ⟨hall, hroots.trans hroot, ?_⟩
      rw [List.foldl_cons, hflat, helements, List.flatMap_cons, List.append_assoc]

theorem clean_eq (h : Joinable b) : windows.clean b = windows.normalForm b :=
  clean_of_no_volume h.no_volume h.no_colon h.no_mark

end Joinable

namespace Dialect

variable {es : List Text}

/-- Common elements are joined by all their elements, behind the root of the first that is not
empty. -/
theorem join_windows {e : Text} (hes : ∀ e ∈ es, IsCommon e)
    (h : es.find? (fun e => e ≠ []) = some e) (hdouble : ¬ windows.DoublyRooted e) :
    windows.join es = windows.writeElements (windows.isRooted e)
      (resolve (windows.isRooted e) (es.flatMap windows.elements)) := by
  obtain ⟨hne, empty, rest, rfl, hempty⟩ := exists_first h
  have he := hes e (by simp)
  have hfirst : Joinable e := ⟨hne, he.no_colon, he.no_mark, he.no_volume, hdouble⟩
  have hrest : ∀ f ∈ rest, IsCommon f := fun f hf => hes f (by simp [hf])
  obtain ⟨hjoined, hroot, helements⟩ := hfirst.foldl_attach_common hrest
  have hconcat : windows.concat (empty ++ e :: rest) = rest.foldl attach e :=
    concat_windows hempty
  rw [join_eq_clean (by rw [hconcat]; exact hjoined.ne_nil), hconcat, hjoined.clean_eq,
    normalForm_eq, resolvedElements, hroot, helements, flatMap_elements hempty]

theorem join_windows_eq (hes : ∀ e ∈ es, IsCommon e)
    (hfirst : ∀ e, es.find? (fun e => e ≠ []) = some e → ¬ ['/', '/'] <+: e) :
    windows.join es = windows.fromSlash (posix.join es) := by
  cases hfind : es.find? (fun e => e ≠ []) with
  | none =>
      have hempty : ∀ e ∈ es, e = [] := by simpa using List.find?_eq_none.1 hfind
      rw [join_of_empty windows hempty, join_of_empty posix hempty]
      rfl
  | some e =>
      have he := hes e (List.mem_of_find?_eq_some hfind)
      have hdouble : ¬ windows.DoublyRooted e := by
        rintro ⟨hroot, htail⟩
        apply hfirst e hfind
        rw [isRooted_eq he.no_backslash] at hroot
        rw [isRooted_eq fun hm => he.no_backslash (List.mem_of_mem_tail hm)] at htail
        match e, hroot, htail with
        | a :: c :: t, ha, hc =>
            have ha' : a = '/' := by simpa [isRooted, isSep] using ha
            have hc' : c = '/' := by simpa [isRooted, isSep] using hc
            rw [ha', hc']
            exact List.prefix_append ['/', '/'] t
      have hflat : es.flatMap windows.elements = es.flatMap posix.elements :=
        List.flatMap_congr fun f hf => elements_eq (hes f hf).no_backslash
      rw [join_windows hes hfind hdouble, join_posix hfind, isRooted_eq he.no_backslash, hflat]
      apply writeElements_windows
      intro f hf
      obtain ⟨g, hg, hfg⟩ := List.mem_flatMap.1 (mem_of_mem_resolve hf)
      exact (isElement_of_mem_elements hfg).sep_notMem

end Dialect

/-! ## Relative paths -/

/-- A text of ASCII characters, none of them a capital letter. -/
def IsLowerAscii (t : Text) : Prop := ∀ c ∈ t, c.toNat < 128 ∧ c.isUpper = false

instance (t : Text) : Decidable (IsLowerAscii t) :=
  decidable_of_iff ((t.all fun c => c.toNat < 128 && !c.isUpper) = true) (by simp [IsLowerAscii])

namespace Dialect

variable {base target : Text}

/-- Such a name counts as itself. -/
theorem nameKey_of_isLowerAscii {t : Text} (h : IsLowerAscii t) : windows.nameKey t = t :=
  lowerCase_eq_self (fun c hc => (h c hc).1) fun c hc => (h c hc).2

/-- Runs of such names part in both dialects at the same place. -/
theorem parting_windows {cs bs cs' ts : List Text} (h : posix.Parting cs bs cs' ts)
    (hbs : ∀ e ∈ cs ++ bs, IsLowerAscii e) (hts : ∀ e ∈ cs' ++ ts, IsLowerAscii e) :
    windows.Parting cs bs cs' ts := by
  have hkeys {es : List Text} (hes : ∀ e ∈ es, IsLowerAscii e) :
      es.map windows.nameKey = es.map posix.nameKey :=
    List.map_congr_left fun e he => nameKey_of_isLowerAscii (hes e he)
  constructor
  · rw [hkeys fun e he => hbs e (List.mem_append_left _ he),
      hkeys fun e he => hts e (List.mem_append_left _ he)]
    exact h.shared
  · rw [hkeys fun e he => hbs e (List.mem_append_right _ he),
      hkeys fun e he => hts e (List.mem_append_right _ he)]
    exact h.parts

theorem isLowerAscii_of_mem_targetRuns {rooted : Bool} {t e : Text} (h : IsLowerAscii t)
    (he : e ∈ targetRuns rooted (posix.resolvedElements t)) : IsLowerAscii e := by
  intro c hc
  rcases mem_of_mem_targetRuns he hc with rfl | hc
  · decide
  · exact h c hc

theorem isLowerAscii_clean {p : Text} (hp : IsCommon p) (h : IsLowerAscii p) :
    IsLowerAscii (windows.clean p) := by
  intro c hc
  rw [hp.clean_windows] at hc
  rcases mem_of_mem_normalForm hc with rfl | rfl | hc
  · decide
  · decide
  · exact h c hc

/-- Two such paths clean to the same path in both dialects or in neither. -/
theorem sameWord_clean_iff (hbase : IsCommon base) (htarget : IsCommon target)
    (hbaseLower : IsLowerAscii base) (htargetLower : IsLowerAscii target) :
    windows.sameWord (windows.clean target) (windows.clean base) = true ↔
      posix.sameWord (posix.clean target) (posix.clean base) = true := by
  rw [sameWord_iff, sameWord_posix_iff,
    nameKey_of_isLowerAscii (isLowerAscii_clean htarget htargetLower),
    nameKey_of_isLowerAscii (isLowerAscii_clean hbase hbaseLower), htarget.clean_windows,
    hbase.clean_windows, normalForm_windows_eq_iff htarget.no_backslash hbase.no_backslash,
    clean_posix, clean_posix]

/-- A way is spelled alike in both dialects but for the separators. -/
theorem way_windows (n : Nat) {ts : List Text} (h : ∀ e ∈ ts, '/' ∉ e) :
    windows.way n ts = windows.fromSlash (posix.way n ts) := by
  have hruns : ∀ e ∈ List.replicate n parentElement ++ ts, '/' ∉ e := by
    intro e he
    rcases List.mem_append.1 he with he | he
    · rw [List.eq_of_mem_replicate he]
      decide
    · exact h e he
  have hway : windows.fromSlash (posix.way n ts) =
      [windows.sep].intercalate ((List.replicate n parentElement ++ ts).map windows.fromSlash) :=
    map_intercalate _ posix.sep _
  rw [hway, map_fromSlash_of_notMem hruns, way]

theorem clean_parts {p : Text} (h : IsCommon p) :
    windows.clean p = windows.volumeName p ++ windows.normalForm (windows.tail p) := by
  rw [h.clean_windows, volumeName_eq_nil h.no_volume, tail_eq_self h.no_volume, List.nil_append]

theorem relativeBase_windows {p : Text} (h : IsCommon p) :
    windows.relativeBase p = windows.spell (posix.isRooted p) (posix.resolvedElements p) := by
  rw [relativeBase_of_clean (clean_parts h), tail_eq_self h.no_volume, isRooted_eq h.no_backslash,
    resolvedElements_eq h.no_backslash]

theorem relativeTarget_windows {p : Text} (h : IsCommon p) :
    windows.relativeTarget p = windows.spell (posix.isRooted p)
      (targetRuns (posix.isRooted p) (posix.resolvedElements p)) := by
  rw [relativeTarget_of_clean (clean_parts h), tail_eq_self h.no_volume, isRooted_eq h.no_backslash,
    resolvedElements_eq h.no_backslash]

/-- Both dialects find the same way, or none for the same reason. -/
theorem rel_windows_eq (hbase : IsCommon base) (htarget : IsCommon target)
    (hbaseLower : IsLowerAscii base) (htargetLower : IsLowerAscii target) :
    windows.rel base target = (posix.rel base target).map windows.fromSlash := by
  obtain ⟨cs, bs, cs', ts, hcb, hct, hparting⟩ := exists_parting posix (posix.resolvedElements base)
    (targetRuns (posix.isRooted target) (posix.resolvedElements target))
  have hbs : ∀ e ∈ cs ++ bs, IsElement posix e ∧ IsElement windows e ∧ IsLowerAscii e := by
    intro e he
    rw [← hcb] at he
    refine ⟨isElement_of_mem_resolvedElements he, ?_, fun c hc => hbaseLower c
      (mem_of_mem_resolvedElements he hc)⟩
    rw [← resolvedElements_eq hbase.no_backslash] at he
    exact isElement_of_mem_resolvedElements he
  have hts (d : Dialect) (heq : d.resolvedElements target = posix.resolvedElements target) :
      ∀ e ∈ cs' ++ ts, IsRun d e := by
    intro e he
    rw [← hct] at he
    refine noSep_targetRuns _ (fun f hf => ?_) e he
    rw [← heq] at hf
    exact isElement_of_mem_resolvedElements hf
  have htsLower : ∀ e ∈ cs' ++ ts, IsLowerAscii e :=
    fun e he => isLowerAscii_of_mem_targetRuns htargetLower (hct ▸ he)
  have hpartingWindows := parting_windows hparting (fun e he => (hbs e he).2.2) htsLower
  have hwindows := rel_eq (hcb ▸ relativeBase_windows hbase) (hct ▸ relativeTarget_windows htarget)
    (fun e he => ⟨(hbs e he).2.1.ne_nil, (hbs e he).2.1.no_sep⟩)
    (hts windows (resolvedElements_eq htarget.no_backslash)) hpartingWindows
  have hposix := rel_eq (hcb ▸ relativeBase_posix base) (hct ▸ relativeTarget_posix target)
    (fun e he => ⟨(hbs e he).1.ne_nil, (hbs e he).1.no_sep⟩) (hts posix rfl) hparting
  have hway : windows.way bs.length ts = windows.fromSlash (posix.way bs.length ts) := by
    refine way_windows _ fun e he hm => ?_
    have hslash := (hts posix rfl e (List.mem_append_right _ he)).2 '/' hm
    cases hslash
  rw [hwindows, hposix]
  simp only [sameWord_clean_iff hbase htarget hbaseLower htargetLower,
    volumeName_eq_nil hbase.no_volume, volumeName_eq_nil htarget.no_volume, volumeName_posix,
    sameWord_self, hway]
  split
  · rfl
  split
  · rfl
  split
  · rfl
  split
  · rfl
  · rfl

/-! ## Agreement -/

/-- On common paths the Windows dialect does what the POSIX dialect does, in native spelling: paths
are cleaned, split and cut alike, elements are joined alike if the first that is not empty does not
start with two slashes, and between ASCII paths without capital letters there is the same relative
path, or none in both. -/
theorem dialects_agree :
    (∀ p, IsCommon p →
      windows.clean p = windows.fromSlash (posix.clean p) ∧
      windows.split p = posix.split p ∧
      windows.dirname p = windows.fromSlash (posix.dirname p) ∧
      windows.basename p = windows.fromSlash (posix.basename p)) ∧
    (∀ es : List Text, (∀ e ∈ es, IsCommon e) →
      (∀ e, es.find? (fun e => e ≠ []) = some e → ¬ ['/', '/'] <+: e) →
      windows.join es = windows.fromSlash (posix.join es)) ∧
    ∀ base target, IsCommon base → IsCommon target → IsLowerAscii base → IsLowerAscii target →
      windows.rel base target = (posix.rel base target).map windows.fromSlash := by
  refine ⟨?_, ?_, ?_⟩
  · intro p h
    exact ⟨h.clean_eq, h.split_eq, h.dirname_eq, h.basename_eq⟩
  · intro es hes hfirst
    exact join_windows_eq hes hfirst
  · intro base target hbase htarget hbaseLower htargetLower
    exact rel_windows_eq hbase htarget hbaseLower htargetLower

/-- A path with a part to erase, elements with an empty one in front, and the way to a sibling. -/
theorem dialects_agree_sibling :
    (windows.clean "/a/../b/c".toList = windows.fromSlash (posix.clean "/a/../b/c".toList) ∧
      windows.dirname "/a/../b/c".toList = "\\b".toList ∧
      windows.basename "/a/../b/c".toList = "c".toList) ∧
    windows.join ["".toList, "a".toList, "/b".toList] = "a\\b".toList ∧
    windows.rel "/a/b".toList "/a/c".toList =
      (posix.rel "/a/b".toList "/a/c".toList).map windows.fromSlash := by
  obtain ⟨hpath, hjoin, hrel⟩ := dialects_agree
  obtain ⟨hclean, -, hdir, hbase⟩ := hpath "/a/../b/c".toList (by decide)
  refine ⟨⟨hclean, hdir.trans (by decide), hbase.trans (by decide)⟩, ?_, ?_⟩
  · refine (hjoin _ (by decide) ?_).trans (by decide)
    intro e he
    obtain rfl : "a".toList = e := Option.some.inj he
    decide
  · exact hrel _ _ (by decide) (by decide) (by decide) (by decide)

end Dialect

end PathAlgebra
