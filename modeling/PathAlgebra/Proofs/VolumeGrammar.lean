import Mathlib.Order.Bounds.Basic
import PathAlgebra.Proofs.Volumes

/-!
# The grammar of volumes

A volume is written as a drive letter and a colon, or as two separators, a host, one separator and a
share name, where each separator is of either kind. Host and share name are not empty, hold no
separator and do not start with a dot. So a share has five characters at least, and there is none
where a third separator follows the first two or a second one follows the host.

The volume of a path is read by exactly this grammar (`volumeLength_grammar`). A share name can be
cut short and still be one, so the lengths of the shares that a path starts with are many; the one
that is read is the greatest of them.
-/

set_option autoImplicit false

namespace PathAlgebra

/-- The letters of drives. -/
def IsDriveLetter (c : Char) : Prop := ('a' ≤ c ∧ c ≤ 'z') ∨ ('A' ≤ c ∧ c ≤ 'Z')

/-- A path that starts with a drive letter and a colon. -/
def StartsWithDrive (p : Text) : Prop := ∃ c rest, p = c :: ':' :: rest ∧ IsDriveLetter c

/-- A host or a share name, character by character. -/
def IsShareWord (t : Text) : Prop :=
  t ≠ [] ∧ t.head? ≠ some '.' ∧ ∀ c ∈ t, c ≠ '/' ∧ c ≠ '\\'

instance (t : Text) : Decidable (IsShareWord t) :=
  decidable_of_iff (t ≠ [] ∧ t.head? ≠ some '.' ∧ t.all (fun c => c != '/' && c != '\\') = true)
    (by simp [IsShareWord])

/-- A path whose first `n` characters are two separators, a host, one separator and a share name. -/
def StartsWithShare (p : Text) (n : Nat) : Prop :=
  ∃ a b host c name rest, p = a :: b :: (host ++ c :: (name ++ rest)) ∧
    (∀ x ∈ [a, b, c], x = '/' ∨ x = '\\') ∧ IsShareWord host ∧ IsShareWord name ∧
    n = host.length + name.length + 3

theorem isDriveLetter_iff {c : Char} : IsDriveLetter c ↔ c.isAlpha = true := by
  have hupper : c.isUpper = true ↔ 'A' ≤ c ∧ c ≤ 'Z' := decide_eq_true_iff
  have hlower : c.isLower = true ↔ 'a' ≤ c ∧ c ≤ 'z' :=
    (Bool.and_eq_true_iff).trans (and_congr decide_eq_true_iff decide_eq_true_iff)
  have halpha : c.isAlpha = (c.isUpper || c.isLower) := rfl
  rw [halpha, Bool.or_eq_true, hupper, hlower]
  exact Or.comm

theorem isSlash_iff {c : Char} : isSlash c = true ↔ c = '/' ∨ c = '\\' := by
  simp only [isSlash, Bool.or_eq_true, beq_iff_eq]
  exact Or.comm

theorem isVolumePart_iff {t : Text} : IsVolumePart t ↔ IsShareWord t := by
  have hslash {c : Char} : isSlash c = false ↔ c ≠ '/' ∧ c ≠ '\\' := by
    rw [← Bool.not_eq_true, isSlash_iff, not_or]
  have hstarts : isVolumePart t = true ↔ t ≠ [] ∧ t.head? ≠ some '.' := by
    cases t <;> simp [isVolumePart]
  constructor
  · rintro ⟨hhead, hnone⟩
    exact ⟨(hstarts.1 hhead).1, (hstarts.1 hhead).2, fun c hc => hslash.1 (hnone c hc)⟩
  · rintro ⟨hne, hdot, hnone⟩
    exact ⟨hstarts.2 ⟨hne, hdot⟩, fun c hc => hslash.2 (hnone c hc)⟩

/-- The shares that a path starts with are the written ones. -/
theorem startsWithShare_iff {p : Text} {n : Nat} :
    StartsWithShare p n ↔ ∃ u, ShareWritten u ∧ u <+: p ∧ u.length = n := by
  constructor
  · rintro ⟨a, b, host, c, name, rest, rfl, hseps, hhost, hname, rfl⟩
    simp only [List.forall_mem_cons, ← isSlash_iff] at hseps
    obtain ⟨ha, hb, hc, -⟩ := hseps
    refine ⟨a :: b :: (host ++ c :: name), ?_, ⟨rest, by simp⟩, ?_⟩
    · exact .intro ha hb (isVolumePart_iff.2 hhost) hc (isVolumePart_iff.2 hname)
    · simp only [List.length_cons, List.length_append]
      omega
  · rintro ⟨u, hu, ⟨rest, rfl⟩, rfl⟩
    cases hu with
    | @intro a b c host name ha hb hhost hc hname =>
        refine ⟨a, b, host, c, name, rest, by simp, ?_, isVolumePart_iff.1 hhost,
          isVolumePart_iff.1 hname, ?_⟩
        · simp only [List.forall_mem_cons, ← isSlash_iff]
          exact ⟨ha, hb, hc, by simp⟩
        · simp only [List.length_cons, List.length_append]
          omega

namespace Dialect

variable {p : Text}

theorem startsWithDrive_iff : StartsWithDrive p ↔ windows.volume p = .drive := by
  simp only [StartsWithDrive, isDriveLetter_iff, volume_eq_drive_iff]

/-- The volume of a path is read by its grammar: two characters for a drive; otherwise the longest
share that the path starts with; nothing when there is none. -/
theorem volumeLength_grammar (p : Text) :
    (StartsWithDrive p → windows.volumeLength p = 2) ∧
    (¬ StartsWithDrive p → (∃ n, StartsWithShare p n) →
      IsGreatest {n | StartsWithShare p n} (windows.volumeLength p)) ∧
    (¬ StartsWithDrive p → (¬ ∃ n, StartsWithShare p n) → windows.volumeLength p = 0) := by
  refine ⟨fun hdrive => ?_, fun _ hshare => ?_, fun hdrive hshare => ?_⟩
  · rw [volumeLength, startsWithDrive_iff.1 hdrive]
    rfl
  · obtain ⟨n, hn⟩ := hshare
    obtain ⟨u, hu, hbegins, -⟩ := startsWithShare_iff.1 hn
    obtain ⟨m, hvol⟩ := exists_share (isShare_volume_iff.2 ⟨u, hu, hbegins⟩)
    rw [volumeLength, hvol]
    constructor
    · obtain ⟨v, rest, rfl, hv, -, rfl⟩ := volume_eq_share_iff.1 hvol
      exact startsWithShare_iff.2 ⟨v, hv, List.prefix_append v rest, rfl⟩
    -- Any other share goes on up to the next separator, and is the one that is read up to there.
    · intro k hk
      obtain ⟨w, hw, ⟨t, rfl⟩, rfl⟩ := startsWithShare_iff.1 hk
      rw [volume_shareWritten_append hw, List.length_append] at hvol
      have hlength := Volume.share.inj hvol
      rw [Volume.length]
      omega
  · rw [volumeLength_eq_zero_iff]
    cases hvol : windows.volume p with
    | none => rfl
    | drive => exact absurd (startsWithDrive_iff.2 hvol) hdrive
    | share n =>
        obtain ⟨u, rest, rfl, hu, -, -⟩ := volume_eq_share_iff.1 hvol
        exact absurd ⟨_, startsWithShare_iff.2 ⟨u, hu, List.prefix_append u rest, rfl⟩⟩ hshare

/-- A share with separators of both kinds is read up to the next separator, dots inside its names
included. A drive is read before anything else, and a host with a dot in front makes no share. -/
theorem volumeLength_grammar_longest :
    (¬ StartsWithDrive "/\\h.x/s.y\\z".toList ∧ StartsWithShare "/\\h.x/s.y\\z".toList 7 ∧
      IsGreatest {n | StartsWithShare "/\\h.x/s.y\\z".toList n} 9) ∧
    (StartsWithDrive "c:/".toList ∧ windows.volumeLength "c:/".toList = 2) ∧
    ¬ StartsWithDrive "\\\\.h\\s".toList ∧ (¬ ∃ n, StartsWithShare "\\\\.h\\s".toList n) ∧
      windows.volumeLength "\\\\.h\\s".toList = 0 := by
  have hshare : StartsWithShare "/\\h.x/s.y\\z".toList 7 :=
    ⟨'/', '\\', "h.x".toList, '/', "s".toList, ".y\\z".toList, rfl, by simp, by decide, by decide,
      rfl⟩
  have hother : ¬ StartsWithDrive "/\\h.x/s.y\\z".toList := by
    rw [startsWithDrive_iff]
    decide
  have hdrive : StartsWithDrive "c:/".toList := ⟨'c', ['/'], by decide, .inl (by decide)⟩
  have hdot : ¬ StartsWithDrive "\\\\.h\\s".toList := by
    rw [startsWithDrive_iff]
    decide
  have hnone : ¬ ∃ n, StartsWithShare "\\\\.h\\s".toList n := by
    rintro ⟨n, hn⟩
    obtain ⟨u, hu, hbegins, -⟩ := startsWithShare_iff.1 hn
    exact absurd (isShare_volume_iff.2 ⟨u, hu, hbegins⟩) (by decide)
  exact ⟨⟨hother, hshare, (volumeLength_grammar _).2.1 hother ⟨7, hshare⟩⟩,
    ⟨hdrive, (volumeLength_grammar _).1 hdrive⟩, hdot, hnone,
    (volumeLength_grammar _).2.2 hdot hnone⟩

end Dialect

end PathAlgebra
