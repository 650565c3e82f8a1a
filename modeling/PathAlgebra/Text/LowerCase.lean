import PathAlgebra.Text.Basic
import PathAlgebra.Text.CaseTable

/-!
# Lower case

The full lower-case mapping of the Unicode standard. A character maps by itself except in two
cases: `İ` maps to `i` and a combining dot, and `Σ` maps to the final form `ς` at the end of a
word, that is, when a cased character comes before it and none comes after it, case-ignorable
characters aside on both sides. ASCII text maps letter by letter (`lowerCase_ascii`).
-/

set_option autoImplicit false

namespace PathAlgebra.Text

/-- Membership of a code point in one of the ranges. -/
def inRanges (ranges : List (Nat × Nat)) (n : Nat) : Bool :=
  ranges.any fun r => r.1 ≤ n && n ≤ r.2

/-- A cased character that is not case-ignorable. -/
def isCased (c : Char) : Bool := inRanges casedRanges c.toNat

/-- A character that the end of a word is looked for across. -/
def isCaseIgnorable (c : Char) : Bool := inRanges caseIgnorableRanges c.toNat

/-- Whether the first character that is not case-ignorable is cased. -/
def meetsCased (t : Text) : Bool := (t.dropWhile isCaseIgnorable).head?.any isCased

/-- Whether a run maps a code point. -/
def CaseRun.covers (r : CaseRun) (n : Nat) : Bool :=
  r.first ≤ n && n ≤ r.last && (n - r.first) % r.step == 0

/-- The simple lower-case mapping. -/
def lowerChar (c : Char) : Char :=
  if c.toNat < 128 then c.toLower
  else
    match lowerRuns.find? fun r => r.covers c.toNat with
    | some r => Char.ofNat (r.image + (c.toNat - r.first))
    | none => c

/-- The lower-case form of a character between the characters before it, nearest first, and the
characters after it. -/
def lowerAt (before after : Text) (c : Char) : Text :=
  if c = 'Σ' then [if meetsCased before && !meetsCased after then 'ς' else 'σ']
  else if c = 'İ' then ['i', '\u0307']
  else [lowerChar c]

/-- The lower-case form of a text after the characters `before`, nearest first. -/
def lowerFrom (before : Text) : Text → Text
  | [] => []
  | c :: t => lowerAt before t c ++ lowerFrom (c :: before) t

/-- The lower-case form of a text. -/
def lowerCase (t : Text) : Text := lowerFrom [] t

theorem lowerAt_ascii {c : Char} (h : c.toNat < 128) (before after : Text) :
    lowerAt before after c = [c.toLower] := by
  have hSigma : c ≠ 'Σ' := by rintro rfl; revert h; decide
  have hDotted : c ≠ 'İ' := by rintro rfl; revert h; decide
  simp [lowerAt, lowerChar, hSigma, hDotted, h]

theorem lowerFrom_ascii {t : Text} (h : ∀ c ∈ t, c.toNat < 128) (before : Text) :
    lowerFrom before t = t.map Char.toLower := by
  induction t generalizing before with
  | nil => rfl
  | cons c t ih =>
      rw [lowerFrom, lowerAt_ascii (h c (by simp)),
        ih (fun c hc => h c (List.mem_cons_of_mem _ hc))]
      rfl

theorem lowerCase_ascii {t : Text} (h : ∀ c ∈ t, c.toNat < 128) :
    lowerCase t = t.map Char.toLower :=
  lowerFrom_ascii h []

end PathAlgebra.Text
