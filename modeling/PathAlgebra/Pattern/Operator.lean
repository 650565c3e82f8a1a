import PathAlgebra.Dialect
import PathAlgebra.Text.Quoted

/-!
# Single-character operators

The operators of a pattern that stand for one character each: a literal, `?` for any character
but the separator, and a class in brackets. A class lists ranges and can be negated by `^` as its
first character. Under the POSIX dialect a backslash makes the next character a literal or a
class member; under the Windows dialect it is an ordinary character.

`readOperators` reads a whole text as operators and has no answer for a malformed one. `run`
takes one character off a name per operator.
-/

set_option autoImplicit false

namespace PathAlgebra

/-- A pattern that cannot be read; it carries the pattern when a whole one was asked for. -/
structure Malformed where
  pattern : Option Text
  deriving DecidableEq

/-- The wording of the complaint. -/
def Malformed.message : Malformed → Text
  | ⟨none⟩ => "syntax error in pattern".toList
  | ⟨some p⟩ => "syntax error in pattern: ".toList ++ p.quoted

/-- The characters from `first` to `last` in code point order. -/
structure CharRange where
  first : Char
  last : Char
  deriving DecidableEq

/-- Whether the range holds a character. -/
def CharRange.holds (r : CharRange) (c : Char) : Bool := r.first ≤ c && c ≤ r.last

/-- An operator that stands for one character. -/
inductive Operator where
  | any
  | literal (c : Char)
  | charClass (negated : Bool) (ranges : List CharRange)
  deriving DecidableEq

namespace Operator

/-- Whether the operator stands for a character. -/
def accepts (sep : Char) : Operator → Char → Bool
  | any, c => c != sep
  | literal l, c => c == l
  | charClass negated ranges, c => (ranges.any fun r => r.holds c) != negated

/-- What is left of a name when each operator has taken one character; none when an operator
does not accept its character or finds no character. -/
def run (sep : Char) : List Operator → Text → Option Text
  | [], s => some s
  | _ :: _, [] => none
  | op :: ops, c :: s => if op.accepts sep c then run sep ops s else none

/-- A run succeeds exactly when there are enough characters and each operator accepts its own. -/
theorem run_eq (sep : Char) (ops : List Operator) (s : Text) :
    run sep ops s =
      if ops.length ≤ s.length ∧ (ops.zip s).all (fun x => x.1.accepts sep x.2) = true
      then some (s.drop ops.length) else none := by
  induction ops generalizing s with
  | nil => simp [run]
  | cons op ops ih =>
      cases s with
      | nil => simp [run]
      | cons c s =>
          rw [run, ih, List.zip_cons_cons, List.all_cons]
          cases op.accepts sep c with
          | false => simp
          | true =>
              rw [if_pos rfl]
              refine ite_congr (propext ?_) (fun _ => rfl) (fun _ => rfl)
              rw [Bool.true_and, List.length_cons, List.length_cons, Nat.succ_le_succ_iff]

end Operator

namespace Dialect

/-- Whether a backslash escapes the next character of a pattern. -/
def escapes : Dialect → Bool
  | posix => true
  | windows => false

/-- A class member at the start of a text, possibly escaped, and the text after it. The text
after it is not empty, since the class still has to be closed. -/
def readMember (d : Dialect) : Text → Option (Char × Text)
  | [] => none
  | c :: t =>
      if c = '-' ∨ c = ']' then none
      else
        match if d.escapes && c == '\\' then t else c :: t with
        | m :: n :: rest => some (m, n :: rest)
        | _ => none

/-- A range at the start of a text: a member, or two with a dash between them. -/
def readRange (d : Dialect) (t : Text) : Option (CharRange × Text) :=
  match d.readMember t with
  | some (lo, '-' :: t) => (d.readMember t).map fun (hi, rest) => (⟨lo, hi⟩, rest)
  | some (lo, t) => some (⟨lo, lo⟩, t)
  | none => none

theorem readMember_length_lt {d : Dialect} {t rest : Text} {c : Char}
    (h : d.readMember t = some (c, rest)) : rest.length < t.length := by
  cases t with
  | nil => simp [readMember] at h
  | cons c t =>
      rw [readMember] at h
      split at h
      · simp at h
      · split at h
        · next heq =>
          simp only [Option.some.injEq, Prod.mk.injEq] at h
          obtain ⟨-, rfl⟩ := h
          split at heq
          · simp [heq]
          · have := congrArg List.length heq
            simp at this ⊢
            omega
        · simp at h

theorem readRange_length_lt {d : Dialect} {t rest : Text} {r : CharRange}
    (h : d.readRange t = some (r, rest)) : rest.length < t.length := by
  rw [readRange] at h
  split at h
  · next hlo =>
    obtain ⟨⟨hi, u⟩, hhi, heq⟩ := Option.map_eq_some_iff.1 h
    simp only [Prod.mk.injEq] at heq
    obtain ⟨-, rfl⟩ := heq
    have h₁ := readMember_length_lt hlo
    have h₂ := readMember_length_lt hhi
    simp only [List.length_cons] at h₁
    omega
  · next hlo =>
    simp only [Option.some.injEq, Prod.mk.injEq] at h
    obtain ⟨-, rfl⟩ := h
    exact readMember_length_lt ‹_›
  · simp at h

/-- The ranges of a class up to its closing bracket, at least one, and the text after it. -/
def readRanges (d : Dialect) (t : Text) : Option (List CharRange × Text) :=
  match _h : d.readRange t with
  | none => none
  | some (r, ']' :: rest) => some ([r], rest)
  | some (r, t') => (d.readRanges t').map fun (rs, rest) => (r :: rs, rest)
  termination_by t.length
  decreasing_by exact readRange_length_lt _h

theorem readRanges_length_lt {d : Dialect} {t rest : Text} {rs : List CharRange}
    (h : d.readRanges t = some (rs, rest)) : rest.length < t.length := by
  fun_induction readRanges d t generalizing rs with
  | case1 t _ => simp at h
  | case2 t r rest' hr =>
      simp only [Option.some.injEq, Prod.mk.injEq] at h
      obtain ⟨-, rfl⟩ := h
      have := readRange_length_lt hr
      simp only [List.length_cons] at this
      omega
  | case3 t r t' _ hr ih =>
      obtain ⟨⟨rs', u⟩, hrs, heq⟩ := Option.map_eq_some_iff.1 h
      simp only [Prod.mk.injEq] at heq
      obtain ⟨-, rfl⟩ := heq
      exact Nat.lt_trans (ih hrs) (readRange_length_lt hr)

/-- A class after its opening bracket, and the text after it. -/
def readClass (d : Dialect) : Text → Option (Operator × Text)
  | '^' :: t => (d.readRanges t).map fun (rs, rest) => (.charClass true rs, rest)
  | t => (d.readRanges t).map fun (rs, rest) => (.charClass false rs, rest)

/-- The operator that a text starts with, and the text after it. -/
def readOperator (d : Dialect) : Text → Option (Operator × Text)
  | [] => none
  | '[' :: t => d.readClass t
  | '?' :: t => some (.any, t)
  | c :: t =>
      if d.escapes && c == '\\' then
        match t with
        | [] => none
        | e :: t => some (.literal e, t)
      else some (.literal c, t)

theorem readClass_length_lt {d : Dialect} {t rest : Text} {op : Operator}
    (h : d.readClass t = some (op, rest)) : rest.length < t.length := by
  unfold readClass at h
  split at h
  · obtain ⟨⟨rs, u⟩, hrs, heq⟩ := Option.map_eq_some_iff.1 h
    simp only [Prod.mk.injEq] at heq
    obtain ⟨-, rfl⟩ := heq
    exact Nat.lt_succ_of_lt (readRanges_length_lt hrs)
  · obtain ⟨⟨rs, u⟩, hrs, heq⟩ := Option.map_eq_some_iff.1 h
    simp only [Prod.mk.injEq] at heq
    obtain ⟨-, rfl⟩ := heq
    exact readRanges_length_lt hrs

theorem readOperator_length_lt {d : Dialect} {t rest : Text} {op : Operator}
    (h : d.readOperator t = some (op, rest)) : rest.length < t.length := by
  unfold readOperator at h
  split at h
  · simp at h
  · have := readClass_length_lt h
    simp only [List.length_cons]
    omega
  · simp_all
  · split at h
    · split at h
      · simp at h
      · simp only [Option.some.injEq, Prod.mk.injEq] at h
        simp only [← h.2, List.length_cons]
        omega
    · simp_all

/-- A text read as operators from end to end. -/
def readOperators (d : Dialect) (t : Text) : Option (List Operator) :=
  match t with
  | [] => some []
  | c :: cs =>
      match _h : d.readOperator (c :: cs) with
      | none => none
      | some (op, rest) => (d.readOperators rest).map (op :: ·)
  termination_by t.length
  decreasing_by exact readOperator_length_lt _h

end Dialect

end PathAlgebra
