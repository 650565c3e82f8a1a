import PathAlgebra.Pattern.Operator

/-!
# The pattern language

What a pattern says, apart from how it is matched. A pattern is written from terms: a star, or an
operator that stands for one character. `TermsWritten` is the grammar, as a relation between the
terms and their text:

* `*`, `?`, and a character other than `*`, `?`, `[` and the escape, for themselves;
* an escaped character for that character, under the POSIX dialect;
* `[`, an optional `^`, one range or more, and `]`. A range is a member, or two with `-` between
  them; a member is a character other than `-`, `]` and the escape, or any escaped character. A
  `^` directly after `[` always negates.

`Matches` says that a name can be cut into consecutive pieces that the terms accept in order: a
star any run without the separator, an operator one character.
-/

set_option autoImplicit false

namespace PathAlgebra

/-- A term of a pattern. -/
inductive Term where
  | star
  | single (op : Operator)
  deriving DecidableEq

/-- The text of a class member. -/
inductive MemberWritten (d : Dialect) : Char → Text → Prop where
  | plain {c : Char} : c ≠ '-' → c ≠ ']' → (d.escapes = true → c ≠ '\\') →
      MemberWritten d c [c]
  | escaped {c : Char} : d.escapes = true → MemberWritten d c ['\\', c]

/-- The text of a range. -/
inductive RangeWritten (d : Dialect) : CharRange → Text → Prop where
  | one {c : Char} {t : Text} : MemberWritten d c t → RangeWritten d ⟨c, c⟩ t
  | span {lo hi : Char} {t u : Text} : MemberWritten d lo t → MemberWritten d hi u →
      RangeWritten d ⟨lo, hi⟩ (t ++ '-' :: u)

/-- The text of one range or more. -/
inductive RangesWritten (d : Dialect) : List CharRange → Text → Prop where
  | last {r : CharRange} {t : Text} : RangeWritten d r t → RangesWritten d [r] t
  | more {r : CharRange} {rs : List CharRange} {t u : Text} : RangeWritten d r t →
      RangesWritten d rs u → RangesWritten d (r :: rs) (t ++ u)

/-- The text of an operator. -/
inductive OperatorWritten (d : Dialect) : Operator → Text → Prop where
  | any : OperatorWritten d .any ['?']
  | plain {c : Char} : c ≠ '*' → c ≠ '?' → c ≠ '[' → (d.escapes = true → c ≠ '\\') →
      OperatorWritten d (.literal c) [c]
  | escaped {c : Char} : d.escapes = true → OperatorWritten d (.literal c) ['\\', c]
  | charClass {rs : List CharRange} {t : Text} : RangesWritten d rs t → t.head? ≠ some '^' →
      OperatorWritten d (.charClass false rs) ('[' :: t ++ [']'])
  | negated {rs : List CharRange} {t : Text} : RangesWritten d rs t →
      OperatorWritten d (.charClass true rs) ('[' :: '^' :: t ++ [']'])

/-- The text of a list of terms. -/
inductive TermsWritten (d : Dialect) : List Term → Text → Prop where
  | nil : TermsWritten d [] []
  | star {ts : List Term} {p : Text} : TermsWritten d ts p → TermsWritten d (.star :: ts) ('*' :: p)
  | single {op : Operator} {ts : List Term} {t p : Text} : OperatorWritten d op t →
      TermsWritten d ts p → TermsWritten d (.single op :: ts) (t ++ p)

/-- A name cut into consecutive pieces that the terms accept in order. -/
inductive Matches (sep : Char) : List Term → Text → Prop where
  | nil : Matches sep [] []
  | star {ts : List Term} {run rest : Text} : sep ∉ run → Matches sep ts rest →
      Matches sep (.star :: ts) (run ++ rest)
  | single {op : Operator} {ts : List Term} {c : Char} {rest : Text} : op.accepts sep c = true →
      Matches sep ts rest → Matches sep (.single op :: ts) (c :: rest)

namespace Dialect

/-- A pattern that the grammar writes. -/
def WellFormed (d : Dialect) (p : Text) : Prop := ∃ ts, TermsWritten d ts p

end Dialect

/-- One operator more takes one character more. -/
theorem matches_single_iff {sep : Char} {op : Operator} {ts : List Term} {name : Text} :
    Matches sep (.single op :: ts) name ↔
      ∃ c rest, name = c :: rest ∧ op.accepts sep c = true ∧ Matches sep ts rest := by
  constructor
  · intro h
    cases h with
    | single hc hrest => exact ⟨_, _, rfl, hc, hrest⟩
  · rintro ⟨c, rest, rfl, hc, hrest⟩
    exact .single hc hrest

end PathAlgebra
