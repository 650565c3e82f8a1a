import PathAlgebra.Pattern.Operator

/-!
# Matching one chunk

A chunk is read and matched in one pass. Each operator is compared with the first character of the
name that is left. Behind a mismatch, or behind the end of the name, no name is left, and the pass
goes on to report what is malformed in the chunk.

The pass does not read the chunk apart and does not keep the operators. `matchOperator_eq` says that
one step reads what `readOperator` reads, whether a name is left or not, and `matchFrom_eq` that the
whole pass reads what `readOperators` reads and takes what `Operator.run` takes.
-/

set_option autoImplicit false

namespace PathAlgebra

namespace Operator

/-- What is left of a name behind one character that the operator accepts. -/
def take (sep : Char) (op : Operator) : Text → Option Text
  | [] => none
  | c :: s => if op.accepts sep c then some s else none

/-- A run takes a character for its first operator and runs on. -/
theorem run_cons (sep : Char) (op : Operator) (ops : List Operator) (s : Text) :
    run sep (op :: ops) s = (op.take sep s).bind (run sep ops) := by
  cases s with
  | nil => rfl
  | cons c s =>
      rw [run, take]
      split
      · rfl
      · rfl

end Operator

namespace Dialect

variable {d : Dialect} {t rest : Text} {left : Option Text}

/-! ## The pass -/

/-- The ranges of a class up to its closing bracket, each compared with a character when there is
one: whether one of them holds it, and the text after the class. -/
def scanRanges (d : Dialect) (c : Option Char) (t : Text) : Option (Bool × Text) :=
  match _h : d.readRange t with
  | none => none
  | some (r, ']' :: rest) => some (c.any r.holds, rest)
  | some (r, t') =>
      (d.scanRanges c t').map fun (held, rest) => (c.any r.holds || held, rest)
  termination_by t.length
  decreasing_by exact readRange_length_lt _h

/-- The ranges of a class, compared with the first character that is left. -/
def matchRanges (d : Dialect) (left : Option Text) (negated : Bool) (t : Text) :
    Option (Option Text × Text) :=
  (d.scanRanges (left.bind List.head?) t).map fun (held, rest) =>
    (if held == negated then none else left.bind List.tail?, rest)

/-- A class after its opening bracket, compared with the first character that is left. -/
def matchClass (d : Dialect) (left : Option Text) : Text → Option (Option Text × Text)
  | '^' :: t => d.matchRanges left true t
  | t => d.matchRanges left false t

/-- One operator of a chunk, compared with the first character that is left: what is left of the
name behind it, and the chunk after the operator. -/
def matchOperator (d : Dialect) (left : Option Text) : Text → Option (Option Text × Text)
  | [] => none
  | '[' :: t => d.matchClass left t
  | '?' :: t => some (left.bind (Operator.any.take d.sep), t)
  | c :: t =>
      if d.escapes && c == '\\' then
        match t with
        | [] => none
        | e :: t => some (left.bind ((Operator.literal e).take d.sep), t)
      else some (left.bind ((Operator.literal c).take d.sep), t)

/-! ## One step -/

/-- Comparing does not change the reading, and a character is held when one of the ranges holds
it. -/
theorem scanRanges_eq (d : Dialect) (c : Option Char) (t : Text) :
    d.scanRanges c t = (d.readRanges t).map fun x =>
      (c.any fun c => x.1.any fun r => r.holds c, x.2) := by
  fun_induction readRanges d t with
  | case1 t h =>
      rw [scanRanges]
      split <;> simp_all
  | case2 t r rest h =>
      rw [scanRanges]
      split <;> simp_all
  | case3 t r t' hclose h ih =>
      have hany (rs : List CharRange) : (c.any fun c => (r :: rs).any fun r => r.holds c) =
          (c.any r.holds || c.any fun c => rs.any fun r => r.holds c) := by
        cases c <;> rfl
      have hscan : d.scanRanges c t =
          (d.scanRanges c t').map fun x => (c.any r.holds || x.1, x.2) := by
        rw [scanRanges]
        split
        · next hnone => simp_all
        · next r' rest heq =>
          rw [h] at heq
          cases heq
          exact absurd rfl (hclose rest)
        · next r' u _ heq =>
          rw [h] at heq
          cases heq
          rfl
      rw [hscan, ih, Option.map_map, Option.map_map]
      congr 1
      funext x
      exact Prod.ext (hany x.1).symm rfl

/-- The ranges and the negation decide whether a class takes the first character that is left. -/
theorem matchRanges_eq (d : Dialect) (left : Option Text) (negated : Bool) (t : Text) :
    d.matchRanges left negated t = (d.readRanges t).map fun x =>
      (left.bind ((Operator.charClass negated x.1).take d.sep), x.2) := by
  have htake (rs : List CharRange) :
      (if ((left.bind List.head?).any fun c => rs.any fun r => r.holds c) == negated then none
        else left.bind List.tail?) = left.bind ((Operator.charClass negated rs).take d.sep) := by
    -- With no character to compare nothing is held. A negated class says yes to that, but then there
    -- is no name to go on with either.
    match left with
    | none => simp
    | some [] => simp [Operator.take]
    | some (c :: s) =>
        have hnot (held : Bool) : (if held == negated then none else some s) =
            if held != negated then some s else none := by
          cases held <;> cases negated <;> rfl
        exact hnot _
  rw [matchRanges, scanRanges_eq, Option.map_map]
  congr 1
  funext x
  exact Prod.ext (htake x.1) rfl

theorem matchClass_eq (d : Dialect) (left : Option Text) (t : Text) :
    d.matchClass left t =
      (d.readClass t).map fun x => (left.bind (x.1.take d.sep), x.2) := by
  fun_cases readClass d t with
  | case1 t =>
      rw [matchClass, matchRanges_eq, Option.map_map]
      rfl
  | case2 t hneg =>
      rw [matchClass, matchRanges_eq, Option.map_map]
      · rfl
      · exact hneg

/-- One step reads one operator, whatever name is left, and takes a character for it. -/
theorem matchOperator_eq (d : Dialect) (left : Option Text) (t : Text) :
    d.matchOperator left t =
      (d.readOperator t).map fun x => (left.bind (x.1.take d.sep), x.2) := by
  fun_cases readOperator d t with
  | case1 => rfl
  | case2 t => exact matchClass_eq d left t
  | case3 t => rfl
  | case4 c hclass hany hesc => simp [matchOperator, hesc]
  | case5 c hclass hany hesc e t => simp [matchOperator, hesc]
  | case6 c t hclass hany hesc => simp [matchOperator, hesc]

theorem matchOperator_length_lt {next : Option Text}
    (h : d.matchOperator left t = some (next, rest)) : rest.length < t.length := by
  rw [matchOperator_eq] at h
  obtain ⟨⟨op, u⟩, hread, heq⟩ := Option.map_eq_some_iff.1 h
  cases heq
  exact readOperator_length_lt hread

/-! ## The whole chunk -/

/-- A chunk matched from its first operator to its last: what is left of the name behind it, none
behind a mismatch. -/
def matchFrom (d : Dialect) (left : Option Text) (chunk : Text) :
    Except Malformed (Option Text) :=
  match chunk with
  | [] => .ok left
  | c :: t =>
      match _h : d.matchOperator left (c :: t) with
      | none => .error ⟨none⟩
      | some (left, rest) => d.matchFrom left rest
  termination_by chunk.length
  decreasing_by exact matchOperator_length_lt _h

/-- Whether the operators of a chunk match the start of a text, and what is left of it. -/
def matchChunk (d : Dialect) (chunk s : Text) : Except Malformed (Option Text) :=
  d.matchFrom (some s) chunk

/-- A text that starts with no operator is malformed, whatever name is left. -/
theorem matchFrom_of_none {c : Char} (h : d.readOperator (c :: t) = none) :
    d.matchFrom left (c :: t) = .error ⟨none⟩ := by
  rw [matchFrom]
  split
  · rfl
  · next heq =>
    rw [matchOperator_eq, h] at heq
    cases heq

/-- The pass takes a character for the first operator and goes on behind it. -/
theorem matchFrom_of_some {op : Operator} (h : d.readOperator t = some (op, rest)) :
    d.matchFrom left t = d.matchFrom (left.bind (op.take d.sep)) rest := by
  have hstep : d.matchOperator left t = some (left.bind (op.take d.sep), rest) := by
    rw [matchOperator_eq, h]
    rfl
  cases t with
  | nil => cases h
  | cons c t =>
      rw [matchFrom]
      split
      · next hnone =>
        rw [hstep] at hnone
        cases hnone
      · next heq =>
        rw [hstep] at heq
        cases heq
        rfl

/-- The pass reads what `readOperators` reads, whatever name is left, and takes what `Operator.run`
takes. -/
theorem matchFrom_eq (d : Dialect) (left : Option Text) (chunk : Text) :
    d.matchFrom left chunk =
      match d.readOperators chunk with
      | none => .error ⟨none⟩
      | some ops => .ok (left.bind (Operator.run d.sep ops)) := by
  fun_induction readOperators d chunk generalizing left with
  | case1 =>
      rw [matchFrom]
      cases left <;> rfl
  | case2 c cs h => exact matchFrom_of_none h
  | case3 c cs op rest h ih =>
      rw [matchFrom_of_some h, ih]
      cases d.readOperators rest with
      | none => rfl
      | some ops =>
          have hrun : (left.bind (op.take d.sep)).bind (Operator.run d.sep ops) =
              left.bind (Operator.run d.sep (op :: ops)) := by
            rw [Option.bind_assoc]
            congr 1
            funext s
            rw [Operator.run_cons]
          exact congrArg Except.ok hrun

theorem matchChunk_eq (d : Dialect) (chunk s : Text) :
    d.matchChunk chunk s =
      match d.readOperators chunk with
      | none => .error ⟨none⟩
      | some ops => .ok (Operator.run d.sep ops s) :=
  matchFrom_eq d (some s) chunk

end Dialect

end PathAlgebra
