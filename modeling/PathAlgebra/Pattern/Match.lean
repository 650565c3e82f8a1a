import PathAlgebra.Pattern.Chunk
import PathAlgebra.Pattern.Segment

/-!
# Matching names

A name matches a pattern as a whole. Matching goes segment by segment: the pass over a chunk
(`matchChunk`) is run at the start of the name and, after a star, at each later start that can be
reached without stepping over a separator, up to the first where the chunk has its place; the last
chunk has to use up the name. A placed chunk is never moved again.

The pass reports what is malformed wherever it is run, so a malformed chunk is an error whatever the
name; a chunk behind a failed one is not looked at. Trying the starts is the same as reading the
operators of the chunk once and looking for their first place in the name (`place`,
`placeChunk_eq`), and this is how proofs take a segment apart (`matchSegments_cons`).
-/

set_option autoImplicit false

namespace PathAlgebra

namespace Dialect

/-! ## Matching by chunks -/

/-- What is left of a text behind a chunk at its start. A last chunk has to leave nothing. -/
def placeChunkHere (d : Dialect) (chunk : Text) (last : Bool) (s : Text) :
    Except Malformed (Option Text) :=
  (d.matchChunk chunk s).map fun left => left.filter fun rest => !last || rest.isEmpty

/-- What is left of a name behind the first place of a chunk. A starred chunk may start behind
characters other than the separator. -/
def placeChunk (d : Dialect) (chunk : Text) (last starred : Bool) :
    Text → Except Malformed (Option Text)
  | [] => d.placeChunkHere chunk last []
  | c :: name =>
      match d.placeChunkHere chunk last (c :: name) with
      | .ok none =>
          if starred && c != d.sep then d.placeChunk chunk last starred name else .ok none
      | placed => placed

/-- Whether a name matches a list of segments. -/
def matchSegments (d : Dialect) : List Segment → Text → Except Malformed Bool
  | [], name => .ok name.isEmpty
  | segment :: more, name =>
      if segment.starred && segment.chunk.isEmpty then .ok (!name.contains d.sep)
      else
        match d.placeChunk segment.chunk more.isEmpty segment.starred name with
        | .error e => .error e
        | .ok none => .ok false
        | .ok (some rest) => d.matchSegments more rest

/-- Whether a name matches a pattern. -/
def matchName (d : Dialect) (pattern name : Text) : Except Malformed Bool :=
  (d.matchSegments (d.segments pattern) name).mapError fun _ => ⟨some pattern⟩

/-- A character that means something else than itself in a pattern. -/
def isMeta (d : Dialect) (c : Char) : Bool :=
  c == '*' || c == '?' || c == '[' || (d.escapes && c == '\\')

/-- Whether a text holds a character that is special in a pattern. -/
def hasMeta (d : Dialect) (t : Text) : Bool := t.any d.isMeta

end Dialect

/-! ## Matching by operators -/

/-- What is left of a text behind operators run at its start. Those of a last chunk have to leave
nothing. -/
def placeHere (sep : Char) (ops : List Operator) (last : Bool) (s : Text) : Option Text :=
  (Operator.run sep ops s).filter fun rest => !last || rest.isEmpty

/-- What is left of a name behind the first place of the operators. Those of a starred chunk may
start behind characters other than the separator. -/
def place (sep : Char) (ops : List Operator) (last starred : Bool) : Text → Option Text
  | [] => placeHere sep ops last []
  | c :: name =>
      match placeHere sep ops last (c :: name) with
      | some rest => some rest
      | none => if starred && c != sep then place sep ops last starred name else none

namespace Dialect

theorem placeChunkHere_eq (d : Dialect) (chunk : Text) (last : Bool) (s : Text) :
    d.placeChunkHere chunk last s =
      match d.readOperators chunk with
      | none => .error ⟨none⟩
      | some ops => .ok (placeHere d.sep ops last s) := by
  rw [placeChunkHere, matchChunk_eq]
  cases d.readOperators chunk with
  | none => rfl
  | some ops => rfl

/-- A chunk has its first place where its operators have theirs. One that cannot be read is an error
for every name. -/
theorem placeChunk_eq (d : Dialect) (chunk : Text) (last starred : Bool) (name : Text) :
    d.placeChunk chunk last starred name =
      match d.readOperators chunk with
      | none => .error ⟨none⟩
      | some ops => .ok (place d.sep ops last starred name) := by
  induction name with
  | nil => exact d.placeChunkHere_eq chunk last []
  | cons c name ih =>
      rw [placeChunk, placeChunkHere_eq, ih]
      cases d.readOperators chunk with
      | none => rfl
      | some ops =>
          dsimp only
          rw [place]
          cases placeHere d.sep ops last (c :: name) with
          | some rest => rfl
          | none =>
              dsimp only
              split
              · rfl
              · rfl

/-- One segment, its chunk read as operators. -/
theorem matchSegments_cons (d : Dialect) (segment : Segment) (more : List Segment) (name : Text) :
    d.matchSegments (segment :: more) name =
      if segment.starred && segment.chunk.isEmpty then .ok (!name.contains d.sep)
      else
        match d.readOperators segment.chunk with
        | none => .error ⟨none⟩
        | some ops =>
            match place d.sep ops more.isEmpty segment.starred name with
            | none => .ok false
            | some rest => d.matchSegments more rest := by
  rw [matchSegments, placeChunk_eq]
  cases d.readOperators segment.chunk with
  | none => rfl
  | some ops =>
      dsimp only
      cases place d.sep ops more.isEmpty segment.starred name with
      | none => rfl
      | some rest => rfl

end Dialect

end PathAlgebra
