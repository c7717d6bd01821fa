import PropContract.Text.Span

/-!
Edits of one text, applied in one pass. Edits that share a span keep their order of registration.
-/

namespace PropContract

/-- Replaces what a span covers by a text. An empty span inserts, an empty text deletes. -/
structure Edit where
  span : Span
  text : String
  deriving DecidableEq, Repr, Inhabited

inductive EditError where
  | outOfBounds (span : Span)
  | overlap (span : Span) (previousStop : Nat)
  deriving DecidableEq, Repr

namespace EditError

def message : EditError → String
  | outOfBounds s =>
    s!"edit at {s.start}..{s.stop} is outside the text or not on a char boundary"
  | overlap s previous =>
    s!"edit at {s.start}..{s.stop} overlaps an earlier edit ending at {previous}"

end EditError

namespace Edit

def insert (offset : Nat) (text : String) : Edit :=
  ⟨Span.ofOffsets offset offset, text⟩

def delete (span : Span) : Edit :=
  ⟨span, ""⟩

def before (a b : Edit) : Bool :=
  a.span.start < b.span.start || (a.span.start == b.span.start && a.span.stop ≤ b.span.stop)

def sorted (edits : List Edit) : List Edit :=
  edits.mergeSort before

def applyFrom (source : String) : Nat → List Edit → Except EditError String
  | last, [] => .ok (Text.dropBytes source last)
  | last, e :: es =>
    if !Text.isBoundary source e.span.start || !Text.isBoundary source e.span.stop then
      .error (.outOfBounds e.span)
    else if e.span.start < last then
      .error (.overlap e.span last)
    else do
      let kept := (Text.slice? source last e.span.start).getD ""
      let rest ← applyFrom source e.span.stop es
      .ok (kept ++ e.text ++ rest)

def apply (edits : List Edit) (source : String) : Except EditError String :=
  applyFrom source 0 (sorted edits)

end Edit

end PropContract
