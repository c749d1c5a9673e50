/-!
# Source spans

A span is a range of byte offsets into a source text, its end exclusive. An offset takes 32 bits,
and what lies farther behind in a text is put at the largest offset (`Span.ofRange`). A node that a
refactoring builds has no place in the source and carries `Span.nowhere` until the tree is printed
and parsed again. Spans come from callers too, so nothing here assumes that the end is not before
the start.
-/
namespace Refactory

/-- A range of byte offsets, end exclusive. -/
structure Span where
  /-- Offset of the first byte. -/
  start : Nat
  /-- Offset after the last byte. -/
  stop : Nat
deriving DecidableEq, Inhabited

namespace Span

/-- The largest offset of a span. -/
def largestOffset : Nat := 4294967295

/-- The span of a range of bytes, whose ends are at the largest offset if they are farther
behind. -/
def ofRange (start stop : Nat) : Span := ⟨min start largestOffset, min stop largestOffset⟩

/-- The span of what has no place in the source. -/
def nowhere : Span := ⟨0, 0⟩

/-- The number of bytes in a span whose end is not before its start. -/
def length (span : Span) : Nat := span.stop - span.start

/-- A span is empty when it ends where it starts. -/
def isEmpty (span : Span) : Bool := span.start == span.stop

/-- A span is nowhere when it is the span of generated code. -/
def isNowhere (span : Span) : Bool := span == nowhere

/-- An offset lies in a span when it is not before the start and before the end. -/
def contains (span : Span) (offset : Nat) : Bool :=
  span.start ≤ offset && offset < span.stop

/-- A span covers another when neither end of the other lies outside it. -/
def covers (span other : Span) : Bool :=
  span.start ≤ other.start && other.stop ≤ span.stop

/-- The smallest span that covers both. -/
def hull (span other : Span) : Span :=
  ⟨min span.start other.start, max span.stop other.stop⟩

/-- The written form: both offsets with two dots between them. -/
def text (span : Span) : String := toString span.start ++ ".." ++ toString span.stop

end Span

end Refactory
