/-! # Positions and spans

Where something stands in a text: byte offsets for cutting, lines and columns for measuring and
reporting.  Nothing here ties the two to each other or to a text. -/

namespace Interline

/-- A line, counted from one, and a byte column within it, counted from zero. -/
structure Position where
  line : Nat
  column : Nat
deriving DecidableEq

/-- A half-open range of bytes with the positions of its ends. -/
structure Span where
  start : Nat
  stop : Nat
  startPos : Position
  stopPos : Position
deriving DecidableEq

namespace Span

/-- Bytes covered; a reversed range covers none. -/
def length (s : Span) : Nat := s.stop - s.start

/-- Whether no byte is covered. -/
def isEmpty (s : Span) : Bool := s.length == 0

/-- Whether the second span lies within the first. -/
def contains (outer inner : Span) : Bool :=
  decide (outer.start ≤ inner.start) && decide (inner.stop ≤ outer.stop)

end Span
end Interline
