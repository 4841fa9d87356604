/-
Places in a text.

A `Span` is a half-open range of byte offsets and a `Point` is a zero-based row with a byte column
in it.  Both are ordered lexicographically, by `Span.le` and `Point.le`.
-/

namespace Abnf

/-- The bytes from `start` up to, and not including, `stop`. -/
structure Span where
  start : Nat
  stop : Nat
deriving DecidableEq

namespace Span

/-- The span without bytes at an offset. -/
def empty (offset : Nat) : Span := ⟨offset, offset⟩

/-- The number of bytes in a span. -/
def length (s : Span) : Nat := s.stop - s.start

def isEmpty (s : Span) : Bool := s.start == s.stop

/-- Whether the byte at an offset is one of the span. -/
def contains (s : Span) (offset : Nat) : Bool :=
  decide (s.start ≤ offset) && decide (offset < s.stop)

theorem contains_iff {s : Span} {offset : Nat} :
    s.contains offset = true ↔ s.start ≤ offset ∧ offset < s.stop := by
  simp [contains]

/-- Whether each span starts before the other one stops. -/
def overlaps (s t : Span) : Bool :=
  decide (s.start < t.stop) && decide (t.start < s.stop)

/-- Spans in order of their start, then of their stop. -/
def le (s t : Span) : Bool :=
  decide (s.start < t.start) || (s.start == t.start && decide (s.stop ≤ t.stop))

theorem le_iff {s t : Span} :
    s.le t = true ↔ s.start < t.start ∨ s.start = t.start ∧ s.stop ≤ t.stop := by
  simp [le]

end Span

/-- A zero-based row and a column in bytes. -/
structure Point where
  row : Nat
  column : Nat
deriving DecidableEq

namespace Point

/-- Points in order of their row, then of their column. -/
def le (p q : Point) : Bool :=
  decide (p.row < q.row) || (p.row == q.row && decide (p.column ≤ q.column))

/-- A point as `row:column`. -/
def render (p : Point) : String := s!"{p.row}:{p.column}"

end Point

end Abnf
