/-!
# Spans

A span is a half-open range of byte offsets into a source text.  Nothing keeps `start` below
`stop`: a span whose ends are inverted is empty.
-/

namespace SlotCode

structure Span where
  start : Nat
  stop : Nat
deriving DecidableEq

namespace Span

/-- The smallest span that covers both. -/
def join (a b : Span) : Span :=
  { start := min a.start b.start, stop := max a.stop b.stop }

/-- Number of bytes covered; an inverted span covers none. -/
def length (s : Span) : Nat :=
  s.stop - s.start

def isEmpty (s : Span) : Bool :=
  s.length = 0

theorem join_comm (a b : Span) : a.join b = b.join a := by
  simp [join, Nat.min_comm, Nat.max_comm]

theorem isEmpty_iff (s : Span) : s.isEmpty = true ↔ s.stop ≤ s.start := by
  simp [isEmpty, length, Nat.sub_eq_zero_iff_le]

end Span

end SlotCode
