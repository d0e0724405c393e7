/-! # Source spans

A span locates a piece of source text by two byte offsets. Nodes that were not written in any
source carry the default span `0, 0`. -/

namespace MacroExpansion

/-- A byte range of the source text. Nothing requires `start` to come before `stop`. -/
structure Span where
  /-- Offset of the first byte. -/
  start : UInt64 := 0
  /-- Offset just past the last byte. -/
  stop : UInt64 := 0
  deriving DecidableEq, Repr, Inhabited

namespace Span

/-- Length in bytes; a span that ends before it starts has length zero. -/
def length (span : Span) : Nat :=
  span.stop.toNat - span.start.toNat

/-- A span is empty when it covers no byte. -/
def isEmpty (span : Span) : Bool :=
  span.length == 0

/-- A span is empty exactly when it does not reach past its start. -/
theorem isEmpty_iff (span : Span) : span.isEmpty = true ↔ span.stop ≤ span.start := by
  simp [isEmpty, length, UInt64.le_iff_toNat_le, Nat.sub_eq_zero_iff_le]

end Span

end MacroExpansion
