import MacroExpansion.Fragment
import MacroExpansion.Call.Site

/-! # Quotes

A macro writes its output through quotes. Every quote parameter receives a quote of its own, told
apart by its sequence number, but all quotes of one invocation write to one buffer, in the order of
the writes. The buffers that quotes refer to are kept in a store; `fragments_push_self` and
`fragments_push_of_ne` say that a write reaches one buffer and no other. -/

namespace MacroExpansion

/-- The name of a buffer in a store. -/
structure BufferId where
  /-- The position in the store. -/
  index : Nat
  deriving DecidableEq, Repr, Inhabited

/-- Buffers with the fragments written since they were last taken. -/
structure Buffers where
  /-- What each buffer holds, by its position. -/
  contents : List (Array Fragment) := []
  deriving Inhabited

namespace Buffers

/-- What a buffer holds, oldest first. -/
def fragments (buffers : Buffers) (id : BufferId) : List Fragment :=
  ((buffers.contents[id.index]?).map Array.toList).getD []

/-- The number of fragments that a buffer holds. -/
def size (buffers : Buffers) (id : BufferId) : Nat :=
  ((buffers.contents[id.index]?).map Array.size).getD 0

/-- A new empty buffer. -/
def create (buffers : Buffers) : BufferId × Buffers :=
  (⟨buffers.contents.length⟩, ⟨buffers.contents ++ [#[]]⟩)

/-- Writes a fragment to a buffer. -/
def push (buffers : Buffers) (id : BufferId) (fragment : Fragment) : Buffers :=
  ⟨buffers.contents.modify id.index (·.push fragment)⟩

/-- Takes everything out of a buffer. -/
def take (buffers : Buffers) (id : BufferId) : List Fragment × Buffers :=
  (buffers.fragments id, ⟨buffers.contents.set id.index #[]⟩)

/-- A buffer counts what it holds. -/
theorem size_eq_length (buffers : Buffers) (id : BufferId) :
    buffers.size id = (buffers.fragments id).length := by
  unfold size fragments
  cases buffers.contents[id.index]? <;> simp

/-- A new buffer is empty, and the others hold what they held. -/
theorem fragments_create (buffers : Buffers) (id : BufferId) :
    buffers.create.2.fragments id = buffers.fragments id := by
  unfold fragments create
  rcases Nat.lt_or_ge id.index buffers.contents.length with h | h
  · rw [List.getElem?_append_left h]
  · rw [List.getElem?_append_right h, List.getElem?_eq_none h]
    -- behind the others stands the new buffer alone
    cases id.index - buffers.contents.length <;> rfl

/-- A buffer holds what was written to it last, after everything written before. -/
theorem fragments_push_self (buffers : Buffers) (id : BufferId) (fragment : Fragment)
    (h : id.index < buffers.contents.length) :
    (buffers.push id fragment).fragments id = buffers.fragments id ++ [fragment] := by
  simp [fragments, push, h]

/-- A write does not reach other buffers. -/
theorem fragments_push_of_ne (buffers : Buffers) {id other : BufferId} (fragment : Fragment)
    (h : id ≠ other) : (buffers.push id fragment).fragments other = buffers.fragments other := by
  have hi : id.index ≠ other.index := fun e => h (by cases id; cases other; simp_all)
  simp [fragments, push, hi]

/-- A buffer that was taken is empty. -/
theorem fragments_take_self (buffers : Buffers) (id : BufferId) :
    (buffers.take id).2.fragments id = [] := by
  by_cases h : id.index < buffers.contents.length <;> simp [fragments, take, h]

/-- Taking one buffer leaves the others as they are. -/
theorem fragments_take_of_ne (buffers : Buffers) {id other : BufferId} (h : id ≠ other) :
    (buffers.take id).2.fragments other = buffers.fragments other := by
  have hi : id.index ≠ other.index := fun e => h (by cases id; cases other; simp_all)
  simp [fragments, take, List.getElem?_set_ne hi]

end Buffers

/-- What a quote parameter receives: a view of the call site and a buffer to write to. -/
structure Quote where
  /-- The position of the parameter that received the quote. -/
  sequence : Nat
  /-- The place of the call. -/
  site : Site
  /-- The buffer that the quote writes to. -/
  buffer : BufferId
  deriving DecidableEq

namespace Quote

/-- A quote on a buffer. -/
def of (site : Site) (buffer : BufferId) : Quote :=
  { sequence := 0, site, buffer }

/-- The same quote for another parameter. -/
def withSequence (quote : Quote) (sequence : Nat) : Quote :=
  { quote with sequence }

/-- The argument of the call at a position, as written. -/
def argument? (quote : Quote) (index : Nat) : Option Expr :=
  quote.site.call.args[index]?

/-- Quotes share a buffer when they write to the same one. -/
def sharesWith (quote other : Quote) : Bool :=
  quote.buffer == other.buffer

/-- Writes a fragment. -/
def emit (quote : Quote) (fragment : Fragment) (buffers : Buffers) : Buffers :=
  buffers.push quote.buffer fragment

/-- Writes an expression that is to stand for the call. -/
def result (quote : Quote) (expr : Expr) (buffers : Buffers) : Buffers :=
  quote.emit (.expr expr) buffers

/-- The number of fragments written so far through any quote on the same buffer. -/
def emitted (quote : Quote) (buffers : Buffers) : Nat :=
  buffers.size quote.buffer

end Quote

end MacroExpansion
