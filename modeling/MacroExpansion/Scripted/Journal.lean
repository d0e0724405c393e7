import MacroExpansion.Call.Invocation
import MacroExpansion.Keyed

/-! # Scripted macros: the journal

What scripted bodies put on record, and how often each of them has run. -/

namespace MacroExpansion

namespace Scripted

/-- All that a macro sees. -/
structure Observation where
  /-- The place of the call. -/
  site : Site
  /-- The bound arguments. -/
  args : List Argument
  /-- The runtime types of the type arguments. -/
  typeArgs : List String
  /-- The number of fragments written so far, if there is a quote. -/
  emitted : Option Nat
  /-- The published call. -/
  activeCall : Option Call
  /-- The statement of the published call. -/
  activeStatement : Option Stmt

/-- One thing that a macro sees. -/
inductive Finding where
  /-- A number. -/
  | number (value : Int)
  /-- A constant. -/
  | constant (value : Literal)
  /-- A text, if there is one. -/
  | text (value : Option String)
  /-- A bound argument, if there is one. -/
  | argument (value : Option Argument)
  /-- A truth value. -/
  | flag (value : Bool)

/-- An entry of a journal. -/
inductive Entry where
  /-- All that a macro saw. -/
  | observed (observation : Observation)
  /-- One thing that a macro saw, or why it saw nothing. -/
  | probed (finding : Except String Finding)

/-- What scripted bodies leave behind. -/
structure Journal where
  /-- The entries in the order in which they were made. -/
  entries : Array Entry := #[]
  /-- How often the body of each number has run. -/
  runs : Keyed Nat Nat := []
  deriving Inhabited

namespace Journal

/-- Adds an entry. -/
def note (journal : Journal) (entry : Entry) : Journal :=
  { journal with entries := journal.entries.push entry }

/-- How often a body has run. -/
def runsOf (journal : Journal) (body : Nat) : Nat :=
  (journal.runs.lookup body).getD 0

/-- Counts one more run of a body. -/
def countRun (journal : Journal) (body : Nat) : Journal :=
  { journal with runs := journal.runs.put body (journal.runsOf body + 1) }

/-- Counting a run of a body adds one to its runs. -/
@[simp] theorem runsOf_countRun_self (journal : Journal) (body : Nat) :
    (journal.countRun body).runsOf body = journal.runsOf body + 1 := by
  simp [runsOf, countRun]

/-- Counting a run of a body leaves the runs of other bodies as they are. -/
theorem runsOf_countRun_of_ne (journal : Journal) {body other : Nat} (h : other ≠ body) :
    (journal.countRun body).runsOf other = journal.runsOf other := by
  unfold countRun runsOf
  rw [Keyed.lookup_put_of_ne _ h]

end Journal

end Scripted

end MacroExpansion
