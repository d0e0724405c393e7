import MacroExpansion.Walk.Scope
import MacroExpansion.Walk.Splice

/-! # Cursors

A cursor stands at one statement of a walked sequence. It knows what surrounds the sequence, and the
splices that are still pending in it; from these it tells what a macro sees at the statement, and
what surrounds the statements nested in it. -/

namespace MacroExpansion

/-- A statement of a walked sequence. -/
structure Cursor where
  /-- What surrounds the sequence. -/
  scope : Scope
  /-- The number of runs that the sequence was inserted through. -/
  depth : Nat
  /-- Where the block of the sequence is written. -/
  span : Span
  /-- The sequence without its pending splices. -/
  statements : List Stmt
  /-- The splices that are pending in it. -/
  splices : SpliceStack Stmt := {}
  /-- The position of the statement in the sequence. -/
  index : Nat

namespace Cursor

/-- The statement. -/
def stmt (cursor : Cursor) : Stmt :=
  (cursor.statements[cursor.index]?).getD default

/-- The cursor with another statement in place of its own. -/
def withStmt (cursor : Cursor) (stmt : Stmt) : Cursor :=
  { cursor with statements := cursor.statements.set cursor.index stmt }

/-- The next statement of the sequence. -/
def next (cursor : Cursor) : Cursor :=
  { cursor with index := cursor.index + 1 }

/-- Splices a run over the statement and the ones after it, `deleted` in all, and goes on behind
them. -/
def spliceOver (cursor : Cursor) (deleted : Nat) (run : List Stmt) : Cursor :=
  { cursor with
    splices := cursor.splices.push cursor.index deleted run
    index := cursor.index + deleted }

/-- The block of the sequence as it reads with the pending splices. -/
def block (cursor : Cursor) : Block :=
  ⟨cursor.splices.preview cursor.statements, cursor.span⟩

/-- Where the statement stands in that block. -/
def blockIndex (cursor : Cursor) : Nat :=
  cursor.splices.shifted cursor.index

/-- The function around the sequence as it reads with the pending splices. -/
def function? (cursor : Cursor) : Option FunctionDecl :=
  cursor.scope.function.map (·.plug cursor.block)

/-- The nearest member or lambda around the sequence; a function as it reads with the pending
splices. -/
def enclosing (cursor : Cursor) : Enclosing :=
  match cursor.scope.enclosing, cursor.function? with
  | .function _, some current => .function current
  | other, _ => other

/-- What a macro sees that is called in the statement. -/
def site (cursor : Cursor) (file : String) (call : Call) : Site where
  file
  call
  statement := cursor.stmt
  enclosing := cursor.enclosing
  function := cursor.function?
  block := cursor.block
  index := cursor.blockIndex

/-- What surrounds the content of a slot of the statement. A lambda is the nearest member of its own
body, as it reads when the slot is entered. -/
def inside (cursor : Cursor) (slot : Slot) : Scope where
  enclosing :=
    match slot with
    | .lambda n => ((cursor.stmt.ownLambdas[n]?).map .lambda).getD cursor.scope.enclosing
    -- the other bodies belong to the member around the statement
    | _ => cursor.scope.enclosing
  function :=
    cursor.scope.function.map (·.enter
      { statements := cursor.block.statements, span := cursor.span, index := cursor.blockIndex, slot })

/-- Outside of functions no function is seen. -/
theorem function?_eq_none {cursor : Cursor} (h : cursor.scope.function = none) :
    cursor.function? = none := by
  rw [function?, h]
  rfl

/-- Another statement leaves the sequence as long as it was. -/
@[simp] theorem length_withStmt (cursor : Cursor) (stmt : Stmt) :
    (cursor.withStmt stmt).statements.length = cursor.statements.length :=
  List.length_set

/-- The statement of a cursor within its sequence is the one that was put there. -/
theorem stmt_withStmt (cursor : Cursor) (stmt : Stmt)
    (h : cursor.index < cursor.statements.length) : (cursor.withStmt stmt).stmt = stmt := by
  simp [Cursor.stmt, withStmt, h]

end Cursor

end MacroExpansion
