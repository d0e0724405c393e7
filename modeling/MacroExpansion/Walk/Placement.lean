import MacroExpansion.Call.Arguments
import MacroExpansion.Tree.OwnCode

/-! # Placing output

The number and kind of the fragments that a macro produced decide how they stand for its call. No
fragment leaves an empty statement, one expression stands for the call itself, one statement for the
call's statement, one function for the function around the call, and several fragments are spliced
into the block. Statements that the call captured go with it: then whatever stands for the call or
its statement is spliced over all of them. -/

namespace MacroExpansion

/-- How the output of a macro is placed. -/
inductive SpliceKind where
  /-- The statement becomes empty. -/
  | empty
  /-- An expression stands for the call. -/
  | expression
  /-- A statement stands for the call's statement. -/
  | statement
  /-- Statements are spliced into the block. -/
  | block
  /-- A function stands for the function around the call. -/
  | function
  deriving DecidableEq, Repr, Inhabited

namespace SpliceKind

/-- The name of a kind. -/
def toJson : SpliceKind → Json
  | .empty => .string "Empty"
  | .expression => .string "Expression"
  | .statement => .string "Statement"
  | .block => .string "Block"
  | .function => .string "Function"

/-- Reads a kind. -/
def ofJson? (json : Json) : Option SpliceKind :=
  match json.variant? with
  | some ("Empty", .null) => some .empty
  | some ("Expression", .null) => some .expression
  | some ("Statement", .null) => some .statement
  | some ("Block", .null) => some .block
  | some ("Function", .null) => some .function
  | _ => none

end SpliceKind

/-- The output of a macro at its place. -/
inductive Placement where
  /-- The statement becomes empty. -/
  | empty
  /-- The expression stands for the call. -/
  | inPlace (expr : Expr)
  /-- The statement stands for the call's statement. -/
  | statement (stmt : Stmt)
  /-- The function stands for the function around the call. -/
  | function (decl : FunctionDecl)
  /-- The statements stand for the call's statement and those that the call captured. -/
  | splice (run : List Stmt)
  deriving DecidableEq

namespace Placement

/-- How the output is placed. -/
def kind : Placement → SpliceKind
  | .empty => .empty
  | .inPlace _ => .expression
  | .statement _ => .statement
  | .function _ => .function
  | .splice _ => .block

/-- The placement of fragments when the call captured nothing, or the fault of their number and
kind. -/
def ofFragments (symbol : MethodSymbol) (site : Site) : List Fragment → Except Fault Placement
  | [] =>
      if symbol.hasResult then .error (.valueMissing symbol.qualifiedName)
      -- only a whole statement can be left out
      else if site.statement.isCall site.call then .ok .empty
      else .error (.statementMissing symbol.qualifiedName)
  | [.expr expr] => .ok (.inPlace expr)
  | [.stmt stmt] => .ok (.statement stmt)
  | [.function decl] =>
      if site.function.isSome then .ok (.function decl)
      else .error (.functionOutsideFunction symbol.qualifiedName)
  | several =>
      match several.mapM Fragment.toStmt? with
      | some run => .ok (.splice run)
      | none => .error (.functionAmongOthers symbol.qualifiedName)

/-- The same output spliced over the call's statement and the captured ones. A function stays what
it is: the captured statements go with the function that it replaces. -/
def overCaptured (site : Site) : Placement → Placement
  | .empty => .splice []
  | .inPlace expr =>
      .splice [(site.statement.replaceCall? site.call expr).getD site.statement]
  | .statement stmt => .splice [stmt]
  | .function decl => .function decl
  | .splice run => .splice run

end Placement

/-- The placement of a macro's output. -/
def BoundCall.place (bound : BoundCall) (fragments : List Fragment) : Except Fault Placement :=
  (Placement.ofFragments bound.symbol bound.site fragments).map fun placement =>
    if bound.captured = 0 then placement else placement.overCaptured bound.site

end MacroExpansion
