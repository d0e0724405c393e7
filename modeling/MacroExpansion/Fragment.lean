import MacroExpansion.Tree.Text
import MacroExpansion.Tree.Equality
import MacroExpansion.Tree.Codec

/-! # Fragments

The pieces of code that a macro produces. -/

namespace MacroExpansion

/-- A piece of code produced by a macro. -/
inductive Fragment where
  /-- An expression. -/
  | expr (expr : Expr)
  /-- A statement. -/
  | stmt (stmt : Stmt)
  /-- A function declaration. -/
  | function (decl : FunctionDecl)
  deriving DecidableEq

namespace Fragment

/-- The fragment as a statement; a function declaration is none. -/
def toStmt? : Fragment → Option Stmt
  | .expr e => some (.ofExpr e)
  | .stmt s => some s
  | .function _ => none

/-- Surface text of a fragment. -/
def text : Fragment → String
  | .expr e => e.text
  | .stmt s => s.text
  | .function decl => decl.text

/-- The JSON form of a fragment. -/
def toJson : Fragment → Json
  | .expr e => .object [("Expr", e.toJson)]
  | .stmt s => .object [("Stmt", s.toJson)]
  | .function decl => .object [("Function", decl.toJson)]

/-- Reads a fragment. -/
def ofJson? (json : Json) : Option Fragment :=
  match json.variant? with
  | some ("Expr", payload) => (Expr.ofJson? payload).map .expr
  | some ("Stmt", payload) => (Stmt.ofJson? payload).map .stmt
  | some ("Function", payload) => (FunctionDecl.ofJson? payload).map .function
  | _ => none

end Fragment

end MacroExpansion
