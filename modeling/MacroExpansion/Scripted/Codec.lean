import MacroExpansion.Json.Defaults
import MacroExpansion.Scripted.Action

/-! # Scripted macros as JSON

An action is an object whose field `do` names it. Fields that it does not need may be left out. -/

namespace MacroExpansion

namespace Scripted

/-- The frame of a statement, in the field `wrap`. -/
def StatementFrame.ofJson (json : Json) : StatementFrame :=
  match json.textAt "wrap" with
  | "block" => .block
  | "if" => .branch
  | "while" => .loop
  | _ => .bare

/-- The frame of an expression, in the field `wrap`. -/
def ExpressionFrame.ofJson (json : Json) : ExpressionFrame :=
  match json.textAt "wrap" with
  | "call" => .call
  | "lambda" => .lambda
  | _ => .bare

/-- A part of the invocation, by the field `how`. -/
def Part.ofJson? (json : Json) : Option Part :=
  let index := json.sizeAt "index"
  match json.textAt "how" with
  | "statement" => some (.statement index (.ofJson json))
  | "block" => some (.block index (.ofJson json))
  | "syntax" => some (.written index (.ofJson json))
  | "constant" => some (.constant index (.ofJson json))
  | "int" => some (.int index (json.int64At "add") (.ofJson json))
  | "argument" => some (.quoteArgument index (.ofJson json))
  | "type" => some (.typeArgument index (.ofJson json))
  | _ => none

/-- The changes of a function. -/
def FunctionEdit.ofJson? (json : Json) : Option FunctionEdit := do
  return {
    suffix := json.textAt "suffix"
    body := ← json.partAt? (Json.asListOf? Stmt.ofJson?) "body"
    removesCall := json.flagAt "remove"
    appended := ← json.listAt? Stmt.ofJson? "append" }

/-- A part of the call site, by the field `what`. -/
def SitePart.ofJson? (json : Json) : Option SitePart :=
  match json.textAt "what" with
  | "call" => some .call
  | "statement" => some .statement
  | "block" => some .block
  | "enclosing" => some .enclosing
  | "function" => (FunctionEdit.ofJson? json).map .function
  | _ => none

/-- A probe, by the field `get`. -/
def Probe.ofJson? (json : Json) : Option Probe :=
  let index := json.sizeAt "index"
  match json.textAt "get" with
  | "quote" => some .quote
  | "quote_at" => some (.quoteAt index)
  | "constant" => some (.constant index)
  | "int" => some (.int index)
  | "statement" => some (.statement index)
  | "block" => some (.block index)
  | "syntax" => some (.written index)
  | "argument" => some (.quoteArgument index)
  | "arg" => some (.argument index)
  | "emitted" => some .emitted
  | "active" => some .active
  | _ => none

/-- The kind of an argument by its name. -/
def kindOfName? : String → Option ArgumentKind
  | "Quote" => some .quote
  | "Statement" => some .statement
  | "Block" => some .block
  | "Constant" => some .constant
  | "Syntax" => some .written
  | "Missing" => some .missing
  | _ => none

/-- The payload of a panic: a text, unless it is of another kind. -/
def payloadOfJson (json : Json) : Option String :=
  if json.textAt "payload" = "other" then none else some (json.textAt "message")

namespace Action

/-- Reads an action; the first argument bounds the nesting. -/
def read : Nat → Json → Option Action
  | 0, _ => none
  | depth + 1, json => do
      let quote := (json.given? "at").bind Json.asSize?
      match json.textAt "do" with
      | "emit" => return .emit quote (← Fragment.ofJson? (json.at? "fragment"))
      | "result" => return .emit quote (.expr (← Expr.ofJson? (json.at? "expr")))
      | "emit_arg" => return .emitPart quote (← Part.ofJson? json)
      | "emit_call" =>
          return .emitPart quote
            (.call (json.textAt "callee") (json.sizeAt "index") (json.int64At "add")
              (json.textAt "wrap" != "expr"))
      | "emit_site" => return .emitSite quote (← SitePart.ofJson? json)
      | "counter" => return .incrementPreceding quote
      | "ambient_expr" => return .replaceWithExpression (← Expr.ofJson? (json.at? "expr"))
      | "ambient_stmts" => return .replaceWithStatements (← json.listAt? Stmt.ofJson? "statements")
      | "reenter" => return .reenter
      | "cancel" => return .cancel
      | "fail" => return .fail (json.textAt "message")
      | "panic" => return .panic (payloadOfJson json)
      | "observe" => return .observe
      | "probe" => return .probe (← Probe.ofJson? json)
      | "if_arg" =>
          return .ifArgument (json.sizeAt "index") (kindOfName? (json.textAt "is"))
            (← json.listAt? (read depth) "then") (← json.listAt? (read depth) "else")
      | "if_int" =>
          return .ifAtLeast (json.sizeAt "index") (json.int64At "min")
            (← json.listAt? (read depth) "then") (← json.listAt? (read depth) "else")
      | "by_run" => return .byRun (← json.listAt? (Json.asListOf? (read depth)) "cases")
      | _ => none

/-- Reads an action. -/
def ofJson? (json : Json) : Option Action :=
  read json.depth json

end Action

/-- Reads the actions of a body. -/
def actionsOfJson? (json : Json) : Option (List Action) :=
  json.asListOf? Action.ofJson?

end Scripted

end MacroExpansion
