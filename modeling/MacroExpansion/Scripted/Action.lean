import MacroExpansion.Call.Invocation

/-! # Scripted macros: actions

A host that links no code of its own can hand over a macro body as a list of actions. Actions write
fragments made from what the invocation offers, choose between lists of actions, or put on record
what the macro saw. -/

namespace MacroExpansion

/-- The kinds of arguments. -/
inductive ArgumentKind where
  /-- A quote. -/
  | quote
  /-- A captured statement. -/
  | statement
  /-- A captured block. -/
  | block
  /-- A constant. -/
  | constant
  /-- An argument that is not constant. -/
  | written
  /-- A placeholder. -/
  | missing
  deriving DecidableEq, Repr, Inhabited

/-- The kind of an argument. -/
def Argument.kind : Argument → ArgumentKind
  | .quote _ => .quote
  | .statement _ => .statement
  | .block _ => .block
  | .constant _ => .constant
  | .written _ => .written
  | .missing => .missing

namespace Scripted

/-- What a written statement is put into. -/
inductive StatementFrame where
  /-- Nothing. -/
  | bare
  /-- A block. -/
  | block
  /-- A conditional. -/
  | branch
  /-- A loop. -/
  | loop
  deriving DecidableEq, Repr, Inhabited

/-- What a written expression is put into. -/
inductive ExpressionFrame where
  /-- Nothing. -/
  | bare
  /-- A call. -/
  | call
  /-- A lambda. -/
  | lambda
  deriving DecidableEq, Repr, Inhabited

/-- The part of an invocation that an action writes. All positions but that of `typeArgument` are
positions of parameters. -/
inductive Part where
  /-- A captured statement. -/
  | statement (index : Nat) (frame : StatementFrame)
  /-- A captured block. -/
  | block (index : Nat) (frame : StatementFrame)
  /-- The argument as the invocation offers it in written form. -/
  | written (index : Nat) (frame : ExpressionFrame)
  /-- A constant. -/
  | constant (index : Nat) (frame : ExpressionFrame)
  /-- An integer with a number added to it. -/
  | int (index : Nat) (added : Int64) (frame : ExpressionFrame)
  /-- The argument of the call that a quote belongs to. -/
  | quoteArgument (index : Nat) (frame : ExpressionFrame)
  /-- The runtime type of a type argument, as a text. -/
  | typeArgument (index : Nat) (frame : ExpressionFrame)
  /-- A call with an integer as its argument, as an expression or as a statement. -/
  | call (callee : String) (index : Nat) (added : Int64) (asStatement : Bool)
  deriving DecidableEq, Repr

/-- The changes of a function that is written again. -/
structure FunctionEdit where
  /-- What is added to its name. -/
  suffix : String := ""
  /-- Its new statements, if it gets new ones. -/
  body : Option (List Stmt) := none
  /-- Whether the statement at the position of the call is left out. -/
  removesCall : Bool := false
  /-- Statements added at the end. -/
  appended : List Stmt := []

/-- The part of a call site that an action writes. -/
inductive SitePart where
  /-- The call. -/
  | call
  /-- The statement of the call. -/
  | statement
  /-- The block around the call. -/
  | block
  /-- The nearest function or lambda, else the name of the member around the call. -/
  | enclosing
  /-- The function around the call with changes. -/
  | function (edit : FunctionEdit)

/-- What an action looks at and puts on record. -/
inductive Probe where
  /-- The sequence number of the first quote. -/
  | quote
  /-- The sequence number of the quote at a position. -/
  | quoteAt (index : Nat)
  /-- A constant. -/
  | constant (index : Nat)
  /-- An integer. -/
  | int (index : Nat)
  /-- A captured statement. -/
  | statement (index : Nat)
  /-- A captured block. -/
  | block (index : Nat)
  /-- An argument in written form. -/
  | written (index : Nat)
  /-- An argument of the call that the first quote belongs to. -/
  | quoteArgument (index : Nat)
  /-- An argument as it was bound. -/
  | argument (index : Nat)
  /-- The number of fragments written so far. -/
  | emitted
  /-- Whether a call is published. -/
  | active
  deriving DecidableEq, Repr

/-- One step of a scripted body. An action that writes does so through the quote at the position
`at?`, or through the first quote. -/
inductive Action where
  /-- Writes a fragment. -/
  | emit (at? : Option Nat) (fragment : Fragment)
  /-- Writes a part of the invocation. -/
  | emitPart (at? : Option Nat) (part : Part)
  /-- Writes a part of the call site. -/
  | emitSite (at? : Option Nat) (part : SitePart)
  /-- Writes an increment of every integer variable declared before the call. -/
  | incrementPreceding (at? : Option Nat)
  /-- Asks through the call binding for the call to become an expression. -/
  | replaceWithExpression (expr : Expr)
  /-- Asks through the call binding for the statement to become other statements. -/
  | replaceWithStatements (statements : List Stmt)
  /-- Publishes the call a second time, which fails. -/
  | reenter
  /-- Asks the host to stop. -/
  | cancel
  /-- Gives up. -/
  | fail (message : String)
  /-- Panics, with a text if the payload is one. -/
  | panic (payload : Option String)
  /-- Puts on record all that the macro sees. -/
  | observe
  /-- Puts on record one thing that the macro sees. -/
  | probe (probe : Probe)
  /-- Goes on with one of two lists, by the kind of an argument; no kind stands for no argument. -/
  | ifArgument (index : Nat) (kind : Option ArgumentKind) (holds fails : List Action)
  /-- Goes on with one of two lists, by the size of an integer. -/
  | ifAtLeast (index : Nat) (bound : Int64) (holds fails : List Action)
  /-- Goes on with one of some lists, by the number of earlier runs of the body; the last list also
  serves all later runs. -/
  | byRun (cases : List (List Action))

end Scripted

end MacroExpansion
