import MacroExpansion.Tree.Basic
import MacroExpansion.Tree.Equality

/-! # Call sites

What a macro sees of the place where it is called: the call and its statement, the block around it
with every earlier expansion in place, and the declarations around that. -/

namespace MacroExpansion

/-- The nearest function, lambda or accessor around a call. -/
inductive Enclosing where
  /-- The statements of a script. -/
  | topLevel
  /-- A function, with every expansion made so far. -/
  | function (decl : FunctionDecl)
  /-- A lambda, as it was when its body was reached. -/
  | lambda (lambda : Lambda)
  /-- An accessor of a property. -/
  | accessor (property : String) (kind : AccessorKind)
  deriving DecidableEq

/-- The name by which the member around a call is known. -/
def Enclosing.memberName : Enclosing → String
  | .topLevel => "<top-level>"
  | .function decl => decl.name
  | .lambda _ => "<lambda>"
  | .accessor property .get => "get_" ++ property
  | .accessor property .set => "set_" ++ property

/-- The place of one macro call. -/
structure Site where
  /-- The path of the file. -/
  file : String
  /-- The call itself. -/
  call : Call
  /-- The statement that contains the call, as expanded so far. -/
  statement : Stmt
  /-- The nearest member or lambda around the call. -/
  enclosing : Enclosing
  /-- The function around the call, also through lambdas, as expanded so far. -/
  function : Option FunctionDecl
  /-- The smallest block around the statement, as expanded so far. -/
  block : Block
  /-- The position of the statement in the block. -/
  index : Nat
  deriving DecidableEq

namespace Site

/-- The statements of the block before the call's statement. -/
def preceding (site : Site) : List Stmt :=
  site.block.statements.take site.index

/-- The statements of the block after the call's statement. -/
def following (site : Site) : List Stmt :=
  site.block.statements.drop (site.index + 1)

/-- The statement that comes `offset` statements after the next one. -/
def following? (site : Site) (offset : Nat) : Option Stmt :=
  site.following[offset]?

end Site

end MacroExpansion
