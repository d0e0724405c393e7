import MacroExpansion.Tree.Basic

/-! # Building fragments

Short constructors for the code that macros emit. Nodes built here were not written in any source,
so all of them carry the default span. -/

namespace MacroExpansion

/-! ## Expressions -/

namespace Expr

/-- A constant. -/
def ofLiteral (value : Literal) : Expr := .literal value default

/-- An integer constant. -/
def ofInt (value : Int64) : Expr := ofLiteral (.int value)

/-- A truth value. -/
def ofBool (value : Bool) : Expr := ofLiteral (.bool value)

/-- A text constant. -/
def ofString (value : String) : Expr := ofLiteral (.string value)

/-- The absent value. -/
def null : Expr := ofLiteral .null

/-- A plain name. -/
def ofName (name : String) : Expr := .name name default

end Expr

/-- A call without type arguments. -/
def Call.plain (callee : String) (args : List Expr) : Call := ⟨callee, [], args, default⟩

namespace Expr

/-- A call without type arguments, as an expression. -/
def callOf (callee : String) (args : List Expr) : Expr := .call (.plain callee args)

/-- A call with type arguments, as an expression. -/
def genericCall (callee : String) (typeArgs : List TypeRef) (args : List Expr) : Expr :=
  .call ⟨callee, typeArgs, args, default⟩

/-- An operator applied to one operand. -/
def apply (op : UnaryOp) (operand : Expr) : Expr := .unary op operand default

/-- The increment that follows its operand. -/
def postIncrement (operand : Expr) : Expr := apply .postIncrement operand

/-- An operator between two operands. -/
def combine (op : BinaryOp) (lhs rhs : Expr) : Expr := .binary op lhs rhs default

/-- An assignment. -/
def assignTo (target value : Expr) : Expr := .assign target value default

/-- A lambda that evaluates an expression. -/
def lambdaOf (params : List Param) (body : Expr) : Expr := .lambda ⟨params, .expr body, default⟩

/-- A lambda that runs statements. -/
def blockLambda (params : List Param) (body : List Stmt) : Expr :=
  .lambda ⟨params, .block ⟨body, default⟩, default⟩

end Expr

/-! ## Statements -/

/-- A block of statements. -/
def Block.of (statements : List Stmt) : Block := ⟨statements, default⟩

namespace Stmt

/-- An expression evaluated for its effect. -/
def evaluate (e : Expr) : Stmt := .expr e default

/-- The empty statement. -/
def nothing : Stmt := .empty default

/-- A local variable. -/
def declare (type : TypeRef) (name : String) (init : Option Expr) : Stmt :=
  .localVar type name init default

/-- A nested block. -/
def blockOf (statements : List Stmt) : Stmt := .block (.of statements)

/-- A conditional. -/
def branchOn (condition : Expr) (thenBranch : Stmt) (elseBranch : Option Stmt) : Stmt :=
  .branch condition thenBranch elseBranch default

/-- A loop. -/
def loopWhile (condition : Expr) (body : Stmt) : Stmt := .loop condition body default

/-- Leaving the function. -/
def giveBack (value : Option Expr) : Stmt := .ret value default

end Stmt

/-! ## Declarations -/

/-- A parameter without a default value. -/
def Param.required (name : String) (type : TypeRef) : Param := ⟨name, type, none⟩

/-- A parameter with a default value. -/
def Param.optional (name : String) (type : TypeRef) (value : Expr) : Param := ⟨name, type, some value⟩

/-- A static function without type parameters and attributes. -/
def FunctionDecl.plain (name : String) (params : List Param) (returnType : TypeRef)
    (body : List Stmt) : FunctionDecl :=
  ⟨name, true, [], params, returnType, .of body, [], default⟩

/-- An accessor that reads a property. -/
def Accessor.getter (body : List Stmt) : Accessor := ⟨.get, .of body, default⟩

/-- A property. -/
def PropertyDecl.plain (name : String) (type : TypeRef) (accessors : List Accessor) : PropertyDecl :=
  ⟨name, type, accessors, default⟩

end MacroExpansion
