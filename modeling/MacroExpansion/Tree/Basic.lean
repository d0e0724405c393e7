import MacroExpansion.Span
import MacroExpansion.TypeRef
import MacroExpansion.Literal
import MacroExpansion.Tree.Operator

/-! # Syntax trees

The tree that a host compiler hands over and gets back: expressions, statements and blocks as one
mutual family, and above them functions, properties, types and whole files. Every node carries the
span it was written at. -/

namespace MacroExpansion

mutual

/-- An expression. -/
inductive Expr where
  /-- A constant. -/
  | literal (value : Literal) (span : Span)
  /-- A plain name. -/
  | name (name : String) (span : Span)
  /-- A call. -/
  | call (call : Call)
  /-- An operator applied to one operand. -/
  | unary (op : UnaryOp) (operand : Expr) (span : Span)
  /-- An operator between two operands. -/
  | binary (op : BinaryOp) (lhs rhs : Expr) (span : Span)
  /-- An assignment. -/
  | assign (target value : Expr) (span : Span)
  /-- An anonymous function. -/
  | lambda (lambda : Lambda)

/-- A call of a function by its dotted path. -/
structure Call where
  /-- The path as written. -/
  callee : String
  /-- Type arguments, in order. -/
  typeArgs : List TypeRef
  /-- Value arguments, in order. -/
  args : List Expr
  /-- Where the call is written. -/
  span : Span

/-- An anonymous function. -/
structure Lambda where
  /-- Its parameters, in order. -/
  params : List Param
  /-- What it evaluates. -/
  body : LambdaBody
  /-- Where the lambda is written. -/
  span : Span

/-- The body of a lambda. -/
inductive LambdaBody where
  /-- A single expression. -/
  | expr (expr : Expr)
  /-- A block of statements. -/
  | block (block : Block)

/-- A declared parameter of a function or lambda. -/
structure Param where
  /-- The name that the body uses. -/
  name : String
  /-- The declared type. -/
  type : TypeRef
  /-- The default value, if one is declared. -/
  default : Option Expr

/-- A statement. -/
inductive Stmt where
  /-- The empty statement, `;`. -/
  | empty (span : Span)
  /-- An expression evaluated for its effect. -/
  | expr (expr : Expr) (span : Span)
  /-- A local variable with an optional initial value. -/
  | localVar (type : TypeRef) (name : String) (init : Option Expr) (span : Span)
  /-- A nested block. -/
  | block (block : Block)
  /-- A conditional with an optional second branch. -/
  | branch (condition : Expr) (thenBranch : Stmt) (elseBranch : Option Stmt) (span : Span)
  /-- A loop that runs while its condition holds. -/
  | loop (condition : Expr) (body : Stmt) (span : Span)
  /-- Leaving a function with an optional value. -/
  | ret (value : Option Expr) (span : Span)

/-- A sequence of statements. -/
structure Block where
  /-- The statements, in order. -/
  statements : List Stmt
  /-- Where the block is written. -/
  span : Span

end

instance : Inhabited Expr := ⟨.literal default default⟩

instance : Inhabited Stmt := ⟨.empty default⟩

instance : Inhabited Block := ⟨⟨[], default⟩⟩

/-- A function declaration. -/
structure FunctionDecl where
  /-- The declared name. -/
  name : String
  /-- Functions that need no instance are static. -/
  isStatic : Bool
  /-- Names of the type parameters. -/
  typeParams : List String
  /-- Parameters, in order. -/
  params : List Param
  /-- The result type. -/
  returnType : TypeRef
  /-- The code of the function. -/
  body : Block
  /-- Names of the attributes written on the declaration. -/
  attributes : List String
  /-- Where the declaration is written. -/
  span : Span

/-- The two kinds of property accessors. -/
inductive AccessorKind where
  /-- Reads the property. -/
  | get
  /-- Writes the property. -/
  | set
  deriving DecidableEq, Repr, Inhabited

/-- One accessor of a property. -/
structure Accessor where
  /-- Whether it reads or writes. -/
  kind : AccessorKind
  /-- The code of the accessor. -/
  body : Block
  /-- Where the accessor is written. -/
  span : Span

/-- A property declaration. -/
structure PropertyDecl where
  /-- The declared name. -/
  name : String
  /-- The declared type. -/
  type : TypeRef
  /-- Its accessors, in order. -/
  accessors : List Accessor
  /-- Where the property is written. -/
  span : Span

/-- A member of a type. -/
inductive Member where
  /-- A function. -/
  | function (decl : FunctionDecl)
  /-- A property. -/
  | property (decl : PropertyDecl)

/-- A type declaration. -/
structure TypeDecl where
  /-- The declared name. -/
  name : String
  /-- Its members, in order. -/
  members : List Member
  /-- Where the type is written. -/
  span : Span

/-- A top-level item of a file. -/
inductive Item where
  /-- A type with its members. -/
  | typeDecl (decl : TypeDecl)
  /-- A free function. -/
  | function (decl : FunctionDecl)
  /-- Statements of a script. -/
  | statements (block : Block)

/-- One file as a tree. -/
structure SyntaxTree where
  /-- The path of the file. -/
  path : String
  /-- The text it was read from, if the host kept it. -/
  source : Option String
  /-- Its top-level items, in order. -/
  items : List Item

namespace Expr

/-- Where the expression is written. -/
def span : Expr → Span
  | .literal _ span | .name _ span | .unary _ _ span | .binary _ _ _ span | .assign _ _ span => span
  | .call c => c.span
  | .lambda l => l.span

/-- The call that the expression is, if it is one. -/
def asCall? : Expr → Option Call
  | .call c => some c
  | _ => none

/-- The constant that the expression is, if it is one. -/
def asLiteral? : Expr → Option Literal
  | .literal value _ => some value
  | _ => none

/-- The plain name that the expression is, if it is one. -/
def asName? : Expr → Option String
  | .name n _ => some n
  | _ => none

/-- As an operand such an expression is written between parentheses. -/
def needsParens : Expr → Bool
  | .binary .. | .assign .. | .lambda _ => true
  | _ => false

end Expr

/-- The last segment of the dotted path. -/
def Call.simpleName (call : Call) : String :=
  String.ofList (call.callee.toList.reverse.takeWhile (· != '.')).reverse

namespace Stmt

/-- Where the statement is written. -/
def span : Stmt → Span
  | .empty span | .expr _ span | .localVar _ _ _ span | .branch _ _ _ span | .loop _ _ span
  | .ret _ span => span
  | .block b => b.span

/-- The block that the statement is, if it is one. -/
def asBlock? : Stmt → Option Block
  | .block b => some b
  | _ => none

/-- Whether the statement is a block. -/
def isBlock (stmt : Stmt) : Bool :=
  stmt.asBlock?.isSome

/-- A bare expression as a statement, at the place of the expression. -/
def ofExpr (expr : Expr) : Stmt :=
  .expr expr expr.span

end Stmt

/-- The first parameter of that name. -/
def FunctionDecl.param? (decl : FunctionDecl) (name : String) : Option Param :=
  decl.params.find? (·.name == name)

end MacroExpansion
