import MacroExpansion.Call.Site
import MacroExpansion.Tree.OwnCode

/-! # Scopes

While nested statements are walked, the code around them is kept as a function with a hole: one
level for every statement that was entered, each with its statements as they read at that moment and
the slot that was entered. `FunctionContext.plug` puts statements into the hole, so that a macro
sees the whole function as expanded so far.

A slot shows what it holds as a block, and takes a block back. A branch or loop body that is no
block shows itself as its only statement and stays bare while there is only one; a lambda that
evaluates an expression shows it as an expression statement and goes on to evaluate an expression
while there is nothing else. -/

namespace MacroExpansion

/-- The nested statements of a statement. -/
inductive Slot where
  /-- Those of a block. -/
  | block
  /-- The first branch of a conditional. -/
  | thenBranch
  /-- The second branch of a conditional. -/
  | elseBranch
  /-- The body of a loop. -/
  | loop
  /-- The body of the lambda at that position among the own lambdas. -/
  | lambda (position : Nat)
  deriving DecidableEq, Repr

/-! ## Bodies as blocks -/

/-- A branch or loop body as a block. -/
def Stmt.asBody (stmt : Stmt) : Block :=
  match stmt with
  | .block b => b
  | bare => ⟨[bare], bare.span⟩

/-- A branch or loop body with other statements. A bare body becomes a block unless it is to hold
exactly one statement. -/
def Stmt.withBody (stmt : Stmt) (body : Block) : Stmt :=
  match stmt, body.statements with
  | .block _, _ => .block body
  | _, [only] => only
  | _, _ => .block body

/-- The body of a lambda as a block. -/
def Lambda.asBody (lambda : Lambda) : Block :=
  match lambda.body with
  | .block b => b
  | .expr e => ⟨[.ofExpr e], e.span⟩

/-- A lambda with other statements in its body. -/
def Lambda.withBody (lambda : Lambda) (body : Block) : Lambda :=
  match lambda.body, body.statements with
  | .expr _, [.expr e _] => { lambda with body := .expr e }
  | _, _ => { lambda with body := .block body }

/-- Putting a body back as it was found changes nothing. -/
@[simp] theorem Stmt.withBody_asBody (stmt : Stmt) : stmt.withBody stmt.asBody = stmt := by
  cases stmt <;> rfl

/-- Putting the body of a lambda back as it was found changes nothing. -/
@[simp] theorem Lambda.withBody_asBody (lambda : Lambda) :
    lambda.withBody lambda.asBody = lambda := by
  obtain ⟨params, body, span⟩ := lambda
  cases body <;> rfl

namespace Slot

/-- The slots of a statement in the order in which they are walked. -/
def all (stmt : Stmt) : List Slot :=
  let bodies :=
    match stmt with
    | .block _ => [block]
    | .branch _ _ (some _) _ => [thenBranch, elseBranch]
    | .branch _ _ none _ => [thenBranch]
    | .loop .. => [loop]
    | .empty _ | .expr .. | .localVar .. | .ret .. => []
  bodies ++ (List.range stmt.ownLambdas.length).map lambda

/-- What a slot of a statement holds. -/
def content? (slot : Slot) (stmt : Stmt) : Option Block :=
  match slot, stmt with
  | block, .block b => some b
  | thenBranch, .branch _ body _ _ => some body.asBody
  | elseBranch, .branch _ _ (some body) _ => some body.asBody
  | loop, .loop _ body _ => some body.asBody
  | lambda n, stmt => stmt.ownLambdas[n]?.map Lambda.asBody
  | _, _ => none

/-- A statement with other content in a slot; without such a slot it is unchanged. -/
def fill (slot : Slot) (content : Block) (stmt : Stmt) : Stmt :=
  match slot, stmt with
  | block, .block _ => .block content
  | thenBranch, .branch condition body orElse span =>
      .branch condition (body.withBody content) orElse span
  | elseBranch, .branch condition body (some orElse) span =>
      .branch condition body (some (orElse.withBody content)) span
  | loop, .loop condition body span => .loop condition (body.withBody content) span
  | lambda n, stmt => stmt.modifyOwnLambda n (·.withBody content)
  | _, stmt => stmt

end Slot

/-! ## The function around the walked statements -/

/-- The statements of one level with the position and the slot that was entered. -/
structure Level where
  /-- The statements as they read when the slot was entered. -/
  statements : List Stmt
  /-- Where their block is written. -/
  span : Span
  /-- The position of the entered statement. -/
  index : Nat
  /-- The entered slot. -/
  slot : Slot

/-- The block of a level with other content in its slot. -/
def Level.plug (level : Level) (content : Block) : Block :=
  ⟨level.statements.modify level.index (level.slot.fill content), level.span⟩

/-- A function with a hole in place of the statements that are walked. -/
structure FunctionContext where
  /-- The function; its body is not used. -/
  decl : FunctionDecl
  /-- The levels between the hole and the body of the function, innermost first. -/
  levels : List Level := []

namespace FunctionContext

/-- The function with a block in its hole. -/
def plug (context : FunctionContext) (content : Block) : FunctionDecl :=
  { context.decl with body := context.levels.foldl (fun body level => level.plug body) content }

/-- The function with a hole in a slot of the level. -/
def enter (context : FunctionContext) (level : Level) : FunctionContext :=
  { context with levels := level :: context.levels }

/-- Without levels the hole is the whole body. -/
@[simp] theorem plug_nil (decl : FunctionDecl) (content : Block) :
    plug ⟨decl, []⟩ content = { decl with body := content } := rfl

/-- Filling the inner hole fills the outer one with the level around it. -/
@[simp] theorem plug_enter (context : FunctionContext) (level : Level) (content : Block) :
    (context.enter level).plug content = context.plug (level.plug content) := rfl

end FunctionContext

/-- What surrounds the statements that are walked. -/
structure Scope where
  /-- The nearest member or lambda. A function here stands for the one in `function`. -/
  enclosing : Enclosing
  /-- The function around the statements, if there is one. -/
  function : Option FunctionContext

namespace Scope

/-- The scope of the statements of a script. -/
def script : Scope := ⟨.topLevel, none⟩

/-- The scope of the body of a function. -/
def ofFunction (decl : FunctionDecl) : Scope := ⟨.function decl, some { decl }⟩

/-- The scope of the body of an accessor. -/
def ofAccessor (property : String) (kind : AccessorKind) : Scope :=
  ⟨.accessor property kind, none⟩

end Scope

end MacroExpansion
