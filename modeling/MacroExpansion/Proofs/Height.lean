import MacroExpansion.Proofs.Nested

/-! # How deep statements nest

The height of a statement is the number of bodies within each other that it has. What a slot holds is
less high than the statement that has the slot. -/

namespace MacroExpansion

mutual

/-- The height of an expression is that of its highest lambda. -/
def Expr.height : Expr → Nat
  | .literal .. | .name .. => 0
  | .lambda lambda => lambda.height
  | .call call => call.height
  | .unary _ operand _ => operand.height
  | .binary _ lhs rhs _ => max lhs.height rhs.height
  | .assign target value _ => max target.height value.height

/-- The height of the arguments of a call. -/
def Call.height : Call → Nat
  | ⟨_, _, args, _⟩ => exprsHeight args

/-- The body of a lambda is one level. -/
def Lambda.height : Lambda → Nat
  | ⟨_, body, _⟩ => body.height + 1

/-- The height of what the body of a lambda holds. -/
def LambdaBody.height : LambdaBody → Nat
  | .expr expr => expr.height
  | .block block => block.height

/-- The height of a statement. Every body is one level above what it holds. -/
def Stmt.height : Stmt → Nat
  | .empty _ | .localVar _ _ none _ | .ret none _ => 0
  | .expr expr _ | .localVar _ _ (some expr) _ | .ret (some expr) _ => expr.height
  | .block block => block.height + 1
  | .branch condition thenBranch none _ => max condition.height (thenBranch.height + 1)
  | .branch condition thenBranch (some elseBranch) _ =>
      max condition.height (max (thenBranch.height + 1) (elseBranch.height + 1))
  | .loop condition body _ => max condition.height (body.height + 1)

/-- The height of what a block holds. -/
def Block.height : Block → Nat
  | ⟨statements, _⟩ => stmtsHeight statements

/-- The greatest height in a list of expressions. -/
def exprsHeight : List Expr → Nat
  | [] => 0
  | expr :: rest => max expr.height (exprsHeight rest)

/-- The greatest height in a list of statements. -/
def stmtsHeight : List Stmt → Nat
  | [] => 0
  | stmt :: rest => max stmt.height (stmtsHeight rest)

end

/-- A block is as high as its statements. -/
theorem Block.height_eq (block : Block) : block.height = stmtsHeight block.statements := by
  cases block
  rfl

/-- A statement is no higher than a list that it is in. -/
theorem height_le_stmtsHeight {stmt : Stmt} {statements : List Stmt} (h : stmt ∈ statements) :
    stmt.height ≤ stmtsHeight statements := by
  induction statements with
  | nil => cases h
  | cons first rest ih =>
    rw [stmtsHeight]
    rcases List.mem_cons.mp h with rfl | hrest
    · exact Nat.le_max_left _ _
    · exact Nat.le_trans (ih hrest) (Nat.le_max_right _ _)

/-! ## Lambdas -/

mutual

/-- The lambdas of an expression are no higher than the expression. -/
theorem Expr.height_lambda_le {lambda : Lambda} :
    ∀ (expr : Expr), lambda ∈ expr.lambdas → lambda.height ≤ expr.height
  | .literal .., h => nomatch h
  | .name .., h => nomatch h
  | .lambda _, h => by
      rw [List.mem_singleton.mp h]
      exact Nat.le_refl _
  | .call call, h => call.height_lambda_le h
  | .unary _ operand _, h => operand.height_lambda_le h
  | .binary _ lhs rhs _, h => by
      rcases List.mem_append.mp h with h | h
      · exact Nat.le_trans (lhs.height_lambda_le h) (Nat.le_max_left _ _)
      · exact Nat.le_trans (rhs.height_lambda_le h) (Nat.le_max_right _ _)
  | .assign target value _, h => by
      rcases List.mem_append.mp h with h | h
      · exact Nat.le_trans (target.height_lambda_le h) (Nat.le_max_left _ _)
      · exact Nat.le_trans (value.height_lambda_le h) (Nat.le_max_right _ _)

/-- A lambda in the arguments of a call is no higher than the call. -/
theorem Call.height_lambda_le {lambda : Lambda} :
    ∀ (call : Call), lambda ∈ call.lambdas → lambda.height ≤ call.height
  | ⟨_, _, args, _⟩, h => exprsHeight_lambda_le args h

/-- A lambda in listed expressions is no higher than they are. -/
theorem exprsHeight_lambda_le {lambda : Lambda} :
    ∀ (exprs : List Expr), lambda ∈ exprsLambdas exprs → lambda.height ≤ exprsHeight exprs
  | [], h => nomatch h
  | expr :: rest, h => by
      rcases List.mem_append.mp h with h | h
      · exact Nat.le_trans (expr.height_lambda_le h) (Nat.le_max_left _ _)
      · exact Nat.le_trans (exprsHeight_lambda_le rest h) (Nat.le_max_right _ _)

end

/-! ## Slots -/

/-- The own expression of a statement is no higher than the statement. -/
theorem Stmt.height_ownExpr_le {stmt : Stmt} {expr : Expr} (h : stmt.ownExpr? = some expr) :
    expr.height ≤ stmt.height := by
  cases stmt with
  | empty | block => cases h
  | expr => exact Nat.le_of_eq (congrArg Expr.height (Option.some.inj h).symm)
  | localVar _ _ init _ =>
    cases init with
    | none => cases h
    | some => exact Nat.le_of_eq (congrArg Expr.height (Option.some.inj h).symm)
  | ret value _ =>
    cases value with
    | none => cases h
    | some => exact Nat.le_of_eq (congrArg Expr.height (Option.some.inj h).symm)
  | branch _ _ orElse _ =>
    cases h
    cases orElse <;> exact Nat.le_max_left _ _
  | loop =>
    cases h
    exact Nat.le_max_left _ _

/-- An own lambda of a statement is no higher than the statement. -/
theorem Stmt.height_ownLambda_le {stmt : Stmt} {lambda : Lambda} (h : lambda ∈ stmt.ownLambdas) :
    lambda.height ≤ stmt.height := by
  unfold ownLambdas at h
  cases hexpr : stmt.ownExpr? with
  | none => simp [hexpr] at h
  | some expr =>
    rw [hexpr] at h
    exact Nat.le_trans (expr.height_lambda_le h) (height_ownExpr_le hexpr)

/-- A branch or loop body shows itself no higher than it is. -/
theorem Stmt.height_asBody_le (stmt : Stmt) : stmtsHeight stmt.asBody.statements ≤ stmt.height := by
  cases stmt with
  | block body =>
    rw [height, Block.height_eq]
    exact Nat.le_succ _
  | _ => exact Nat.le_of_eq (Nat.max_zero _)

/-- The body of a lambda shows itself less high than the lambda. -/
theorem Lambda.height_asBody_lt (lambda : Lambda) :
    stmtsHeight lambda.asBody.statements < lambda.height := by
  obtain ⟨params, body, span⟩ := lambda
  cases body with
  | expr expr => exact Nat.lt_succ_of_le (Nat.le_of_eq (Nat.max_zero _))
  | block body =>
    rw [height, LambdaBody.height, Block.height_eq]
    exact Nat.lt_succ_self _

/-- What a slot shows is less high than the statement that has the slot. -/
theorem Slot.height_content_lt {slot : Slot} {stmt : Stmt} {content : Block}
    (h : slot.content? stmt = some content) : stmtsHeight content.statements < stmt.height := by
  cases hasContent_of_content? h with
  | block body =>
    rw [Stmt.height, Block.height_eq]
    exact Nat.lt_succ_self _
  | thenBranch condition body orElse span =>
    refine Nat.lt_of_le_of_lt body.height_asBody_le ?_
    cases orElse with
    | none => exact Nat.le_max_right _ _
    | some other => exact Nat.le_trans (Nat.le_max_left _ _) (Nat.le_max_right _ _)
  | elseBranch condition thenBranch body span =>
    refine Nat.lt_of_le_of_lt body.height_asBody_le ?_
    exact Nat.le_trans (Nat.le_max_right _ _) (Nat.le_max_right _ _)
  | loop condition body span =>
    exact Nat.lt_of_le_of_lt body.height_asBody_le (Nat.le_max_right _ _)
  | lambda hlambda =>
    exact Nat.lt_of_lt_of_le (Lambda.height_asBody_lt _)
      (Stmt.height_ownLambda_le (List.mem_of_getElem? hlambda))

end MacroExpansion
