import MacroExpansion.Tree.Equality

/-! # The code a statement evaluates itself

A statement's own expressions are those it evaluates directly: the expression of an expression
statement, an initial value, a condition, a returned value. Its own calls and own lambdas are found
in them; nested statements and lambda bodies belong to scopes of their own and are not entered.
Calls come in pre-order: an outer call before the calls in its arguments, arguments left to
right. -/

namespace MacroExpansion

/-! ## Calls -/

mutual

/-- The calls of an expression outside its lambdas, in pre-order. -/
def Expr.calls : Expr → List Call
  | .literal .. | .name .. | .lambda _ => []
  | .call call => call :: call.inner
  | .unary _ operand _ => operand.calls
  | .binary _ lhs rhs _ => lhs.calls ++ rhs.calls
  | .assign target value _ => target.calls ++ value.calls

/-- The calls in the arguments of a call, in pre-order. -/
def Call.inner : Call → List Call
  | ⟨_, _, args, _⟩ => exprsCalls args

/-- The calls of expressions in sequence. -/
def exprsCalls : List Expr → List Call
  | [] => []
  | expr :: rest => expr.calls ++ exprsCalls rest

end

/-- The calls of a list of expressions are those of its members in order. -/
theorem exprsCalls_eq_flatMap (exprs : List Expr) : exprsCalls exprs = exprs.flatMap Expr.calls := by
  induction exprs with
  | nil => rfl
  | cons expr rest ih => rw [exprsCalls, ih, List.flatMap_cons]

/-! ## Lambdas -/

mutual

/-- The outermost lambdas of an expression, left to right. -/
def Expr.lambdas : Expr → List Lambda
  | .literal .. | .name .. => []
  | .lambda lambda => [lambda]
  | .call call => call.lambdas
  | .unary _ operand _ => operand.lambdas
  | .binary _ lhs rhs _ => lhs.lambdas ++ rhs.lambdas
  | .assign target value _ => target.lambdas ++ value.lambdas

/-- The outermost lambdas in the arguments of a call. -/
def Call.lambdas : Call → List Lambda
  | ⟨_, _, args, _⟩ => exprsLambdas args

/-- The outermost lambdas of expressions in sequence. -/
def exprsLambdas : List Expr → List Lambda
  | [] => []
  | expr :: rest => expr.lambdas ++ exprsLambdas rest

end

/-- The lambdas of a list of expressions are those of its members in order. -/
theorem exprsLambdas_eq_flatMap (exprs : List Expr) :
    exprsLambdas exprs = exprs.flatMap Expr.lambdas := by
  induction exprs with
  | nil => rfl
  | cons expr rest ih => rw [exprsLambdas, ih, List.flatMap_cons]

mutual

/-- Changes the `n`-th outermost lambda of an expression; without so many lambdas nothing
changes. -/
def Expr.modifyLambda (f : Lambda → Lambda) : Expr → Nat → Expr
  | .literal value span, _ => .literal value span
  | .name name span, _ => .name name span
  | .lambda lambda, n => .lambda (if n = 0 then f lambda else lambda)
  | .call call, n => .call (call.modifyLambda f n)
  | .unary op operand span, n => .unary op (operand.modifyLambda f n) span
  | .binary op lhs rhs span, n =>
      if n < lhs.lambdas.length then .binary op (lhs.modifyLambda f n) rhs span
      else .binary op lhs (rhs.modifyLambda f (n - lhs.lambdas.length)) span
  | .assign target value span, n =>
      if n < target.lambdas.length then .assign (target.modifyLambda f n) value span
      else .assign target (value.modifyLambda f (n - target.lambdas.length)) span
termination_by structural expr => expr

/-- Changes the `n`-th outermost lambda in the arguments of a call. -/
def Call.modifyLambda (f : Lambda → Lambda) : Call → Nat → Call
  | ⟨callee, typeArgs, args, span⟩, n => ⟨callee, typeArgs, exprsModifyLambda f args n, span⟩
termination_by structural call => call

/-- Changes the `n`-th outermost lambda of expressions in sequence. -/
def exprsModifyLambda (f : Lambda → Lambda) : List Expr → Nat → List Expr
  | [], _ => []
  | expr :: rest, n =>
      if n < expr.lambdas.length then expr.modifyLambda f n :: rest
      else expr :: exprsModifyLambda f rest (n - expr.lambdas.length)
termination_by structural exprs => exprs

end

/-! ## Replacing a call -/

mutual

/-- Replaces the first call equal to `target`, in pre-order; `none` when there is none. -/
def Expr.replaceCall? : Expr → (target : Call) → (replacement : Expr) → Option Expr
  | .literal .., _, _ | .name .., _, _ | .lambda _, _, _ => none
  | .call call, target, replacement =>
      if call = target then some replacement
      else (call.replaceInner? target replacement).map .call
  | .unary op operand span, target, replacement =>
      (operand.replaceCall? target replacement).map (.unary op · span)
  | .binary op lhs rhs span, target, replacement =>
      match lhs.replaceCall? target replacement with
      | some lhs' => some (.binary op lhs' rhs span)
      | none => (rhs.replaceCall? target replacement).map (.binary op lhs · span)
  | .assign place value span, target, replacement =>
      match place.replaceCall? target replacement with
      | some place' => some (.assign place' value span)
      | none => (value.replaceCall? target replacement).map (.assign place · span)
termination_by structural expr => expr

/-- Replaces the first call equal to `target` in the arguments of a call. -/
def Call.replaceInner? : Call → (target : Call) → (replacement : Expr) → Option Call
  | ⟨callee, typeArgs, args, span⟩, target, replacement =>
      (exprsReplaceCall? args target replacement).map fun args' => ⟨callee, typeArgs, args', span⟩
termination_by structural call => call

/-- Replaces the first call equal to `target` in expressions in sequence. -/
def exprsReplaceCall? : List Expr → (target : Call) → (replacement : Expr) → Option (List Expr)
  | [], _, _ => none
  | expr :: rest, target, replacement =>
      match expr.replaceCall? target replacement with
      | some expr' => some (expr' :: rest)
      | none => (exprsReplaceCall? rest target replacement).map (expr :: ·)
termination_by structural exprs => exprs

end

/-! ## Statements -/

namespace Stmt

/-- The expression that a statement evaluates directly, if it has one. -/
def ownExpr? : Stmt → Option Expr
  | .expr e _ => some e
  | .localVar _ _ init _ => init
  | .branch condition .. => some condition
  | .loop condition .. => some condition
  | .ret value _ => value
  | .empty _ | .block _ => none

/-- The same statement evaluating another expression; a statement without one is unchanged. -/
def withOwnExpr (stmt : Stmt) (e : Expr) : Stmt :=
  match stmt with
  | .expr _ span => .expr e span
  | .localVar type name (some _) span => .localVar type name (some e) span
  | .branch _ thenBranch elseBranch span => .branch e thenBranch elseBranch span
  | .loop _ body span => .loop e body span
  | .ret (some _) span => .ret (some e) span
  | .localVar _ _ none _ | .ret none _ | .empty _ | .block _ => stmt

/-- The calls that a statement evaluates directly, in pre-order. -/
def ownCalls (stmt : Stmt) : List Call :=
  match stmt.ownExpr? with
  | some e => e.calls
  | none => []

/-- The outermost lambdas that a statement evaluates directly. -/
def ownLambdas (stmt : Stmt) : List Lambda :=
  match stmt.ownExpr? with
  | some e => e.lambdas
  | none => []

/-- Changes the `n`-th of the own lambdas. -/
def modifyOwnLambda (stmt : Stmt) (n : Nat) (f : Lambda → Lambda) : Stmt :=
  match stmt.ownExpr? with
  | some e => stmt.withOwnExpr (e.modifyLambda f n)
  | none => stmt

/-- Replaces the first own call equal to `target`; `none` when there is none. -/
def replaceCall? (stmt : Stmt) (target : Call) (replacement : Expr) : Option Stmt :=
  match stmt.ownExpr? with
  | some e => (e.replaceCall? target replacement).map stmt.withOwnExpr
  | none => none

/-- The statement is exactly `call;`. -/
def isCall (stmt : Stmt) (call : Call) : Bool :=
  match stmt with
  | .expr (.call inner) _ => inner == call
  | _ => false

/-- A statement evaluates the expression that it was given, if it evaluates one at all. -/
theorem ownExpr?_withOwnExpr {stmt : Stmt} {old : Expr} (h : stmt.ownExpr? = some old) (e : Expr) :
    (stmt.withOwnExpr e).ownExpr? = some e := by
  cases stmt <;> simp_all [ownExpr?, withOwnExpr]

/-- Putting the own expression back changes nothing. -/
theorem withOwnExpr_self {stmt : Stmt} {e : Expr} (h : stmt.ownExpr? = some e) :
    stmt.withOwnExpr e = stmt := by
  cases stmt <;> simp_all [ownExpr?, withOwnExpr]

/-- A standalone call is an expression statement that holds the call. -/
theorem isCall_iff {stmt : Stmt} {call : Call} :
    stmt.isCall call = true ↔ ∃ span, stmt = .expr (.call call) span := by
  unfold isCall
  split <;> simp_all

end Stmt

end MacroExpansion
