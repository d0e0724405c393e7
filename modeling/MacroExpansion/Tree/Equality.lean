import MacroExpansion.Tree.Basic

/-! # Equality of nodes

Nodes are compared structurally, spans included: two calls that read alike at two places are
different calls. The comparison is one recursion over the mutual family; `eq_of_same` and
`same_self` say that it decides equality. -/

namespace MacroExpansion

mutual

/-- Structural comparison of expressions. -/
def Expr.same : Expr → Expr → Bool
  | .literal v s, .literal v' s' => v == v' && s == s'
  | .name n s, .name n' s' => n == n' && s == s'
  | .call c, .call c' => c.same c'
  | .unary o a s, .unary o' a' s' => o == o' && a.same a' && s == s'
  | .binary o a b s, .binary o' a' b' s' => o == o' && a.same a' && b.same b' && s == s'
  | .assign a b s, .assign a' b' s' => a.same a' && b.same b' && s == s'
  | .lambda l, .lambda l' => l.same l'
  | _, _ => false
termination_by structural a => a

/-- Structural comparison of calls. -/
def Call.same : Call → Call → Bool
  | ⟨c, t, a, s⟩, ⟨c', t', a', s'⟩ => c == c' && t == t' && exprsSame a a' && s == s'
termination_by structural a => a

/-- Structural comparison of lambdas. -/
def Lambda.same : Lambda → Lambda → Bool
  | ⟨p, b, s⟩, ⟨p', b', s'⟩ => paramsSame p p' && b.same b' && s == s'
termination_by structural a => a

/-- Structural comparison of lambda bodies. -/
def LambdaBody.same : LambdaBody → LambdaBody → Bool
  | .expr e, .expr e' => e.same e'
  | .block b, .block b' => b.same b'
  | _, _ => false
termination_by structural a => a

/-- Structural comparison of parameters. -/
def Param.same : Param → Param → Bool
  | ⟨n, t, d⟩, ⟨n', t', d'⟩ => n == n' && t == t' && optExprSame d d'
termination_by structural a => a

/-- Structural comparison of statements. -/
def Stmt.same : Stmt → Stmt → Bool
  | .empty s, .empty s' => s == s'
  | .expr e s, .expr e' s' => e.same e' && s == s'
  | .localVar t n i s, .localVar t' n' i' s' => t == t' && n == n' && optExprSame i i' && s == s'
  | .block b, .block b' => b.same b'
  | .branch c t e s, .branch c' t' e' s' =>
      c.same c' && t.same t' && optStmtSame e e' && s == s'
  | .loop c b s, .loop c' b' s' => c.same c' && b.same b' && s == s'
  | .ret v s, .ret v' s' => optExprSame v v' && s == s'
  | _, _ => false
termination_by structural a => a

/-- Structural comparison of blocks. -/
def Block.same : Block → Block → Bool
  | ⟨b, s⟩, ⟨b', s'⟩ => stmtsSame b b' && s == s'
termination_by structural a => a

/-- Comparison of argument lists. -/
def exprsSame : List Expr → List Expr → Bool
  | [], [] => true
  | e :: es, e' :: es' => e.same e' && exprsSame es es'
  | _, _ => false
termination_by structural a => a

/-- Comparison of parameter lists. -/
def paramsSame : List Param → List Param → Bool
  | [], [] => true
  | p :: ps, p' :: ps' => p.same p' && paramsSame ps ps'
  | _, _ => false
termination_by structural a => a

/-- Comparison of statement lists. -/
def stmtsSame : List Stmt → List Stmt → Bool
  | [], [] => true
  | s :: ss, s' :: ss' => s.same s' && stmtsSame ss ss'
  | _, _ => false
termination_by structural a => a

/-- Comparison of optional expressions. -/
def optExprSame : Option Expr → Option Expr → Bool
  | none, none => true
  | some e, some e' => e.same e'
  | _, _ => false
termination_by structural a => a

/-- Comparison of optional statements. -/
def optStmtSame : Option Stmt → Option Stmt → Bool
  | none, none => true
  | some s, some s' => s.same s'
  | _, _ => false
termination_by structural a => a

end

mutual

/-- Expressions that compare alike are equal. -/
theorem Expr.eq_of_same (a : Expr) : ∀ {b : Expr}, a.same b = true → a = b := by
  match a with
  | .literal v s => intro b h; cases b <;> simp_all [Expr.same]
  | .name n s => intro b h; cases b <;> simp_all [Expr.same]
  | .call c =>
    intro b h
    cases b with
    | call c' => rw [Call.eq_of_same c (by simpa only [Expr.same] using h)]
    | _ => simp [Expr.same] at h
  | .unary o x s =>
    intro b h
    cases b with
    | unary o' x' s' =>
      simp only [Expr.same, Bool.and_eq_true, beq_iff_eq] at h
      rw [h.1.1, Expr.eq_of_same x h.1.2, h.2]
    | _ => simp [Expr.same] at h
  | .binary o x y s =>
    intro b h
    cases b with
    | binary o' x' y' s' =>
      simp only [Expr.same, Bool.and_eq_true, beq_iff_eq] at h
      rw [h.1.1.1, Expr.eq_of_same x h.1.1.2, Expr.eq_of_same y h.1.2, h.2]
    | _ => simp [Expr.same] at h
  | .assign x y s =>
    intro b h
    cases b with
    | assign x' y' s' =>
      simp only [Expr.same, Bool.and_eq_true, beq_iff_eq] at h
      rw [Expr.eq_of_same x h.1.1, Expr.eq_of_same y h.1.2, h.2]
    | _ => simp [Expr.same] at h
  | .lambda l =>
    intro b h
    cases b with
    | lambda l' => rw [Lambda.eq_of_same l (by simpa only [Expr.same] using h)]
    | _ => simp [Expr.same] at h

/-- Calls that compare alike are equal. -/
theorem Call.eq_of_same (a : Call) : ∀ {b : Call}, a.same b = true → a = b := by
  match a with
  | ⟨c, t, args, s⟩ =>
    rintro ⟨c', t', args', s'⟩ h
    simp only [Call.same, Bool.and_eq_true, beq_iff_eq] at h
    rw [h.1.1.1, h.1.1.2, eq_of_exprsSame args h.1.2, h.2]

/-- Lambdas that compare alike are equal. -/
theorem Lambda.eq_of_same (a : Lambda) : ∀ {b : Lambda}, a.same b = true → a = b := by
  match a with
  | ⟨params, body, s⟩ =>
    rintro ⟨params', body', s'⟩ h
    simp only [Lambda.same, Bool.and_eq_true, beq_iff_eq] at h
    rw [eq_of_paramsSame params h.1.1, LambdaBody.eq_of_same body h.1.2, h.2]

/-- Lambda bodies that compare alike are equal. -/
theorem LambdaBody.eq_of_same (a : LambdaBody) : ∀ {b : LambdaBody}, a.same b = true → a = b := by
  match a with
  | .expr e =>
    intro b h
    cases b with
    | expr e' => rw [Expr.eq_of_same e (by simpa only [LambdaBody.same] using h)]
    | block _ => simp [LambdaBody.same] at h
  | .block c =>
    intro b h
    cases b with
    | block c' => rw [Block.eq_of_same c (by simpa only [LambdaBody.same] using h)]
    | expr _ => simp [LambdaBody.same] at h

/-- Parameters that compare alike are equal. -/
theorem Param.eq_of_same (a : Param) : ∀ {b : Param}, a.same b = true → a = b := by
  match a with
  | ⟨n, t, value⟩ =>
    rintro ⟨n', t', value'⟩ h
    simp only [Param.same, Bool.and_eq_true, beq_iff_eq] at h
    rw [h.1.1, h.1.2, eq_of_optExprSame value h.2]

/-- Statements that compare alike are equal. -/
theorem Stmt.eq_of_same (a : Stmt) : ∀ {b : Stmt}, a.same b = true → a = b := by
  match a with
  | .empty s => intro b h; cases b <;> simp_all [Stmt.same]
  | .expr e s =>
    intro b h
    cases b with
    | expr e' s' =>
      simp only [Stmt.same, Bool.and_eq_true, beq_iff_eq] at h
      rw [Expr.eq_of_same e h.1, h.2]
    | _ => simp [Stmt.same] at h
  | .localVar t n init s =>
    intro b h
    cases b with
    | localVar t' n' init' s' =>
      simp only [Stmt.same, Bool.and_eq_true, beq_iff_eq] at h
      rw [h.1.1.1, h.1.1.2, eq_of_optExprSame init h.1.2, h.2]
    | _ => simp [Stmt.same] at h
  | .block c =>
    intro b h
    cases b with
    | block c' => rw [Block.eq_of_same c (by simpa only [Stmt.same] using h)]
    | _ => simp [Stmt.same] at h
  | .branch c t e s =>
    intro b h
    cases b with
    | branch c' t' e' s' =>
      simp only [Stmt.same, Bool.and_eq_true, beq_iff_eq] at h
      rw [Expr.eq_of_same c h.1.1.1, Stmt.eq_of_same t h.1.1.2, eq_of_optStmtSame e h.1.2, h.2]
    | _ => simp [Stmt.same] at h
  | .loop c body s =>
    intro b h
    cases b with
    | loop c' body' s' =>
      simp only [Stmt.same, Bool.and_eq_true, beq_iff_eq] at h
      rw [Expr.eq_of_same c h.1.1, Stmt.eq_of_same body h.1.2, h.2]
    | _ => simp [Stmt.same] at h
  | .ret value s =>
    intro b h
    cases b with
    | ret value' s' =>
      simp only [Stmt.same, Bool.and_eq_true, beq_iff_eq] at h
      rw [eq_of_optExprSame value h.1, h.2]
    | _ => simp [Stmt.same] at h

/-- Blocks that compare alike are equal. -/
theorem Block.eq_of_same (a : Block) : ∀ {b : Block}, a.same b = true → a = b := by
  match a with
  | ⟨statements, s⟩ =>
    rintro ⟨statements', s'⟩ h
    simp only [Block.same, Bool.and_eq_true, beq_iff_eq] at h
    rw [eq_of_stmtsSame statements h.1, h.2]

/-- Argument lists that compare alike are equal. -/
theorem eq_of_exprsSame (as : List Expr) : ∀ {bs : List Expr}, exprsSame as bs = true → as = bs := by
  match as with
  | [] => intro bs h; cases bs <;> simp_all [exprsSame]
  | e :: es =>
    intro bs h
    cases bs with
    | nil => simp [exprsSame] at h
    | cons e' es' =>
      simp only [exprsSame, Bool.and_eq_true] at h
      rw [Expr.eq_of_same e h.1, eq_of_exprsSame es h.2]

/-- Parameter lists that compare alike are equal. -/
theorem eq_of_paramsSame (as : List Param) :
    ∀ {bs : List Param}, paramsSame as bs = true → as = bs := by
  match as with
  | [] => intro bs h; cases bs <;> simp_all [paramsSame]
  | p :: ps =>
    intro bs h
    cases bs with
    | nil => simp [paramsSame] at h
    | cons p' ps' =>
      simp only [paramsSame, Bool.and_eq_true] at h
      rw [Param.eq_of_same p h.1, eq_of_paramsSame ps h.2]

/-- Statement lists that compare alike are equal. -/
theorem eq_of_stmtsSame (as : List Stmt) : ∀ {bs : List Stmt}, stmtsSame as bs = true → as = bs := by
  match as with
  | [] => intro bs h; cases bs <;> simp_all [stmtsSame]
  | s :: ss =>
    intro bs h
    cases bs with
    | nil => simp [stmtsSame] at h
    | cons s' ss' =>
      simp only [stmtsSame, Bool.and_eq_true] at h
      rw [Stmt.eq_of_same s h.1, eq_of_stmtsSame ss h.2]

/-- Optional expressions that compare alike are equal. -/
theorem eq_of_optExprSame (a : Option Expr) :
    ∀ {b : Option Expr}, optExprSame a b = true → a = b := by
  match a with
  | none => intro b h; cases b <;> simp_all [optExprSame]
  | some e =>
    intro b h
    cases b with
    | none => simp [optExprSame] at h
    | some e' => rw [Expr.eq_of_same e (by simpa only [optExprSame] using h)]

/-- Optional statements that compare alike are equal. -/
theorem eq_of_optStmtSame (a : Option Stmt) :
    ∀ {b : Option Stmt}, optStmtSame a b = true → a = b := by
  match a with
  | none => intro b h; cases b <;> simp_all [optStmtSame]
  | some s =>
    intro b h
    cases b with
    | none => simp [optStmtSame] at h
    | some s' => rw [Stmt.eq_of_same s (by simpa only [optStmtSame] using h)]

end

mutual

/-- An expression compares alike with itself. -/
theorem Expr.same_self : ∀ a : Expr, a.same a = true
  | .literal .. => by simp [Expr.same]
  | .name .. => by simp [Expr.same]
  | .call c => by simp [Expr.same, c.same_self]
  | .unary _ a _ => by simp [Expr.same, a.same_self]
  | .binary _ a b _ => by simp [Expr.same, a.same_self, b.same_self]
  | .assign a b _ => by simp [Expr.same, a.same_self, b.same_self]
  | .lambda l => by simp [Expr.same, l.same_self]

/-- A call compares alike with itself. -/
theorem Call.same_self : ∀ a : Call, a.same a = true
  | ⟨_, _, args, _⟩ => by simp [Call.same, exprsSame_self args]

/-- A lambda compares alike with itself. -/
theorem Lambda.same_self : ∀ a : Lambda, a.same a = true
  | ⟨params, body, _⟩ => by simp [Lambda.same, paramsSame_self params, body.same_self]

/-- A lambda body compares alike with itself. -/
theorem LambdaBody.same_self : ∀ a : LambdaBody, a.same a = true
  | .expr e => by simp [LambdaBody.same, e.same_self]
  | .block b => by simp [LambdaBody.same, b.same_self]

/-- A parameter compares alike with itself. -/
theorem Param.same_self : ∀ a : Param, a.same a = true
  | ⟨_, _, value⟩ => by simp [Param.same, optExprSame_self value]

/-- A statement compares alike with itself. -/
theorem Stmt.same_self : ∀ a : Stmt, a.same a = true
  | .empty _ => by simp [Stmt.same]
  | .expr e _ => by simp [Stmt.same, e.same_self]
  | .localVar _ _ init _ => by simp [Stmt.same, optExprSame_self init]
  | .block b => by simp [Stmt.same, b.same_self]
  | .branch c t e _ => by simp [Stmt.same, c.same_self, t.same_self, optStmtSame_self e]
  | .loop c b _ => by simp [Stmt.same, c.same_self, b.same_self]
  | .ret value _ => by simp [Stmt.same, optExprSame_self value]

/-- A block compares alike with itself. -/
theorem Block.same_self : ∀ a : Block, a.same a = true
  | ⟨statements, _⟩ => by simp [Block.same, stmtsSame_self statements]

/-- An argument list compares alike with itself. -/
theorem exprsSame_self : ∀ as : List Expr, exprsSame as as = true
  | [] => rfl
  | e :: es => by simp [exprsSame, e.same_self, exprsSame_self es]

/-- A parameter list compares alike with itself. -/
theorem paramsSame_self : ∀ as : List Param, paramsSame as as = true
  | [] => rfl
  | p :: ps => by simp [paramsSame, p.same_self, paramsSame_self ps]

/-- A statement list compares alike with itself. -/
theorem stmtsSame_self : ∀ as : List Stmt, stmtsSame as as = true
  | [] => rfl
  | s :: ss => by simp [stmtsSame, s.same_self, stmtsSame_self ss]

/-- An optional expression compares alike with itself. -/
theorem optExprSame_self : ∀ a : Option Expr, optExprSame a a = true
  | none => rfl
  | some e => by simp [optExprSame, e.same_self]

/-- An optional statement compares alike with itself. -/
theorem optStmtSame_self : ∀ a : Option Stmt, optStmtSame a a = true
  | none => rfl
  | some s => by simp [optStmtSame, s.same_self]

end

instance : DecidableEq Expr := fun a b =>
  decidable_of_iff (a.same b = true) ⟨a.eq_of_same, fun h => h ▸ a.same_self⟩

instance : DecidableEq Call := fun a b =>
  decidable_of_iff (a.same b = true) ⟨a.eq_of_same, fun h => h ▸ a.same_self⟩

instance : DecidableEq Lambda := fun a b =>
  decidable_of_iff (a.same b = true) ⟨a.eq_of_same, fun h => h ▸ a.same_self⟩

instance : DecidableEq LambdaBody := fun a b =>
  decidable_of_iff (a.same b = true) ⟨a.eq_of_same, fun h => h ▸ a.same_self⟩

instance : DecidableEq Param := fun a b =>
  decidable_of_iff (a.same b = true) ⟨a.eq_of_same, fun h => h ▸ a.same_self⟩

instance : DecidableEq Stmt := fun a b =>
  decidable_of_iff (a.same b = true) ⟨a.eq_of_same, fun h => h ▸ a.same_self⟩

instance : DecidableEq Block := fun a b =>
  decidable_of_iff (a.same b = true) ⟨a.eq_of_same, fun h => h ▸ a.same_self⟩

deriving instance DecidableEq for
  FunctionDecl, Accessor, PropertyDecl, Member, TypeDecl, Item, SyntaxTree

end MacroExpansion
