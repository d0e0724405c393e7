import MacroExpansion.Proofs.OwnCode

/-! # The place of a call in an expression

An expression with a hole where one of its own expressions may stand. Filling the hole leaves all
around it as it is, and the calls of the filled expression are those before the hole, those of the
filling, and those behind it. Replacing a call is filling the hole of its first place with something
else: `Expr.replacedIn_of_replaceCall?` finds this place, and no call that comes before it is the
replaced one. -/

namespace MacroExpansion

/-- An expression with a hole outside its lambdas. -/
inductive ExprContext where
  /-- The hole itself. -/
  | hole
  /-- A call with the hole in one of its arguments. -/
  | argument (callee : String) (typeArgs : List TypeRef) (before : List Expr) (inner : ExprContext)
    (behind : List Expr) (span : Span)
  /-- An operator applied to what has the hole. -/
  | operand (op : UnaryOp) (inner : ExprContext) (span : Span)
  /-- An operator with the hole on its left. -/
  | left (op : BinaryOp) (inner : ExprContext) (rhs : Expr) (span : Span)
  /-- An operator with the hole on its right. -/
  | right (op : BinaryOp) (lhs : Expr) (inner : ExprContext) (span : Span)
  /-- An assignment with the hole in its target. -/
  | assignTarget (inner : ExprContext) (value : Expr) (span : Span)
  /-- An assignment with the hole in its value. -/
  | assignValue (target : Expr) (inner : ExprContext) (span : Span)

namespace ExprContext

/-- Fills the hole. -/
def plug : ExprContext → Expr → Expr
  | .hole, filling => filling
  | .argument callee typeArgs before inner behind span, filling =>
      .call ⟨callee, typeArgs, before ++ inner.plug filling :: behind, span⟩
  | .operand op inner span, filling => .unary op (inner.plug filling) span
  | .left op inner rhs span, filling => .binary op (inner.plug filling) rhs span
  | .right op lhs inner span, filling => .binary op lhs (inner.plug filling) span
  | .assignTarget inner value span, filling => .assign (inner.plug filling) value span
  | .assignValue target inner span, filling => .assign target (inner.plug filling) span

/-- The calls that come before the hole in pre-order; the filling stands in the arguments of those
around it. -/
def callsBefore : ExprContext → Expr → List Call
  | .hole, _ => []
  | .argument callee typeArgs before inner behind span, filling =>
      ⟨callee, typeArgs, before ++ inner.plug filling :: behind, span⟩ ::
        (exprsCalls before ++ inner.callsBefore filling)
  | .operand _ inner _, filling => inner.callsBefore filling
  | .left _ inner _ _, filling => inner.callsBefore filling
  | .right _ lhs inner _, filling => lhs.calls ++ inner.callsBefore filling
  | .assignTarget inner _ _, filling => inner.callsBefore filling
  | .assignValue target inner _, filling => target.calls ++ inner.callsBefore filling

/-- The calls that come behind the hole in pre-order. -/
def callsBehind : ExprContext → List Call
  | .hole => []
  | .argument _ _ _ inner behind _ => inner.callsBehind ++ exprsCalls behind
  | .operand _ inner _ => inner.callsBehind
  | .left _ inner rhs _ => inner.callsBehind ++ rhs.calls
  | .right _ _ inner _ => inner.callsBehind
  | .assignTarget inner value _ => inner.callsBehind ++ value.calls
  | .assignValue _ inner _ => inner.callsBehind

/-- Pre-order passes what is before the hole, then the filling, then what is behind the hole. -/
theorem calls_plug (context : ExprContext) (filling : Expr) :
    (context.plug filling).calls =
      context.callsBefore filling ++ filling.calls ++ context.callsBehind := by
  induction context with
  | hole => simp [plug, callsBefore, callsBehind]
  | argument callee typeArgs before inner behind span ih =>
    simp [plug, callsBefore, callsBehind, Expr.calls, Call.inner, exprsCalls_eq_flatMap, ih]
  | operand op inner span ih => exact ih
  | left op inner rhs span ih => simp [plug, callsBefore, callsBehind, Expr.calls, ih]
  | right op lhs inner span ih => simp [plug, callsBefore, callsBehind, Expr.calls, ih]
  | assignTarget inner value span ih => simp [plug, callsBefore, callsBehind, Expr.calls, ih]
  | assignValue target inner span ih => simp [plug, callsBefore, callsBehind, Expr.calls, ih]

/-- The outermost lambdas around the hole are the same whatever fills it. -/
theorem exists_lambdas_plug (context : ExprContext) :
    ∃ before behind, ∀ filling : Expr,
      (context.plug filling).lambdas = before ++ filling.lambdas ++ behind := by
  induction context with
  | hole => exact ⟨[], [], fun filling => by simp [plug]⟩
  | argument callee typeArgs before inner behind span ih =>
    obtain ⟨first, last, hinner⟩ := ih
    refine ⟨exprsLambdas before ++ first, last ++ exprsLambdas behind, fun filling => ?_⟩
    simp [plug, Expr.lambdas, Call.lambdas, exprsLambdas_eq_flatMap, hinner]
  | operand op inner span ih => exact ih
  | left op inner other span ih | assignTarget inner other span ih =>
    obtain ⟨first, last, hinner⟩ := ih
    exact ⟨first, last ++ other.lambdas, fun filling => by simp [plug, Expr.lambdas, hinner]⟩
  | right op other inner span ih | assignValue other inner span ih =>
    obtain ⟨first, last, hinner⟩ := ih
    exact ⟨other.lambdas ++ first, last, fun filling => by simp [plug, Expr.lambdas, hinner]⟩

/-- What fills the hole is a part of the filled expression. -/
theorem partOf_plug (context : ExprContext) (filling : Expr) :
    filling.PartOf (context.plug filling) := by
  obtain ⟨before, behind, hlambdas⟩ := context.exists_lambdas_plug
  constructor
  · rw [calls_plug]
    exact List.subset_append_of_subset_left _ (List.subset_append_right _ _)
  · rw [hlambdas]
    exact List.subset_append_of_subset_left _ (List.subset_append_right _ _)

end ExprContext

/-! ## Replacing a call -/

/-- One expression is the other with its first call `target` replaced. -/
def Expr.ReplacedIn (target : Call) (replacement whole whole' : Expr) : Prop :=
  ∃ context : ExprContext, whole = context.plug (.call target) ∧
    target ∉ context.callsBefore (.call target) ∧ whole' = context.plug replacement

/-- One sequence of expressions is the other with its first call `target` replaced. -/
def ExprsReplacedIn (target : Call) (replacement : Expr) (exprs exprs' : List Expr) : Prop :=
  ∃ before expr expr' behind, exprs = before ++ expr :: behind ∧ target ∉ exprsCalls before ∧
    Expr.ReplacedIn target replacement expr expr' ∧ exprs' = before ++ expr' :: behind

variable {target : Call} {replacement : Expr}

/-- A call that cannot be replaced in an expression is none of its calls. -/
theorem Expr.not_mem_calls_of_replaceCall? {expr : Expr}
    (h : expr.replaceCall? target replacement = none) : target ∉ expr.calls := by
  intro hmem
  have hsome : (expr.replaceCall? target replacement).isSome := Expr.isSome_replaceCall? expr hmem
  rw [h] at hsome
  cases hsome

mutual

/-- What is replaced in an expression is the first call equal to the one that was asked for. -/
theorem Expr.replacedIn_of_replaceCall? :
    ∀ (expr : Expr) {expr' : Expr}, expr.replaceCall? target replacement = some expr' →
      Expr.ReplacedIn target replacement expr expr'
  | .literal .., _, h => nomatch h
  | .name .., _, h => nomatch h
  | .lambda _, _, h => nomatch h
  | .call call, _, h => by
      rw [Expr.replaceCall?] at h
      split at h
      · rename_i heq
        cases h
        exact ⟨.hole, congrArg Expr.call heq, List.not_mem_nil, rfl⟩
      · rename_i hne
        obtain ⟨call', hcall, rfl⟩ := Option.map_eq_some_iff.mp h
        exact call.replacedIn_of_replaceInner? hne hcall
  | .unary op operand span, _, h => by
      obtain ⟨operand', hoperand, rfl⟩ := Option.map_eq_some_iff.mp h
      obtain ⟨context, hwhole, hbefore, hwhole'⟩ := operand.replacedIn_of_replaceCall? hoperand
      exact ⟨.operand op context span, by rw [hwhole]; rfl, hbefore, by rw [hwhole']; rfl⟩
  | .binary op lhs rhs span, _, h => by
      rw [Expr.replaceCall?] at h
      split at h
      · rename_i hlhs
        cases h
        obtain ⟨context, hwhole, hbefore, hwhole'⟩ := lhs.replacedIn_of_replaceCall? hlhs
        exact ⟨.left op context rhs span, by rw [hwhole]; rfl, hbefore, by rw [hwhole']; rfl⟩
      · rename_i hnone
        obtain ⟨rhs', hrhs, rfl⟩ := Option.map_eq_some_iff.mp h
        obtain ⟨context, hwhole, hbefore, hwhole'⟩ := rhs.replacedIn_of_replaceCall? hrhs
        refine ⟨.right op lhs context span, by rw [hwhole]; rfl, fun hmem => ?_, by rw [hwhole']; rfl⟩
        exact (List.mem_append.mp hmem).elim (Expr.not_mem_calls_of_replaceCall? hnone) hbefore
  | .assign place value span, _, h => by
      rw [Expr.replaceCall?] at h
      split at h
      · rename_i hplace
        cases h
        obtain ⟨context, hwhole, hbefore, hwhole'⟩ := place.replacedIn_of_replaceCall? hplace
        exact ⟨.assignTarget context value span, by rw [hwhole]; rfl, hbefore, by rw [hwhole']; rfl⟩
      · rename_i hnone
        obtain ⟨value', hvalue, rfl⟩ := Option.map_eq_some_iff.mp h
        obtain ⟨context, hwhole, hbefore, hwhole'⟩ := value.replacedIn_of_replaceCall? hvalue
        refine ⟨.assignValue place context span, by rw [hwhole]; rfl, fun hmem => ?_,
          by rw [hwhole']; rfl⟩
        exact (List.mem_append.mp hmem).elim (Expr.not_mem_calls_of_replaceCall? hnone) hbefore

/-- Replacing a call in the arguments of another one fills the context of its place there. -/
theorem Call.replacedIn_of_replaceInner? :
    ∀ (call : Call) {call' : Call}, call ≠ target →
      call.replaceInner? target replacement = some call' →
        Expr.ReplacedIn target replacement (.call call) (.call call')
  | ⟨callee, typeArgs, args, span⟩, _, hne, h => by
      obtain ⟨args', hargs, rfl⟩ := Option.map_eq_some_iff.mp h
      obtain ⟨before, expr, expr', behind, rfl, hfirst, ⟨context, rfl, hbefore, rfl⟩, rfl⟩ :=
        replacedIn_of_exprsReplaceCall? args hargs
      refine ⟨.argument callee typeArgs before context behind span, rfl, fun hmem => ?_, rfl⟩
      -- neither the call around the hole nor one in the arguments before it is the replaced one
      rcases List.mem_cons.mp hmem with heq | hmem
      · exact hne heq.symm
      · exact (List.mem_append.mp hmem).elim hfirst hbefore

/-- Replacing a call in listed expressions fills the context of its place in one of them. -/
theorem replacedIn_of_exprsReplaceCall? :
    ∀ (exprs : List Expr) {exprs' : List Expr},
      exprsReplaceCall? exprs target replacement = some exprs' →
        ExprsReplacedIn target replacement exprs exprs'
  | [], _, h => nomatch h
  | expr :: rest, _, h => by
      rw [exprsReplaceCall?] at h
      split at h
      · rename_i expr' hexpr
        cases h
        exact ⟨[], expr, expr', rest, rfl, List.not_mem_nil,
          expr.replacedIn_of_replaceCall? hexpr, rfl⟩
      · rename_i hnone
        obtain ⟨rest', hrest, rfl⟩ := Option.map_eq_some_iff.mp h
        obtain ⟨before, first, first', behind, rfl, hfirst, hreplaced, rfl⟩ :=
          replacedIn_of_exprsReplaceCall? rest hrest
        refine ⟨expr :: before, first, first', behind, rfl, fun hmem => ?_, hreplaced, rfl⟩
        exact (List.mem_append.mp hmem).elim (Expr.not_mem_calls_of_replaceCall? hnone) hfirst

end

namespace Stmt

/-- One statement is the other with its first own call `target` replaced. -/
def ReplacedIn (target : Call) (replacement : Expr) (stmt stmt' : Stmt) : Prop :=
  ∃ expr expr', stmt.ownExpr? = some expr ∧ Expr.ReplacedIn target replacement expr expr' ∧
    stmt' = stmt.withOwnExpr expr'

/-- Replacing a call of a statement changes its first place in the expression of the statement. -/
theorem replacedIn_of_replaceCall? {stmt stmt' : Stmt}
    (h : stmt.replaceCall? target replacement = some stmt') :
    ReplacedIn target replacement stmt stmt' := by
  unfold replaceCall? at h
  cases hexpr : stmt.ownExpr? with
  | none =>
    rw [hexpr] at h
    cases h
  | some expr =>
    rw [hexpr] at h
    obtain ⟨expr', hreplaced, rfl⟩ := Option.map_eq_some_iff.mp h
    exact ⟨expr, expr', hexpr, Expr.replacedIn_of_replaceCall? expr hreplaced, rfl⟩

/-- What stands for an own call of a statement is part of what the statement evaluates then. -/
theorem ownExpr?_replaceCall? {stmt stmt' : Stmt}
    (h : stmt.replaceCall? target replacement = some stmt') :
    ∃ expr, stmt'.ownExpr? = some expr ∧ replacement.PartOf expr := by
  obtain ⟨_, _, hexpr, ⟨context, rfl, -, rfl⟩, rfl⟩ := replacedIn_of_replaceCall? h
  exact ⟨_, ownExpr?_withOwnExpr hexpr _, context.partOf_plug replacement⟩

end Stmt

end MacroExpansion
