import MacroExpansion.Tree.OwnCode

/-! # Changing a lambda of a statement

Changing one of the outermost lambdas of an expression changes that lambda and no other, and of the
calls of the expression nothing that decides how they bind: neither the path of a call nor which of
its arguments are bare names. A call of an expression can be replaced. -/

namespace MacroExpansion

/-! ## Lambdas -/

/-- In two lists in sequence a position lies in one or in the other. -/
theorem modify_append {α : Type} (f : α → α) (first second : List α) (n : Nat) :
    (first ++ second).modify n f =
      if n < first.length then first.modify n f ++ second
      else first ++ second.modify (n - first.length) f := by
  induction first generalizing n with
  | nil => simp
  | cons head tail ih =>
    cases n with
    | zero => rfl
    | succ n =>
      simp only [List.cons_append, List.modify_succ_cons, ih, List.length_cons,
        Nat.add_lt_add_iff_right, Nat.add_sub_add_right]
      split <;> rfl

mutual

/-- The lambdas of a changed expression are those of the expression with one of them changed. -/
theorem Expr.lambdas_modifyLambda (f : Lambda → Lambda) :
    ∀ (expr : Expr) (n : Nat), (expr.modifyLambda f n).lambdas = expr.lambdas.modify n f
  | .literal .., n => (List.modify_nil f n).symm
  | .name .., n => (List.modify_nil f n).symm
  | .lambda lambda, n => by
      cases n with
      | zero => rfl
      | succ n => rw [Expr.modifyLambda, if_neg (Nat.succ_ne_zero n), Expr.lambdas,
          List.modify_succ_cons, List.modify_nil]
  | .call call, n => call.lambdas_modifyLambda f n
  | .unary _ operand _, n => operand.lambdas_modifyLambda f n
  | .binary _ lhs rhs _, n => by
      rw [Expr.modifyLambda, Expr.lambdas, modify_append]
      split
      · rw [Expr.lambdas, lhs.lambdas_modifyLambda f n]
      · rw [Expr.lambdas, rhs.lambdas_modifyLambda f]
  | .assign target value _, n => by
      rw [Expr.modifyLambda, Expr.lambdas, modify_append]
      split
      · rw [Expr.lambdas, target.lambdas_modifyLambda f n]
      · rw [Expr.lambdas, value.lambdas_modifyLambda f]

/-- Changing a lambda in the arguments of a call changes that one of the call's lambdas. -/
theorem Call.lambdas_modifyLambda (f : Lambda → Lambda) :
    ∀ (call : Call) (n : Nat), (call.modifyLambda f n).lambdas = call.lambdas.modify n f
  | ⟨_, _, args, _⟩, n => exprsLambdas_modifyLambda f args n

/-- Changing a lambda in listed expressions changes that one of their lambdas. -/
theorem exprsLambdas_modifyLambda (f : Lambda → Lambda) :
    ∀ (exprs : List Expr) (n : Nat),
      exprsLambdas (exprsModifyLambda f exprs n) = (exprsLambdas exprs).modify n f
  | [], n => (List.modify_nil f n).symm
  | expr :: rest, n => by
      rw [exprsModifyLambda, exprsLambdas, modify_append]
      split
      · rw [exprsLambdas, expr.lambdas_modifyLambda f n]
      · rw [exprsLambdas, exprsLambdas_modifyLambda f rest]

end

mutual

/-- Changing a lambda into itself changes nothing. -/
theorem Expr.modifyLambda_self {f : Lambda → Lambda} :
    ∀ (expr : Expr) (n : Nat), (∀ lambda, expr.lambdas[n]? = some lambda → f lambda = lambda) →
      expr.modifyLambda f n = expr
  | .literal .., _, _ => rfl
  | .name .., _, _ => rfl
  | .lambda lambda, n, h => by
      cases n with
      | zero => exact congrArg Expr.lambda (h lambda rfl)
      | succ n => rfl
  | .call call, n, h => congrArg Expr.call (call.modifyLambda_self n h)
  | .unary op operand span, n, h => by
      rw [Expr.modifyLambda, operand.modifyLambda_self n h]
  | .binary op lhs rhs span, n, h => by
      rw [Expr.modifyLambda]
      split
      · rename_i hn
        rw [lhs.modifyLambda_self n fun lambda hlambda =>
          h lambda (by rw [Expr.lambdas, List.getElem?_append_left hn, hlambda])]
      · rename_i hn
        rw [rhs.modifyLambda_self _ fun lambda hlambda =>
          h lambda (by rw [Expr.lambdas, List.getElem?_append_right (Nat.le_of_not_lt hn), hlambda])]
  | .assign target value span, n, h => by
      rw [Expr.modifyLambda]
      split
      · rename_i hn
        rw [target.modifyLambda_self n fun lambda hlambda =>
          h lambda (by rw [Expr.lambdas, List.getElem?_append_left hn, hlambda])]
      · rename_i hn
        rw [value.modifyLambda_self _ fun lambda hlambda =>
          h lambda (by rw [Expr.lambdas, List.getElem?_append_right (Nat.le_of_not_lt hn), hlambda])]

/-- A lambda of a call that would not change may be changed. -/
theorem Call.modifyLambda_self {f : Lambda → Lambda} :
    ∀ (call : Call) (n : Nat), (∀ lambda, call.lambdas[n]? = some lambda → f lambda = lambda) →
      call.modifyLambda f n = call
  | ⟨callee, typeArgs, args, span⟩, n, h => by
      rw [Call.modifyLambda, exprsModifyLambda_self args n h]

/-- A lambda of listed expressions that would not change may be changed. -/
theorem exprsModifyLambda_self {f : Lambda → Lambda} :
    ∀ (exprs : List Expr) (n : Nat),
      (∀ lambda, (exprsLambdas exprs)[n]? = some lambda → f lambda = lambda) →
        exprsModifyLambda f exprs n = exprs
  | [], _, _ => rfl
  | expr :: rest, n, h => by
      rw [exprsModifyLambda]
      split
      · rename_i hn
        rw [expr.modifyLambda_self n fun lambda hlambda =>
          h lambda (by rw [exprsLambdas, List.getElem?_append_left hn, hlambda])]
      · rename_i hn
        rw [exprsModifyLambda_self rest _ fun lambda hlambda =>
          h lambda (by rw [exprsLambdas, List.getElem?_append_right (Nat.le_of_not_lt hn), hlambda])]

end

/-! ## Calls -/

/-- What of a call decides how it binds: its path, and which of its arguments are bare names. -/
def Call.outline (call : Call) : String × List (Option String) :=
  (call.callee, call.args.map Expr.asName?)

/-- Changing a lambda leaves bare names as they are, and makes no others. -/
theorem Expr.asName?_modifyLambda (f : Lambda → Lambda) (expr : Expr) (n : Nat) :
    (expr.modifyLambda f n).asName? = expr.asName? := by
  cases expr with
  | binary _ lhs rhs _ =>
    rw [modifyLambda]
    split <;> rfl
  | assign target value _ =>
    rw [modifyLambda]
    split <;> rfl
  | _ => rfl

/-- The same for expressions in sequence. -/
theorem asName?_exprsModifyLambda (f : Lambda → Lambda) (exprs : List Expr) (n : Nat) :
    (exprsModifyLambda f exprs n).map Expr.asName? = exprs.map Expr.asName? := by
  induction exprs generalizing n with
  | nil => rfl
  | cons expr rest ih =>
    rw [exprsModifyLambda]
    split
    · rw [List.map_cons, List.map_cons, Expr.asName?_modifyLambda]
    · rw [List.map_cons, List.map_cons, ih]

/-- Changing a lambda in the arguments of a call leaves its outline as it is. -/
theorem Call.outline_modifyLambda (f : Lambda → Lambda) (call : Call) (n : Nat) :
    (call.modifyLambda f n).outline = call.outline := by
  obtain ⟨callee, typeArgs, args, span⟩ := call
  exact congrArg (callee, ·) (asName?_exprsModifyLambda f args n)

mutual

/-- Changing a lambda leaves the outlines of the calls around it as they are. -/
theorem Expr.outline_calls_modifyLambda (f : Lambda → Lambda) :
    ∀ (expr : Expr) (n : Nat),
      (expr.modifyLambda f n).calls.map Call.outline = expr.calls.map Call.outline
  | .literal .., _ => rfl
  | .name .., _ => rfl
  | .lambda _, _ => rfl
  | .call call, n => by
      rw [Expr.modifyLambda, Expr.calls, Expr.calls, List.map_cons, List.map_cons,
        call.outline_modifyLambda, call.outline_inner_modifyLambda f n]
  | .unary _ operand _, n => operand.outline_calls_modifyLambda f n
  | .binary _ lhs rhs _, n => by
      rw [Expr.modifyLambda]
      split
      · rw [Expr.calls, Expr.calls, List.map_append, List.map_append,
          lhs.outline_calls_modifyLambda f n]
      · rw [Expr.calls, Expr.calls, List.map_append, List.map_append,
          rhs.outline_calls_modifyLambda f]
  | .assign target value _, n => by
      rw [Expr.modifyLambda]
      split
      · rw [Expr.calls, Expr.calls, List.map_append, List.map_append,
          target.outline_calls_modifyLambda f n]
      · rw [Expr.calls, Expr.calls, List.map_append, List.map_append,
          value.outline_calls_modifyLambda f]

/-- The calls in the arguments of a call keep their outlines when a lambda is changed. -/
theorem Call.outline_inner_modifyLambda (f : Lambda → Lambda) :
    ∀ (call : Call) (n : Nat),
      (call.modifyLambda f n).inner.map Call.outline = call.inner.map Call.outline
  | ⟨_, _, args, _⟩, n => outline_exprsCalls_modifyLambda f args n

/-- The calls of listed expressions keep their outlines when a lambda is changed. -/
theorem outline_exprsCalls_modifyLambda (f : Lambda → Lambda) :
    ∀ (exprs : List Expr) (n : Nat),
      (exprsCalls (exprsModifyLambda f exprs n)).map Call.outline =
        (exprsCalls exprs).map Call.outline
  | [], _ => rfl
  | expr :: rest, n => by
      rw [exprsModifyLambda]
      split
      · rw [exprsCalls, exprsCalls, List.map_append, List.map_append,
          expr.outline_calls_modifyLambda f n]
      · rw [exprsCalls, exprsCalls, List.map_append, List.map_append,
          outline_exprsCalls_modifyLambda f rest]

end

/-! ## Replacing a call -/

/-- The calls and the outermost lambdas of an expression are among those of another one. -/
def Expr.PartOf (part whole : Expr) : Prop :=
  part.calls ⊆ whole.calls ∧ part.lambdas ⊆ whole.lambdas

variable {target : Call} {replacement : Expr}

mutual

/-- A call of an expression can be replaced. -/
theorem Expr.isSome_replaceCall? :
    ∀ (expr : Expr), target ∈ expr.calls → (expr.replaceCall? target replacement).isSome
  | .literal .., h => nomatch h
  | .name .., h => nomatch h
  | .lambda _, h => nomatch h
  | .call call, h => by
      rw [Expr.replaceCall?]
      split
      · rfl
      · rename_i hne
        rw [Option.isSome_map]
        exact call.isSome_replaceInner? ((List.mem_cons.mp h).resolve_left (Ne.symm hne))
  | .unary _ operand _, h => by
      rw [Expr.replaceCall?, Option.isSome_map]
      exact operand.isSome_replaceCall? h
  | .binary _ lhs rhs _, h => by
      rw [Expr.replaceCall?]
      split
      · rfl
      · rename_i hnone
        rw [Option.isSome_map]
        refine rhs.isSome_replaceCall? ((List.mem_append.mp h).resolve_left fun hlhs => ?_)
        simpa [hnone] using lhs.isSome_replaceCall? hlhs
  | .assign place value _, h => by
      rw [Expr.replaceCall?]
      split
      · rfl
      · rename_i hnone
        rw [Option.isSome_map]
        refine value.isSome_replaceCall? ((List.mem_append.mp h).resolve_left fun hplace => ?_)
        simpa [hnone] using place.isSome_replaceCall? hplace

/-- A call in the arguments of another one can be replaced there. -/
theorem Call.isSome_replaceInner? :
    ∀ (call : Call), target ∈ call.inner → (call.replaceInner? target replacement).isSome
  | ⟨_, _, args, _⟩, h => by
      rw [Call.replaceInner?, Option.isSome_map]
      exact isSome_exprsReplaceCall? args h

/-- A call of listed expressions can be replaced there. -/
theorem isSome_exprsReplaceCall? :
    ∀ (exprs : List Expr), target ∈ exprsCalls exprs →
      (exprsReplaceCall? exprs target replacement).isSome
  | [], h => nomatch h
  | expr :: rest, h => by
      rw [exprsReplaceCall?]
      split
      · rfl
      · rename_i hnone
        rw [Option.isSome_map]
        refine isSome_exprsReplaceCall? rest ((List.mem_append.mp h).resolve_left fun hexpr => ?_)
        simpa [hnone] using expr.isSome_replaceCall? hexpr

end

/-! ## Statements -/

namespace Stmt

/-- Changing an own lambda of a statement changes that lambda and no other. -/
theorem ownLambdas_modifyOwnLambda (stmt : Stmt) (n : Nat) (f : Lambda → Lambda) :
    (stmt.modifyOwnLambda n f).ownLambdas = stmt.ownLambdas.modify n f := by
  unfold modifyOwnLambda
  cases h : stmt.ownExpr? with
  | none => simp [ownLambdas, h]
  | some e =>
    simp only [ownLambdas, ownExpr?_withOwnExpr h, h]
    exact e.lambdas_modifyLambda f n

/-- Changing an own lambda of a statement leaves the outlines of its own calls as they are. -/
theorem outline_ownCalls_modifyOwnLambda (stmt : Stmt) (n : Nat) (f : Lambda → Lambda) :
    (stmt.modifyOwnLambda n f).ownCalls.map Call.outline = stmt.ownCalls.map Call.outline := by
  unfold modifyOwnLambda
  cases h : stmt.ownExpr? with
  | none => rfl
  | some e =>
    simp only [ownCalls, ownExpr?_withOwnExpr h, h]
    exact e.outline_calls_modifyLambda f n

/-- Changing an own lambda of a statement into itself changes nothing. -/
theorem modifyOwnLambda_self {stmt : Stmt} {n : Nat} {f : Lambda → Lambda}
    (h : ∀ lambda, stmt.ownLambdas[n]? = some lambda → f lambda = lambda) :
    stmt.modifyOwnLambda n f = stmt := by
  unfold modifyOwnLambda
  cases he : stmt.ownExpr? with
  | none => rfl
  | some e =>
    simp only [ownLambdas, he] at h
    simp only [e.modifyLambda_self n h, withOwnExpr_self he]

/-- An own call of a statement can be replaced. -/
theorem isSome_replaceCall? {stmt : Stmt} (h : target ∈ stmt.ownCalls) :
    (stmt.replaceCall? target replacement).isSome := by
  unfold replaceCall?
  unfold ownCalls at h
  cases he : stmt.ownExpr? with
  | none => simp [he] at h
  | some e =>
    simp only [he] at h
    simp only [Option.isSome_map]
    exact Expr.isSome_replaceCall? e h

end Stmt

end MacroExpansion
