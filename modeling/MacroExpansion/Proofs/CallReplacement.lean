import MacroExpansion.Proofs.CallContext
import MacroExpansion.Tree.Build
import Mathlib.Data.List.Forall2

/-! # Replacing the first of equal calls

A statement with a hole in the expression that it evaluates. Statements nested in it and the bodies
of its lambdas have no hole, so filling the hole cannot reach them. Replacing a call of a statement
fills the hole of the first place in pre-order that holds this call; the calls before it stay, apart
from those around the hole, which change in the argument with the hole and nowhere else. -/

namespace MacroExpansion

variable {target : Call} {replacement : Expr}

/-! ## Calls around a hole -/

/-- One call is the other with the first call `target` of its arguments replaced. -/
def Call.ChangedInside (target : Call) (replacement : Expr) (call call' : Call) : Prop :=
  ∃ (callee : String) (typeArgs : List TypeRef) (before : List Expr) (inner : ExprContext)
    (behind : List Expr) (span : Span),
    call = ⟨callee, typeArgs, before ++ inner.plug (.call target) :: behind, span⟩ ∧
      call' = ⟨callee, typeArgs, before ++ inner.plug replacement :: behind, span⟩

/-- One call is the other, or becomes the other by a replacement in its arguments. -/
def Call.KeptAround (target : Call) (replacement : Expr) (call call' : Call) : Prop :=
  call' = call ∨ Call.ChangedInside target replacement call call'

/-- Calls that stay as they are may come ahead of the others. -/
theorem forall₂_keptAround_append {calls calls' : List Call} (kept : List Call)
    (h : List.Forall₂ (Call.KeptAround target replacement) calls calls') :
    List.Forall₂ (Call.KeptAround target replacement) (kept ++ calls) (kept ++ calls') :=
  List.rel_append (List.forall₂_same.mpr fun _ _ => .inl rfl) h

/-- Another filling changes no call before the hole except inside the argument with the hole. -/
theorem ExprContext.forall₂_callsBefore (target : Call) (replacement : Expr)
    (context : ExprContext) :
    List.Forall₂ (Call.KeptAround target replacement) (context.callsBefore (.call target))
      (context.callsBefore replacement) := by
  induction context with
  | hole => exact .nil
  | argument callee typeArgs before inner behind span ih =>
    -- this call stands around the hole, the calls of the arguments before the hole do not
    have haround : Call.ChangedInside target replacement
        ⟨callee, typeArgs, before ++ inner.plug (.call target) :: behind, span⟩
        ⟨callee, typeArgs, before ++ inner.plug replacement :: behind, span⟩ :=
      ⟨callee, typeArgs, before, inner, behind, span, rfl, rfl⟩
    exact .cons (.inr haround) (forall₂_keptAround_append (exprsCalls before) ih)
  | operand op inner span ih => exact ih
  | left op inner rhs span ih => exact ih
  | right op lhs inner span ih => exact forall₂_keptAround_append lhs.calls ih
  | assignTarget inner value span ih => exact ih
  | assignValue place inner span ih => exact forall₂_keptAround_append place.calls ih

/-! ## Statements with a hole -/

/-- A statement with a hole in the expression that it evaluates. -/
inductive StmtContext where
  /-- An expression statement. -/
  | evaluated (context : ExprContext) (span : Span)
  /-- A local variable with the hole in its initial value. -/
  | initial (type : TypeRef) (name : String) (context : ExprContext) (span : Span)
  /-- A conditional with the hole in its condition. -/
  | branchCondition (context : ExprContext) (thenBranch : Stmt) (elseBranch : Option Stmt)
    (span : Span)
  /-- A loop with the hole in its condition. -/
  | loopCondition (context : ExprContext) (body : Stmt) (span : Span)
  /-- A returned value with the hole. -/
  | returned (context : ExprContext) (span : Span)

namespace StmtContext

/-- The expression with the hole. -/
def inner : StmtContext → ExprContext
  | .evaluated context _ | .initial _ _ context _ | .branchCondition context _ _ _
  | .loopCondition context _ _ | .returned context _ => context

/-- Fills the hole. -/
def plug : StmtContext → Expr → Stmt
  | .evaluated context span, filling => .expr (context.plug filling) span
  | .initial type name context span, filling =>
      .localVar type name (some (context.plug filling)) span
  | .branchCondition context thenBranch elseBranch span, filling =>
      .branch (context.plug filling) thenBranch elseBranch span
  | .loopCondition context body span, filling => .loop (context.plug filling) body span
  | .returned context span, filling => .ret (some (context.plug filling)) span

/-- The own calls before the hole; the filling stands in the arguments of those around it. -/
def callsBefore (context : StmtContext) (filling : Expr) : List Call :=
  context.inner.callsBefore filling

/-- The own calls behind the hole. -/
def callsBehind (context : StmtContext) : List Call := context.inner.callsBehind

/-- What a filled statement evaluates is its filled expression. -/
@[simp] theorem ownExpr?_plug (context : StmtContext) (filling : Expr) :
    (context.plug filling).ownExpr? = some (context.inner.plug filling) := by
  cases context <;> rfl

/-- Giving a filled statement the expression with another filling is filling it anew. -/
@[simp] theorem withOwnExpr_plug (context : StmtContext) (filling filling' : Expr) :
    (context.plug filling).withOwnExpr (context.inner.plug filling') = context.plug filling' := by
  cases context <;> rfl

/-- The own calls of a filled statement are those before the hole, those of the filling, and those
behind the hole. -/
theorem ownCalls_plug (context : StmtContext) (filling : Expr) :
    (context.plug filling).ownCalls =
      context.callsBefore filling ++ filling.calls ++ context.callsBehind := by
  have hexpr : (context.plug filling).ownCalls = (context.inner.plug filling).calls := by
    simp [Stmt.ownCalls]
  rw [hexpr, ExprContext.calls_plug]
  rfl

/-- A statement whose expression has a hole is a statement with this hole. -/
theorem exists_plug_of_ownExpr? {stmt : Stmt} {context : ExprContext} {filling : Expr}
    (h : stmt.ownExpr? = some (context.plug filling)) :
    ∃ whole : StmtContext, whole.inner = context ∧ stmt = whole.plug filling := by
  cases stmt with
  | empty span => cases h
  | expr e span =>
    obtain rfl : e = context.plug filling := Option.some.inj h
    exact ⟨.evaluated context span, rfl, rfl⟩
  | localVar type name init span =>
    obtain rfl : init = some (context.plug filling) := h
    exact ⟨.initial type name context span, rfl, rfl⟩
  | block block => cases h
  | branch condition thenBranch elseBranch span =>
    obtain rfl : condition = context.plug filling := Option.some.inj h
    exact ⟨.branchCondition context thenBranch elseBranch span, rfl, rfl⟩
  | loop condition body span =>
    obtain rfl : condition = context.plug filling := Option.some.inj h
    exact ⟨.loopCondition context body span, rfl, rfl⟩
  | ret value span =>
    obtain rfl : value = some (context.plug filling) := h
    exact ⟨.returned context span, rfl, rfl⟩

end StmtContext

/-! ## Replacing -/

/-- A call is not replaced in code without it. -/
theorem Expr.replaceCall?_of_not_mem {expr : Expr} (h : target ∉ expr.calls) :
    expr.replaceCall? target replacement = none := by
  cases hreplaced : expr.replaceCall? target replacement with
  | none => rfl
  | some expr' =>
    obtain ⟨context, rfl, -, -⟩ := Expr.replacedIn_of_replaceCall? expr hreplaced
    simp [ExprContext.calls_plug, Expr.calls] at h

/-- Behind expressions without the call the replacement is that in the next one. -/
theorem exprsReplaceCall?_append {before : List Expr} (h : target ∉ exprsCalls before)
    {expr expr' : Expr} (hexpr : expr.replaceCall? target replacement = some expr')
    (behind : List Expr) :
    exprsReplaceCall? (before ++ expr :: behind) target replacement =
      some (before ++ expr' :: behind) := by
  induction before with
  | nil => rw [List.nil_append, exprsReplaceCall?, hexpr, List.nil_append]
  | cons first before ih =>
    obtain ⟨hfirst, hbefore⟩ := not_or.mp (mt List.mem_append.mpr h)
    rw [List.cons_append, exprsReplaceCall?, Expr.replaceCall?_of_not_mem hfirst, ih hbefore]
    rfl

/-- Where a call is not before a hole, the hole is the place at which it is replaced. -/
theorem ExprContext.replaceCall?_plug (context : ExprContext)
    (h : target ∉ context.callsBefore (.call target)) :
    (context.plug (.call target)).replaceCall? target replacement =
      some (context.plug replacement) := by
  induction context with
  | hole => rw [plug, Expr.replaceCall?, if_pos rfl, plug]
  | argument callee typeArgs before inner behind span ih =>
    -- neither the call around the hole nor one of the arguments before it is the target
    obtain ⟨hne, hbefore⟩ := not_or.mp (mt List.mem_cons.mpr h)
    obtain ⟨hbefore, hinner⟩ := not_or.mp (mt List.mem_append.mpr hbefore)
    rw [plug, Expr.replaceCall?, if_neg (Ne.symm hne), Call.replaceInner?,
      exprsReplaceCall?_append hbefore (ih hinner)]
    rfl
  | operand op inner span ih =>
    rw [plug, Expr.replaceCall?, ih h]
    rfl
  | left op inner rhs span ih =>
    rw [plug, Expr.replaceCall?, ih h]
    rfl
  | right op lhs inner span ih =>
    obtain ⟨hlhs, hinner⟩ := not_or.mp (mt List.mem_append.mpr h)
    rw [plug, Expr.replaceCall?, Expr.replaceCall?_of_not_mem hlhs, ih hinner]
    rfl
  | assignTarget inner value span ih =>
    rw [plug, Expr.replaceCall?, ih h]
    rfl
  | assignValue place inner span ih =>
    obtain ⟨hplace, hinner⟩ := not_or.mp (mt List.mem_append.mpr h)
    rw [plug, Expr.replaceCall?, Expr.replaceCall?_of_not_mem hplace, ih hinner]
    rfl

/-- The same in a statement. -/
theorem StmtContext.replaceCall?_plug (whole : StmtContext)
    (h : target ∉ whole.callsBefore (.call target)) :
    (whole.plug (.call target)).replaceCall? target replacement = some (whole.plug replacement) := by
  rw [Stmt.replaceCall?, ownExpr?_plug]
  dsimp only
  rw [whole.inner.replaceCall?_plug h, Option.map_some, withOwnExpr_plug]

namespace Stmt

/-- What can be replaced in a statement has a first place in it, and the statement that results
differs in what stands at this place. -/
theorem exists_context_of_replaceCall? {stmt stmt' : Stmt}
    (h : stmt.replaceCall? target replacement = some stmt') :
    ∃ context : StmtContext, stmt = context.plug (.call target) ∧
      stmt' = context.plug replacement ∧ target ∉ context.callsBefore (.call target) := by
  obtain ⟨expr, expr', hexpr, ⟨context, rfl, hbefore, rfl⟩, rfl⟩ := replacedIn_of_replaceCall? h
  obtain ⟨whole, rfl, rfl⟩ := StmtContext.exists_plug_of_ownExpr? hexpr
  exact ⟨whole, rfl, by simp, hbefore⟩

/-- Replacing a call succeeds exactly on the calls that the statement evaluates itself. -/
theorem isSome_replaceCall?_iff (stmt : Stmt) (target : Call) (replacement : Expr) :
    (stmt.replaceCall? target replacement).isSome ↔ target ∈ stmt.ownCalls := by
  constructor
  · intro hsome
    obtain ⟨stmt', hstmt'⟩ := Option.isSome_iff_exists.mp hsome
    obtain ⟨context, rfl, -, -⟩ := exists_context_of_replaceCall? hstmt'
    simp [StmtContext.ownCalls_plug, Expr.calls]
  · exact isSome_replaceCall?

/-- Replacing a call fills the first place that holds it. It succeeds exactly on the own calls of
the statement and otherwise leaves the statement as it is. Where it succeeds, one hole makes the
difference between the two statements: the call is nowhere before this hole, it and the calls of its
arguments give way to the calls of the replacement, the calls behind stay, and so do those before,
apart from what a call around the hole has inside. A call replaced by itself changes nothing. -/
theorem first_call_replaced (stmt : Stmt) (target : Call) (replacement : Expr) :
    ((stmt.replaceCall? target replacement).isSome ↔ target ∈ stmt.ownCalls) ∧
      (target ∉ stmt.ownCalls → (stmt.replaceCall? target replacement).getD stmt = stmt) ∧
      (∀ stmt', stmt.replaceCall? target replacement = some stmt' →
        ∃ context : StmtContext,
          stmt = context.plug (.call target) ∧ stmt' = context.plug replacement ∧
          target ∉ context.callsBefore (.call target) ∧
          stmt.ownCalls =
            context.callsBefore (.call target) ++ (target :: target.inner) ++ context.callsBehind ∧
          stmt'.ownCalls =
            context.callsBefore replacement ++ replacement.calls ++ context.callsBehind ∧
          List.Forall₂ (Call.KeptAround target replacement) (context.callsBefore (.call target))
            (context.callsBefore replacement)) ∧
      (stmt.replaceCall? target (.call target)).getD stmt = stmt := by
  refine ⟨isSome_replaceCall?_iff stmt target replacement, fun habsent => ?_, fun stmt' h => ?_, ?_⟩
  · have hnone : stmt.replaceCall? target replacement = none := by
      simpa using mt (isSome_replaceCall?_iff stmt target replacement).mp habsent
    rw [hnone]
    rfl
  · obtain ⟨context, rfl, rfl, hbefore⟩ := exists_context_of_replaceCall? h
    exact ⟨context, rfl, rfl, hbefore, context.ownCalls_plug _, context.ownCalls_plug _,
      context.inner.forall₂_callsBefore target replacement⟩
  · cases h : stmt.replaceCall? target (.call target) with
    | none => rfl
    | some stmt' =>
      obtain ⟨context, rfl, rfl, -⟩ := exists_context_of_replaceCall? h
      rfl

/-- In `Sum(M(), M());` the first call of `M` gives way to `7`, and the second one stays. -/
theorem first_call_replaced_sum :
    ∃ context : StmtContext,
      evaluate (.callOf "Sum" [.callOf "M" [], .callOf "M" []]) =
          context.plug (.callOf "M" []) ∧
        evaluate (.callOf "Sum" [.ofInt 7, .callOf "M" []]) = context.plug (.ofInt 7) ∧
        Call.plain "M" [] ∉ context.callsBefore (.callOf "M" []) := by
  have hsum :
      (evaluate (.callOf "Sum" [.callOf "M" [], .callOf "M" []])).replaceCall? (.plain "M" [])
          (.ofInt 7) =
        some (evaluate (.callOf "Sum" [.ofInt 7, .callOf "M" []])) := by
    decide
  obtain ⟨-, -, hplace, -⟩ :=
    first_call_replaced (evaluate (.callOf "Sum" [.callOf "M" [], .callOf "M" []]))
      (.plain "M" []) (.ofInt 7)
  obtain ⟨context, hstmt, hstmt', hbefore, -⟩ := hplace _ hsum
  exact ⟨context, hstmt, hstmt', hbefore⟩

end Stmt

end MacroExpansion
