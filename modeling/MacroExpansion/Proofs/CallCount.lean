import MacroExpansion.Proofs.Height
import MacroExpansion.Proofs.WithoutCode

/-! # Counting own calls

Replacing an own call takes that call and those in its arguments out of a statement and puts the
calls of the replacement in. For calls that are told by their head the count is exact: the calls
around the replaced one keep theirs. When the first of them is replaced by code without any, exactly
one of those goes that stand in the arguments of no other one. -/

namespace MacroExpansion

/-! ## Expressions -/

/-- A call without what its arguments are. -/
def Call.head (call : Call) : String × List TypeRef × Nat :=
  (call.callee, call.typeArgs, call.args.length)

/-- Whether a call counts is told by its head. -/
def CountsByHead (p : Call → Bool) : Prop :=
  ∀ ⦃call call' : Call⦄, call.head = call'.head → p call = p call'

variable {p : Call → Bool} {target : Call} {replacement : Expr}

namespace ExprContext

/-- As many calls count before the hole whatever fills it: those around it keep their heads. -/
theorem countP_callsBefore (hp : CountsByHead p) (context : ExprContext) (filling filling' : Expr) :
    (context.callsBefore filling').countP p = (context.callsBefore filling).countP p := by
  induction context with
  | hole => rfl
  | argument callee typeArgs before inner behind span ih =>
    have hhead : p ⟨callee, typeArgs, before ++ inner.plug filling' :: behind, span⟩ =
        p ⟨callee, typeArgs, before ++ inner.plug filling :: behind, span⟩ :=
      hp (by simp [Call.head])
    rw [callsBefore, callsBefore, List.countP_cons, List.countP_cons, hhead, List.countP_append,
      List.countP_append, ih]
  | operand op inner span ih => exact ih
  | left op inner rhs span ih => exact ih
  | right op lhs inner span ih =>
    rw [callsBefore, callsBefore, List.countP_append, List.countP_append, ih]
  | assignTarget inner value span ih => exact ih
  | assignValue target inner span ih =>
    rw [callsBefore, callsBefore, List.countP_append, List.countP_append, ih]

end ExprContext

/-- The counted calls after a replacement and those of the replaced call are the ones before it and
those of the replacement. -/
theorem Expr.ReplacedIn.countP_calls (hp : CountsByHead p) {expr expr' : Expr}
    (h : Expr.ReplacedIn target replacement expr expr') :
    expr'.calls.countP p + (target :: target.inner).countP p =
      expr.calls.countP p + replacement.calls.countP p := by
  obtain ⟨context, rfl, -, rfl⟩ := h
  have hbefore := context.countP_callsBefore hp (.call target) replacement
  simp only [ExprContext.calls_plug, List.countP_append, hbefore, Expr.calls]
  omega

/-! ## Outer calls -/

mutual

/-- The number of counted calls of an expression that stand in the arguments of no other one. -/
def Expr.outerCalls (p : Call → Bool) : Expr → Nat
  | .literal .. | .name .. | .lambda _ => 0
  | .call call => if p call then 1 else call.outerInner p
  | .unary _ operand _ => operand.outerCalls p
  | .binary _ lhs rhs _ => lhs.outerCalls p + rhs.outerCalls p
  | .assign target value _ => target.outerCalls p + value.outerCalls p

/-- The number of such calls in the arguments of a call. -/
def Call.outerInner (p : Call → Bool) : Call → Nat
  | ⟨_, _, args, _⟩ => exprsOuterCalls p args

/-- The number of such calls in expressions in sequence. -/
def exprsOuterCalls (p : Call → Bool) : List Expr → Nat
  | [] => 0
  | expr :: rest => expr.outerCalls p + exprsOuterCalls p rest

end

mutual

/-- Where no call counts there are no outer ones. -/
theorem Expr.outerCalls_eq_zero :
    ∀ (expr : Expr), expr.calls.countP p = 0 → expr.outerCalls p = 0
  | .literal .., _ => rfl
  | .name .., _ => rfl
  | .lambda _, _ => rfl
  | .call call, h => by
      rw [Expr.calls, List.countP_cons] at h
      rw [Expr.outerCalls]
      by_cases hcall : p call = true
      · simp [hcall] at h
      · rw [if_neg hcall]
        exact call.outerInner_eq_zero (by omega)
  | .unary _ operand _, h => operand.outerCalls_eq_zero h
  | .binary _ lhs rhs _, h => by
      rw [Expr.calls, List.countP_append] at h
      rw [Expr.outerCalls, lhs.outerCalls_eq_zero (by omega), rhs.outerCalls_eq_zero (by omega)]
  | .assign place value _, h => by
      rw [Expr.calls, List.countP_append] at h
      rw [Expr.outerCalls, place.outerCalls_eq_zero (by omega), value.outerCalls_eq_zero (by omega)]

/-- A call without such calls in its arguments has none that are outermost there. -/
theorem Call.outerInner_eq_zero :
    ∀ (call : Call), call.inner.countP p = 0 → call.outerInner p = 0
  | ⟨_, _, args, _⟩, h => exprsOuterCalls_eq_zero args h

/-- Listed expressions without such calls have none that are outermost. -/
theorem exprsOuterCalls_eq_zero :
    ∀ (exprs : List Expr), (exprsCalls exprs).countP p = 0 → exprsOuterCalls p exprs = 0
  | [], _ => rfl
  | expr :: rest, h => by
      rw [exprsCalls, List.countP_append] at h
      rw [exprsOuterCalls, expr.outerCalls_eq_zero (by omega),
        exprsOuterCalls_eq_zero rest (by omega)]

end

/-- The outer calls of two lists in sequence are those of both. -/
theorem exprsOuterCalls_append (first second : List Expr) :
    exprsOuterCalls p (first ++ second) = exprsOuterCalls p first + exprsOuterCalls p second := by
  induction first with
  | nil => exact (Nat.zero_add _).symm
  | cons expr rest ih =>
    rw [List.cons_append, exprsOuterCalls, exprsOuterCalls, ih, Nat.add_assoc]

/-- Where no call before the hole counts, the outer calls of what fills it are outer calls of the
whole, beside those behind the hole. -/
theorem ExprContext.outerCalls_plug (context : ExprContext) :
    ∃ behind, ∀ filling, (context.callsBefore filling).countP p = 0 →
      (context.plug filling).outerCalls p = filling.outerCalls p + behind := by
  induction context with
  | hole => exact ⟨0, fun filling _ => rfl⟩
  | argument callee typeArgs before inner after span ih =>
    obtain ⟨behind, hinner⟩ := ih
    refine ⟨behind + exprsOuterCalls p after, fun filling hbefore => ?_⟩
    rw [callsBefore, List.countP_cons, List.countP_append] at hbefore
    -- the call around the hole is not counted, nor are those in the arguments before it
    have haround : ¬p ⟨callee, typeArgs, before ++ inner.plug filling :: after, span⟩ = true :=
      fun hcounted => by simp [hcounted] at hbefore
    have hfirst : exprsOuterCalls p before = 0 := exprsOuterCalls_eq_zero before (by omega)
    rw [plug, Expr.outerCalls, if_neg haround, Call.outerInner, exprsOuterCalls_append,
      exprsOuterCalls, hfirst, hinner filling (by omega)]
    omega
  | operand op inner span ih => exact ih
  | left op inner other span ih | assignTarget inner other span ih =>
    obtain ⟨behind, hinner⟩ := ih
    refine ⟨behind + other.outerCalls p, fun filling hbefore => ?_⟩
    rw [plug, Expr.outerCalls, hinner filling hbefore, Nat.add_assoc]
  | right op other inner span ih | assignValue other inner span ih =>
    obtain ⟨behind, hinner⟩ := ih
    refine ⟨behind, fun filling hbefore => ?_⟩
    rw [callsBefore, List.countP_append] at hbefore
    rw [plug, Expr.outerCalls, other.outerCalls_eq_zero (by omega), hinner filling (by omega),
      Nat.zero_add]

/-- Replacing the first counted call by code without counted calls takes one outer call away. -/
theorem Expr.ReplacedIn.outerCalls (hp : CountsByHead p)
    (hreplacement : replacement.calls.countP p = 0) {expr expr' : Expr}
    (hfirst : expr.calls.find? p = some target)
    (h : Expr.ReplacedIn target replacement expr expr') :
    expr'.outerCalls p + 1 = expr.outerCalls p := by
  obtain ⟨context, rfl, hbefore, rfl⟩ := h
  have htarget : p target = true := List.find?_some hfirst
  -- no call before the first counted one counts
  have hnone : (context.callsBefore (.call target)).countP p = 0 := by
    rw [ExprContext.calls_plug, List.append_assoc, List.find?_append] at hfirst
    cases hfound : (context.callsBefore (.call target)).find? p with
    | none => exact List.countP_eq_zero.mpr (List.find?_eq_none.mp hfound)
    | some found =>
      rw [hfound] at hfirst
      obtain rfl := Option.some.inj hfirst
      exact absurd (List.mem_of_find?_eq_some hfound) hbefore
  have hnone' : (context.callsBefore replacement).countP p = 0 :=
    (context.countP_callsBefore hp (.call target) replacement).trans hnone
  obtain ⟨behind, houter⟩ := context.outerCalls_plug
  rw [houter _ hnone, houter _ hnone', replacement.outerCalls_eq_zero hreplacement, Expr.outerCalls,
    if_pos htarget]
  omega

/-! ## Statements -/

namespace Stmt

/-- A statement that evaluates another expression shows the same in all slots but its lambdas. -/
theorem content?_withOwnExpr {slot : Slot} (h : ∀ n, slot ≠ .lambda n) (stmt : Stmt) (expr : Expr) :
    slot.content? (stmt.withOwnExpr expr) = slot.content? stmt := by
  cases slot with
  | lambda n => exact absurd rfl (h n)
  | _ =>
    cases stmt with
    | branch _ _ orElse _ => cases orElse <;> rfl
    | localVar _ _ init _ => cases init <;> rfl
    | ret value _ => cases value <;> rfl
    | _ => rfl

variable {stmt stmt' : Stmt}

/-- The own calls of a statement are counted as those of its expression. -/
theorem countP_ownCalls_replaceCall? (hp : CountsByHead p)
    (h : stmt.replaceCall? target replacement = some stmt') :
    stmt'.ownCalls.countP p + (target :: target.inner).countP p =
      stmt.ownCalls.countP p + replacement.calls.countP p := by
  obtain ⟨expr, expr', hexpr, hreplaced, rfl⟩ := replacedIn_of_replaceCall? h
  rw [ownCalls, ownCalls, ownExpr?_withOwnExpr hexpr, hexpr]
  exact hreplaced.countP_calls hp

/-- The number of counted own calls that stand in the arguments of no other one. -/
def outerCalls (p : Call → Bool) (stmt : Stmt) : Nat :=
  match stmt.ownExpr? with
  | some e => e.outerCalls p
  | none => 0

/-- Where no own call counts there are no outer ones. -/
theorem outerCalls_eq_zero (h : stmt.ownCalls.countP p = 0) : stmt.outerCalls p = 0 := by
  unfold outerCalls
  unfold ownCalls at h
  cases he : stmt.ownExpr? with
  | none => rfl
  | some e =>
    rw [he] at h
    exact e.outerCalls_eq_zero h

/-- Replacing the first counted own call by code without counted calls takes one outer call away. -/
theorem outerCalls_replaceCall? (hp : CountsByHead p) (hreplacement : replacement.calls.countP p = 0)
    (hfirst : stmt.ownCalls.find? p = some target)
    (h : stmt.replaceCall? target replacement = some stmt') :
    stmt'.outerCalls p + 1 = stmt.outerCalls p := by
  obtain ⟨expr, expr', hexpr, hreplaced, rfl⟩ := replacedIn_of_replaceCall? h
  rw [ownCalls, hexpr] at hfirst
  rw [outerCalls, outerCalls, ownExpr?_withOwnExpr hexpr, hexpr]
  exact hreplaced.outerCalls hp hreplacement hfirst

/-- What a slot shows after a replacement was shown by a slot before it, or it is the body of a
lambda of the replacement. -/
theorem content?_replaceCall? (h : stmt.replaceCall? target replacement = some stmt') {slot : Slot}
    {content : Block} (hcontent : slot.content? stmt' = some content) :
    (∃ slot', Slot.content? slot' stmt = some content) ∨
      ∃ lambda ∈ replacement.lambdas, content = lambda.asBody := by
  cases slot with
  | lambda n =>
    obtain ⟨lambda, hlambda, rfl⟩ := Option.map_eq_some_iff.mp hcontent
    obtain ⟨-, hlambdas⟩ := frame_replaceCall? h
    rcases hlambdas.mem (List.mem_of_getElem? hlambda) with hold | hnew
    · obtain ⟨m, hm⟩ := List.mem_iff_getElem?.mp hold
      exact .inl ⟨.lambda m, congrArg (Option.map Lambda.asBody) hm⟩
    · exact .inr ⟨lambda, hnew, rfl⟩
  | _ =>
    obtain ⟨_, _, -, -, rfl⟩ := replacedIn_of_replaceCall? h
    rw [content?_withOwnExpr (by simp)] at hcontent
    exact .inl ⟨_, hcontent⟩

/-- What stands in what a slot shows stands in the statement. -/
theorem Contains.of_content {slot : Slot} {content : Block} {inner : Stmt}
    (hcontent : slot.content? stmt = some content) (hmem : inner ∈ content.statements)
    (h : inner.Contains stmt') : stmt.Contains stmt' := by
  have hbody {body : Stmt} (hmem : inner ∈ body.asBody.statements) : body.Contains stmt' := by
    cases body with
    | block b => exact .block hmem h
    | _ => exact List.mem_singleton.mp hmem ▸ h
  cases Slot.hasContent_of_content? hcontent with
  | block body => exact .block hmem h
  | thenBranch => exact .thenBranch (hbody hmem)
  | elseBranch => exact .elseBranch (hbody hmem)
  | loop => exact .loop (hbody hmem)
  | lambda hlambda => exact .lambda (List.mem_of_getElem? hlambda) hmem h

/-- All calls in what a slot shows are calls in the statement. -/
theorem AllCalls.of_content {Q : Call → Prop} (h : stmt.AllCalls Q) {slot : Slot} {content : Block}
    {inner : Stmt} (hcontent : slot.content? stmt = some content)
    (hmem : inner ∈ content.statements) : inner.AllCalls Q :=
  fun nested hnested => h nested (.of_content hcontent hmem hnested)

/-- What holds of calls by their path holds of the own calls after a replacement, if it holds of those
before it and of the calls of the replacement. -/
theorem ownCalls_of_replaceCall? {Q : Call → Prop} (hQ : HoldsByPath Q)
    (h : ∀ call ∈ stmt.ownCalls, Q call) (hreplacement : ∀ call ∈ replacement.calls, Q call)
    (hreplaced : stmt.replaceCall? target replacement = some stmt') :
    ∀ call ∈ stmt'.ownCalls, Q call := by
  classical
  -- the own calls without the property are told by their heads, and there is none to begin with
  let fails (call : Call) : Bool := decide ¬Q call
  have hfails : CountsByHead fails := by
    intro call call' hhead
    have hpath : call.callee = call'.callee := (Prod.mk.inj hhead).1
    exact decide_eq_decide.mpr (not_congr ⟨@hQ _ _ hpath, @hQ _ _ hpath.symm⟩)
  have hnone {calls : List Call} : calls.countP fails = 0 ↔ ∀ call ∈ calls, Q call := by
    simp only [fails, List.countP_eq_zero, decide_eq_true_eq, Classical.not_not]
  have hcount := countP_ownCalls_replaceCall? hfails hreplaced
  have hstmt : stmt.ownCalls.countP fails = 0 := hnone.mpr h
  have hexpr : replacement.calls.countP fails = 0 := hnone.mpr hreplacement
  exact hnone.mp (by omega)

/-- A replacement brings in no calls but its own. -/
theorem AllCalls.of_replaceCall? {Q : Call → Prop} (hQ : HoldsByPath Q) (h : stmt.AllCalls Q)
    (hreplacement : (Stmt.ofExpr replacement).AllCalls Q)
    (hreplaced : stmt.replaceCall? target replacement = some stmt') : stmt'.AllCalls Q := by
  have hown := ownCalls_of_replaceCall? hQ (h stmt (.self stmt)) (hreplacement _ (.self _)) hreplaced
  refine allCalls_iff.mpr ⟨hown, fun slot hslot => ?_⟩
  obtain ⟨content, hcontent⟩ := Option.isSome_iff_exists.mp (Slot.mem_all_iff.mp hslot)
  refine Slot.allCalls_holds hcontent fun inner hinner => ?_
  rcases content?_replaceCall? hreplaced hcontent with ⟨slot', hold⟩ | ⟨lambda, hlambda, rfl⟩
  · exact h.of_content hold hinner
  · exact fun nested hnested => hreplacement nested (.lambda hlambda hinner hnested)

end Stmt

end MacroExpansion
