import Mathlib.Data.List.Nodup
import Mathlib.Data.List.Pairwise
import Mathlib.Data.List.Perm.Basic
import MacroExpansion.Proofs.Height

/-! # The places of calls

A call may be written several times in one statement, so that it does not tell where it stands. Its
address does: the way down to it, as the positions of the parts that are gone through. `callsAt`
goes through everything there is in a tree, except the default values of parameters, without regard
to how an expansion walks it. The calls that it finds are those that the statements visited by a
walk evaluate directly, each found at one of them. -/

namespace MacroExpansion

/-- Parts of a node, each with its address in the node. -/
abbrev Occurrences (α : Type) := List (List Nat × α)

namespace Occurrences

variable {α β : Type}

/-- Parts of a node as parts of a node around it, in which the former has that address. -/
def under (parts : Occurrences α) (path : List Nat) : Occurrences α :=
  parts.map fun (address, part) => (path ++ address, part)

/-- No two parts have one address. -/
def Distinct (parts : Occurrences α) : Prop :=
  (parts.map Prod.fst).Nodup

/-- All addresses lead down at a position that is no smaller than `n`. -/
def From (parts : Occurrences α) (n : Nat) : Prop :=
  ∀ part ∈ parts, ∃ m rest, n ≤ m ∧ part.1 = m :: rest

/-- Parts of a node keep their addresses in the node itself. -/
@[simp] theorem under_here (parts : Occurrences α) : parts.under [] = parts :=
  List.map_id _

/-- The way down comes before the address of each part. -/
@[simp] theorem under_cons (address : List Nat) (part : α) (parts : Occurrences α)
    (path : List Nat) :
    under ((address, part) :: parts) path = (path ++ address, part) :: parts.under path := rfl

/-- Parts that are listed together lead down together. -/
theorem under_append (first second : Occurrences α) (path : List Nat) :
    under (first ++ second) path = first.under path ++ second.under path :=
  List.map_append

/-- The outer way down comes before the inner one. -/
theorem under_under (parts : Occurrences α) (inner outer : List Nat) :
    (parts.under inner).under outer = parts.under (outer ++ inner) := by
  simp [under, Function.comp_def, List.append_assoc]

/-- The addresses of parts are read off where they stand, or where what is around them stands. -/
theorem under_flatMap (parts : Occurrences α) (path : List Nat) (f : α → Occurrences β) :
    under (parts.flatMap fun (address, part) => (f part).under address) path =
      (parts.under path).flatMap fun (address, part) => (f part).under address := by
  induction parts with
  | nil => rfl
  | cons first rest ih =>
    rw [List.flatMap_cons, under_append, ih, under_under]
    rfl

/-- An address does not change what stands there. -/
theorem map_snd_under (parts : Occurrences α) (path : List Nat) :
    (parts.under path).map Prod.snd = parts.map Prod.snd := by
  simp [under, Function.comp_def]

/-- An address of a part of a part leads through the latter. -/
theorem mem_under {parts : Occurrences α} {path address : List Nat} {part : α} :
    (address, part) ∈ parts.under path ↔ ∃ rest, (rest, part) ∈ parts ∧ address = path ++ rest := by
  simp only [under, List.mem_map, Prod.exists, Prod.mk.injEq]
  constructor
  · rintro ⟨rest, part', hmem, rfl, rfl⟩
    exact ⟨rest, hmem, rfl⟩
  · rintro ⟨rest, hmem, rfl⟩
    exact ⟨rest, part, hmem, rfl, rfl⟩

/-- No parts have no small addresses. -/
theorem from_nil (n : Nat) : From ([] : Occurrences α) n :=
  fun _ h => nomatch h

/-- Parts of the part at a position lead down at that position. -/
theorem from_under (parts : Occurrences α) (n : Nat) : (parts.under [n]).From n := by
  rintro ⟨address, part⟩ h
  obtain ⟨rest, _, rfl⟩ := mem_under.mp h
  exact ⟨n, rest, Nat.le_refl n, rfl⟩

/-- Addresses that lead down further on do so all the more from an earlier position. -/
theorem From.mono {parts : Occurrences α} {n m : Nat} (h : parts.From m) (hle : n ≤ m) :
    parts.From n := by
  intro part hpart
  obtain ⟨k, rest, hk, heq⟩ := h part hpart
  exact ⟨k, rest, Nat.le_trans hle hk, heq⟩

/-- Parts that are listed together lead down where all of them do. -/
theorem From.append {first second : Occurrences α} {n : Nat} (h₁ : first.From n)
    (h₂ : second.From n) : From (first ++ second) n := by
  intro part hpart
  rcases List.mem_append.mp hpart with h | h
  · exact h₁ part h
  · exact h₂ part h

/-- Parts with different addresses have different ones in a node around them, too. -/
theorem Distinct.under {parts : Occurrences α} (h : parts.Distinct) (path : List Nat) :
    (parts.under path).Distinct := by
  have hmap : (parts.under path).map Prod.fst = (parts.map Prod.fst).map (path ++ ·) := by
    simp [Occurrences.under, Function.comp_def]
  rw [Distinct, hmap]
  exact h.map (List.append_right_injective path)

/-- Parts of a part and of later ones have different addresses. -/
theorem Distinct.append {first rest : Occurrences α} (h₁ : first.Distinct) (h₂ : rest.Distinct)
    {n : Nat} (h : rest.From (n + 1)) : Distinct (first.under [n] ++ rest) := by
  rw [Distinct, List.map_append]
  refine List.Nodup.append (h₁.under [n]) h₂ fun address hfirst hrest => ?_
  obtain ⟨⟨_, part⟩, hpart, rfl⟩ := List.mem_map.mp hfirst
  obtain ⟨other, hother, hsame⟩ := List.mem_map.mp hrest
  obtain ⟨below, _, rfl⟩ := mem_under.mp hpart
  obtain ⟨m, _, hm, heq⟩ := h other hother
  rw [heq] at hsame
  have hn : m = n := (List.cons.inj hsame).1
  omega

/-- A node and its parts have different addresses. -/
theorem Distinct.cons {parts : Occurrences α} (h : parts.Distinct) (hfrom : parts.From 0)
    (part : α) : Distinct (([], part) :: parts) := by
  rw [Distinct, List.map_cons]
  refine List.nodup_cons.mpr ⟨fun hmem => ?_, h⟩
  obtain ⟨other, hother, hnil⟩ := List.mem_map.mp hmem
  obtain ⟨m, rest, _, heq⟩ := hfrom other hother
  exact List.cons_ne_nil m rest (heq.symm.trans hnil)

end Occurrences

open Occurrences

/-! ## All calls -/

mutual

/-- The calls of an expression. The arguments of a call are its parts, and so are the operands of an
operator; a lambda has the parts of its body. -/
def Expr.callsAt : Expr → Occurrences Call
  | .literal .. | .name .. => []
  | .lambda lambda => lambda.callsAt
  | .call call => ([], call) :: call.innerAt
  | .unary _ operand _ => operand.callsAt.under [0]
  | .binary _ lhs rhs _ => lhs.callsAt.under [0] ++ rhs.callsAt.under [1]
  | .assign target value _ => target.callsAt.under [0] ++ value.callsAt.under [1]

/-- The calls in the arguments of a call. -/
def Call.innerAt : Call → Occurrences Call
  | ⟨_, _, args, _⟩ => exprsCallsAt 0 args

/-- The calls of a lambda are those of its body. -/
def Lambda.callsAt : Lambda → Occurrences Call
  | ⟨_, body, _⟩ => body.callsAt

/-- The calls in the body of a lambda. An expression has the address that it has as an expression
statement. -/
def LambdaBody.callsAt : LambdaBody → Occurrences Call
  | .expr expr => expr.callsAt.under [0]
  | .block block => block.callsAt

/-- The calls of a statement: first those of its expression, then those of its branches or of the
body of the loop; a block has the parts of its sequence. -/
def Stmt.callsAt : Stmt → Occurrences Call
  | .empty _ | .localVar _ _ none _ | .ret none _ => []
  | .expr expr _ | .localVar _ _ (some expr) _ | .ret (some expr) _ => expr.callsAt.under [0]
  | .block block => block.callsAt
  | .branch condition thenBranch none _ =>
      condition.callsAt.under [0] ++ thenBranch.callsAt.under [1]
  | .branch condition thenBranch (some elseBranch) _ =>
      condition.callsAt.under [0] ++ (thenBranch.callsAt.under [1] ++ elseBranch.callsAt.under [2])
  | .loop condition body _ => condition.callsAt.under [0] ++ body.callsAt.under [1]

/-- The calls of a block. -/
def Block.callsAt : Block → Occurrences Call
  | ⟨statements, _⟩ => stmtsCallsAt 0 statements

/-- The calls of expressions in sequence, the first of which is at that position. -/
def exprsCallsAt (n : Nat) : List Expr → Occurrences Call
  | [] => []
  | expr :: rest => expr.callsAt.under [n] ++ exprsCallsAt (n + 1) rest

/-- The calls of statements in sequence, the first of which is at that position. -/
def stmtsCallsAt (n : Nat) : List Stmt → Occurrences Call
  | [] => []
  | stmt :: rest => stmt.callsAt.under [n] ++ stmtsCallsAt (n + 1) rest

end

/-- The calls of listed expressions lead down from the first position on. -/
theorem from_exprsCallsAt (n : Nat) (exprs : List Expr) : (exprsCallsAt n exprs).From n := by
  induction exprs generalizing n with
  | nil => exact from_nil n
  | cons expr rest ih => exact (from_under _ n).append ((ih (n + 1)).mono (Nat.le_succ n))

/-- The calls of listed statements lead down from the first position on. -/
theorem from_stmtsCallsAt (n : Nat) (stmts : List Stmt) : (stmtsCallsAt n stmts).From n := by
  induction stmts generalizing n with
  | nil => exact from_nil n
  | cons stmt rest ih => exact (from_under _ n).append ((ih (n + 1)).mono (Nat.le_succ n))

mutual

/-- No two calls of an expression have one address. -/
theorem Expr.distinct_callsAt : ∀ expr : Expr, expr.callsAt.Distinct
  | .literal .. => List.nodup_nil
  | .name .. => List.nodup_nil
  | .lambda lambda => lambda.distinct_callsAt
  | .call ⟨_, _, args, _⟩ => (distinct_exprsCallsAt 0 args).cons (from_exprsCallsAt 0 args) _
  | .unary _ operand _ => operand.distinct_callsAt.under [0]
  | .binary _ lhs rhs _ =>
      lhs.distinct_callsAt.append (rhs.distinct_callsAt.under [1]) (from_under _ 1)
  | .assign target value _ =>
      target.distinct_callsAt.append (value.distinct_callsAt.under [1]) (from_under _ 1)

/-- The calls of a lambda have different addresses. -/
theorem Lambda.distinct_callsAt : ∀ lambda : Lambda, lambda.callsAt.Distinct
  | ⟨_, .expr expr, _⟩ => expr.distinct_callsAt.under [0]
  | ⟨_, .block ⟨statements, _⟩, _⟩ => distinct_stmtsCallsAt 0 statements

/-- No two calls of a statement have one address. -/
theorem Stmt.distinct_callsAt : ∀ stmt : Stmt, stmt.callsAt.Distinct
  | .empty _ => List.nodup_nil
  | .expr expr _ => expr.distinct_callsAt.under [0]
  | .localVar _ _ none _ => List.nodup_nil
  | .localVar _ _ (some expr) _ => expr.distinct_callsAt.under [0]
  | .ret none _ => List.nodup_nil
  | .ret (some expr) _ => expr.distinct_callsAt.under [0]
  | .block ⟨statements, _⟩ => distinct_stmtsCallsAt 0 statements
  | .branch condition thenBranch none _ =>
      condition.distinct_callsAt.append (thenBranch.distinct_callsAt.under [1]) (from_under _ 1)
  | .branch condition thenBranch (some elseBranch) _ =>
      have hbranches : Distinct (thenBranch.callsAt.under [1] ++ elseBranch.callsAt.under [2]) :=
        thenBranch.distinct_callsAt.append (elseBranch.distinct_callsAt.under [2]) (from_under _ 2)
      condition.distinct_callsAt.append hbranches
        ((from_under _ 1).append ((from_under _ 2).mono (Nat.le_succ 1)))
  | .loop condition body _ =>
      condition.distinct_callsAt.append (body.distinct_callsAt.under [1]) (from_under _ 1)

/-- The calls of listed expressions have different addresses, since each expression has its own
position. -/
theorem distinct_exprsCallsAt (n : Nat) : ∀ exprs : List Expr, (exprsCallsAt n exprs).Distinct
  | [] => List.nodup_nil
  | expr :: rest =>
      expr.distinct_callsAt.append (distinct_exprsCallsAt (n + 1) rest)
        (from_exprsCallsAt (n + 1) rest)

/-- The calls of listed statements have different addresses, since each statement has its own
position. -/
theorem distinct_stmtsCallsAt (n : Nat) : ∀ stmts : List Stmt, (stmtsCallsAt n stmts).Distinct
  | [] => List.nodup_nil
  | stmt :: rest =>
      stmt.distinct_callsAt.append (distinct_stmtsCallsAt (n + 1) rest)
        (from_stmtsCallsAt (n + 1) rest)

end

/-! ## What a statement evaluates directly -/

mutual

/-- The calls outside of lambdas and the outermost lambdas of an expression, as they are written. -/
def Expr.ownAt : Expr → Occurrences (Call ⊕ Lambda)
  | .literal .. | .name .. => []
  | .lambda lambda => [([], .inr lambda)]
  | .call call => ([], .inl call) :: call.ownAt
  | .unary _ operand _ => operand.ownAt.under [0]
  | .binary _ lhs rhs _ => lhs.ownAt.under [0] ++ rhs.ownAt.under [1]
  | .assign target value _ => target.ownAt.under [0] ++ value.ownAt.under [1]

/-- Those in the arguments of a call. -/
def Call.ownAt : Call → Occurrences (Call ⊕ Lambda)
  | ⟨_, _, args, _⟩ => exprsOwnAt 0 args

/-- Those of expressions in sequence, the first of which is at that position. -/
def exprsOwnAt (n : Nat) : List Expr → Occurrences (Call ⊕ Lambda)
  | [] => []
  | expr :: rest => expr.ownAt.under [n] ++ exprsOwnAt (n + 1) rest

end

namespace Occurrences

/-- The calls among calls and lambdas. -/
def ofCalls (parts : Occurrences (Call ⊕ Lambda)) : Occurrences Call :=
  parts.filterMap fun (address, part) => part.getLeft?.map (address, ·)

/-- The lambdas among calls and lambdas. -/
def ofLambdas (parts : Occurrences (Call ⊕ Lambda)) : Occurrences Lambda :=
  parts.filterMap fun (address, part) => part.getRight?.map (address, ·)

/-- The calls in some lambdas. -/
def lambdaCalls (lambdas : Occurrences Lambda) : Occurrences Call :=
  lambdas.flatMap fun (address, lambda) => lambda.callsAt.under address

/-- All calls that there are in calls and lambdas: the calls themselves, and those in the bodies of
the lambdas. -/
def entered (parts : Occurrences (Call ⊕ Lambda)) : Occurrences Call :=
  parts.flatMap fun (address, part) =>
    under (part.elim (fun call => [([], call)]) Lambda.callsAt) address

variable (first second parts : Occurrences (Call ⊕ Lambda)) (path : List Nat)

/-- To enter parts is to enter one after the other: a call is itself, a lambda its calls. -/
theorem entered_cons (address : List Nat) (part : Call ⊕ Lambda) :
    entered ((address, part) :: parts) =
      under (part.elim (fun call => [([], call)]) Lambda.callsAt) address ++ parts.entered := rfl

/-- Parts that are listed together are entered one after the other. -/
theorem entered_append : entered (first ++ second) = first.entered ++ second.entered :=
  List.flatMap_append

/-- It makes no difference whether parts are entered before or after they lead down. -/
theorem entered_under : (parts.under path).entered = parts.entered.under path :=
  (under_flatMap parts path _).symm

/-- The calls among listed parts are those of each list. -/
theorem ofCalls_append : ofCalls (first ++ second) = first.ofCalls ++ second.ofCalls :=
  List.filterMap_append

/-- The lambdas among listed parts are those of each list. -/
theorem ofLambdas_append : ofLambdas (first ++ second) = first.ofLambdas ++ second.ofLambdas :=
  List.filterMap_append

/-- A way down does not change which calls there are. -/
theorem map_snd_ofCalls_under :
    (parts.under path).ofCalls.map Prod.snd = parts.ofCalls.map Prod.snd := by
  simp [ofCalls, under, List.map_filterMap, List.filterMap_map, Function.comp_def]

/-- A way down does not change which lambdas there are. -/
theorem map_snd_ofLambdas_under :
    (parts.under path).ofLambdas.map Prod.snd = parts.ofLambdas.map Prod.snd := by
  simp [ofLambdas, under, List.map_filterMap, List.filterMap_map, Function.comp_def]

/-- Calls and the calls in lambdas are all calls, in another order. -/
theorem entered_perm :
    parts.entered.Perm
      (parts.ofCalls ++ parts.ofLambdas.lambdaCalls) := by
  induction parts with
  | nil => exact .refl _
  | cons first rest ih =>
    obtain ⟨address, call | lambda⟩ := first
    · rw [entered_cons, Sum.elim_inl, under_cons, List.append_nil]
      exact ih.cons (address, call)
    · rw [entered_cons, Sum.elim_inr]
      exact (ih.append_left _).trans (List.perm_append_comm_assoc _ (ofCalls rest) _)

end Occurrences

mutual

/-- The calls of an expression are found in what it has of its own. -/
theorem Expr.entered_ownAt : ∀ expr : Expr, expr.ownAt.entered = expr.callsAt
  | .literal .. => rfl
  | .name .. => rfl
  | .lambda lambda => by
      rw [Expr.ownAt, entered_cons, under_here]
      exact List.append_nil _
  | .call ⟨_, _, args, _⟩ => by
      rw [Expr.ownAt, entered_cons, Call.ownAt, entered_exprsOwnAt 0 args]
      rfl
  | .unary _ operand _ => by rw [Expr.ownAt, entered_under, operand.entered_ownAt, Expr.callsAt]
  | .binary _ lhs rhs _ => by
      rw [Expr.ownAt, entered_append, entered_under, entered_under, lhs.entered_ownAt,
        rhs.entered_ownAt, Expr.callsAt]
  | .assign target value _ => by
      rw [Expr.ownAt, entered_append, entered_under, entered_under, target.entered_ownAt,
        value.entered_ownAt, Expr.callsAt]

/-- Entered, what listed expressions evaluate directly is all their calls. -/
theorem entered_exprsOwnAt (n : Nat) :
    ∀ exprs : List Expr, (exprsOwnAt n exprs).entered = exprsCallsAt n exprs
  | [] => rfl
  | expr :: rest => by
      rw [exprsOwnAt, entered_append, entered_under, expr.entered_ownAt,
        entered_exprsOwnAt (n + 1) rest, exprsCallsAt]

end

mutual

/-- The calls that an expression has of its own are those that a walk takes one by one. -/
theorem Expr.map_snd_ofCalls_ownAt :
    ∀ expr : Expr, expr.ownAt.ofCalls.map Prod.snd = expr.calls
  | .literal .. => rfl
  | .name .. => rfl
  | .lambda _ => rfl
  | .call ⟨callee, typeArgs, args, span⟩ =>
      congrArg (Call.mk callee typeArgs args span :: ·) (map_snd_ofCalls_exprsOwnAt 0 args)
  | .unary _ operand _ => by
      rw [Expr.ownAt, map_snd_ofCalls_under, operand.map_snd_ofCalls_ownAt, Expr.calls]
  | .binary _ lhs rhs _ => by
      rw [Expr.ownAt, ofCalls_append, List.map_append, map_snd_ofCalls_under,
        map_snd_ofCalls_under, lhs.map_snd_ofCalls_ownAt, rhs.map_snd_ofCalls_ownAt, Expr.calls]
  | .assign target value _ => by
      rw [Expr.ownAt, ofCalls_append, List.map_append, map_snd_ofCalls_under,
        map_snd_ofCalls_under, target.map_snd_ofCalls_ownAt, value.map_snd_ofCalls_ownAt,
        Expr.calls]

/-- The calls that listed expressions evaluate directly are those that an expansion finds. -/
theorem map_snd_ofCalls_exprsOwnAt (n : Nat) :
    ∀ exprs : List Expr, (exprsOwnAt n exprs).ofCalls.map Prod.snd = exprsCalls exprs
  | [] => rfl
  | expr :: rest => by
      rw [exprsOwnAt, ofCalls_append, List.map_append, map_snd_ofCalls_under,
        expr.map_snd_ofCalls_ownAt, map_snd_ofCalls_exprsOwnAt (n + 1) rest, exprsCalls]

end

mutual

/-- The lambdas that an expression has of its own are those that a walk takes one by one. -/
theorem Expr.map_snd_ofLambdas_ownAt :
    ∀ expr : Expr, expr.ownAt.ofLambdas.map Prod.snd = expr.lambdas
  | .literal .. => rfl
  | .name .. => rfl
  | .lambda _ => rfl
  | .call ⟨_, _, args, _⟩ => map_snd_ofLambdas_exprsOwnAt 0 args
  | .unary _ operand _ => by
      rw [Expr.ownAt, map_snd_ofLambdas_under, operand.map_snd_ofLambdas_ownAt, Expr.lambdas]
  | .binary _ lhs rhs _ => by
      rw [Expr.ownAt, ofLambdas_append, List.map_append, map_snd_ofLambdas_under,
        map_snd_ofLambdas_under, lhs.map_snd_ofLambdas_ownAt, rhs.map_snd_ofLambdas_ownAt,
        Expr.lambdas]
  | .assign target value _ => by
      rw [Expr.ownAt, ofLambdas_append, List.map_append, map_snd_ofLambdas_under,
        map_snd_ofLambdas_under, target.map_snd_ofLambdas_ownAt, value.map_snd_ofLambdas_ownAt,
        Expr.lambdas]

/-- The lambdas of listed expressions are those that an expansion walks. -/
theorem map_snd_ofLambdas_exprsOwnAt (n : Nat) :
    ∀ exprs : List Expr, (exprsOwnAt n exprs).ofLambdas.map Prod.snd = exprsLambdas exprs
  | [] => rfl
  | expr :: rest => by
      rw [exprsOwnAt, ofLambdas_append, List.map_append, map_snd_ofLambdas_under,
        expr.map_snd_ofLambdas_ownAt, map_snd_ofLambdas_exprsOwnAt (n + 1) rest, exprsLambdas]

end

namespace Stmt

/-- The calls outside of lambdas and the outermost lambdas of the expression that a statement
evaluates directly. -/
def ownAt (stmt : Stmt) : Occurrences (Call ⊕ Lambda) :=
  match stmt.ownExpr? with
  | some e => e.ownAt.under [0]
  | none => []

/-- The own calls of a statement with their addresses. -/
def ownCallsAt (stmt : Stmt) : Occurrences Call :=
  stmt.ownAt.ofCalls

/-- The own lambdas of a statement with their addresses. -/
def ownLambdasAt (stmt : Stmt) : Occurrences Lambda :=
  stmt.ownAt.ofLambdas

/-- The own calls of a statement with their addresses are its own calls, in the same order. -/
theorem map_snd_ownCallsAt (stmt : Stmt) : stmt.ownCallsAt.map Prod.snd = stmt.ownCalls := by
  unfold ownCallsAt ownAt ownCalls
  cases stmt.ownExpr? with
  | none => rfl
  | some e => exact (map_snd_ofCalls_under _ _).trans e.map_snd_ofCalls_ownAt

/-- The lambdas of a statement with their addresses are its lambdas, in the same order. -/
theorem map_snd_ownLambdasAt (stmt : Stmt) :
    stmt.ownLambdasAt.map Prod.snd = stmt.ownLambdas := by
  unfold ownLambdasAt ownAt ownLambdas
  cases stmt.ownExpr? with
  | none => rfl
  | some e => exact (map_snd_ofLambdas_under _ _).trans e.map_snd_ofLambdas_ownAt

end Stmt

/-! ## What slots show -/

/-- The statements of a block with their addresses. -/
def Block.statementsAt (block : Block) : Occurrences Stmt :=
  block.statements.zipIdx.map fun (stmt, n) => ([n], stmt)

/-- The statements that a branch or loop body shows. One that is no block shows itself. -/
def Stmt.bodyAt : Stmt → Occurrences Stmt
  | .block body => body.statementsAt
  | bare => [([], bare)]

/-- The statements that the body of a lambda shows. An expression shows itself as a statement. -/
def Lambda.bodyAt : Lambda → Occurrences Stmt
  | ⟨_, .block block, _⟩ => block.statementsAt
  | ⟨_, .expr expr, _⟩ => [([], .ofExpr expr)]

/-- The statements that a slot shows, with their addresses in the statement that has the slot. -/
def Slot.showsAt (slot : Slot) (stmt : Stmt) : Occurrences Stmt :=
  match slot, stmt with
  | block, .block body => body.statementsAt
  | thenBranch, .branch _ body _ _ => body.bodyAt.under [1]
  | elseBranch, .branch _ _ (some body) _ => body.bodyAt.under [2]
  | loop, .loop _ body _ => body.bodyAt.under [1]
  | lambda n, stmt =>
      (stmt.ownLambdasAt[n]?).elim [] fun (address, body) => body.bodyAt.under address
  | _, _ => []

/-- The statements that the slots of a statement show, in the order in which they are walked. -/
def Stmt.nestedAt (stmt : Stmt) : Occurrences Stmt :=
  (Slot.all stmt).flatMap (·.showsAt stmt)

/-- The statements of a block with their addresses are its statements, in the same order. -/
theorem Block.map_snd_statementsAt (block : Block) :
    block.statementsAt.map Prod.snd = block.statements := by
  simp [statementsAt, Function.comp_def]

/-- A branch or loop body shows the statements of the block that it is walked as. -/
theorem Stmt.map_snd_bodyAt (stmt : Stmt) :
    stmt.bodyAt.map Prod.snd = stmt.asBody.statements := by
  cases stmt with
  | block body => exact body.map_snd_statementsAt
  | _ => rfl

/-- The body of a lambda shows the statements of the block that it is walked as. -/
theorem Lambda.map_snd_bodyAt (lambda : Lambda) :
    lambda.bodyAt.map Prod.snd = lambda.asBody.statements := by
  obtain ⟨params, body, span⟩ := lambda
  cases body with
  | expr expr => rfl
  | block block => exact block.map_snd_statementsAt

/-- A slot of a statement shows the statements of its content. -/
theorem Slot.map_snd_showsAt {slot : Slot} {stmt : Stmt} {content : Block}
    (h : slot.content? stmt = some content) :
    (slot.showsAt stmt).map Prod.snd = content.statements := by
  cases hasContent_of_content? h with
  | block => exact content.map_snd_statementsAt
  | thenBranch _ body => exact (map_snd_under _ _).trans body.map_snd_bodyAt
  | elseBranch _ _ body => exact (map_snd_under _ _).trans body.map_snd_bodyAt
  | loop _ body => exact (map_snd_under _ _).trans body.map_snd_bodyAt
  | @lambda _ n lambda hlambda =>
    rw [← stmt.map_snd_ownLambdasAt, List.getElem?_map] at hlambda
    obtain ⟨⟨address, lambda⟩, hat, rfl⟩ := Option.map_eq_some_iff.mp hlambda
    rw [showsAt, hat]
    exact (map_snd_under _ _).trans lambda.map_snd_bodyAt

/-- The statements that the slots of a statement show are those of their contents. -/
theorem Stmt.map_snd_nestedAt (stmt : Stmt) :
    stmt.nestedAt.map Prod.snd =
      (Slot.all stmt).flatMap fun slot => ((slot.content? stmt).map Block.statements).getD [] := by
  rw [nestedAt, List.map_flatMap]
  refine List.flatMap_congr fun slot hslot => ?_
  obtain ⟨content, hcontent⟩ := Option.isSome_iff_exists.mp (Slot.mem_all_iff.mp hslot)
  rw [Slot.map_snd_showsAt hcontent, hcontent]
  rfl

/-- What a slot shows is less high than the statement that has the slot. -/
theorem Stmt.height_lt_of_mem_nestedAt {stmt inner : Stmt} {path : List Nat}
    (h : (path, inner) ∈ stmt.nestedAt) : inner.height < stmt.height := by
  obtain ⟨slot, hslot, hshows⟩ := List.mem_flatMap.mp h
  obtain ⟨content, hcontent⟩ := Option.isSome_iff_exists.mp (Slot.mem_all_iff.mp hslot)
  have hmem : inner ∈ content.statements :=
    Slot.map_snd_showsAt hcontent ▸ List.mem_map_of_mem hshows
  exact Nat.lt_of_le_of_lt (height_le_stmtsHeight hmem) (Slot.height_content_lt hcontent)

/-- The calls in some statements. -/
def Occurrences.calls (stmts : Occurrences Stmt) : Occurrences Call :=
  stmts.flatMap fun (address, stmt) => stmt.callsAt.under address

/-- The calls of listed statements are those of each list. -/
theorem Occurrences.calls_append (first second : Occurrences Stmt) :
    calls (first ++ second) = calls first ++ calls second :=
  List.flatMap_append

/-- Calls of statements that lead down are their calls, which lead down as far. -/
theorem Occurrences.calls_under (stmts : Occurrences Stmt) (path : List Nat) :
    calls (stmts.under path) = (calls stmts).under path :=
  (under_flatMap stmts path Stmt.callsAt).symm

/-- The calls of a block are those of its statements. -/
theorem Block.calls_statementsAt (block : Block) : calls block.statementsAt = block.callsAt := by
  obtain ⟨statements, span⟩ := block
  -- the positions of a rest of the sequence begin where the sequence was cut
  suffices h : ∀ n, calls ((statements.zipIdx n).map fun (stmt, m) => ([m], stmt)) =
      stmtsCallsAt n statements from h 0
  induction statements with
  | nil => exact fun _ => rfl
  | cons stmt rest ih => exact fun n => congrArg (stmt.callsAt.under [n] ++ ·) (ih (n + 1))

/-- The calls of the statements that a branch or loop body shows are the calls of the body. -/
theorem Stmt.calls_bodyAt (stmt : Stmt) : calls stmt.bodyAt = stmt.callsAt := by
  cases stmt with
  | block body => exact body.calls_statementsAt
  | _ => exact (List.append_nil _).trans (under_here _)

/-- The calls of the statements that the body of a lambda shows are the calls of the lambda. -/
theorem Lambda.calls_bodyAt (lambda : Lambda) : calls lambda.bodyAt = lambda.callsAt := by
  obtain ⟨params, body, span⟩ := lambda
  cases body with
  | expr expr => exact (List.append_nil _).trans (under_here _)
  | block block => exact block.calls_statementsAt

/-- Going through the positions of a list is going through the list. -/
theorem flatMap_range_getElem? {α β : Type} (xs : List α) (f : α → List β) :
    ((List.range xs.length).flatMap fun n => (xs[n]?).elim [] f) = xs.flatMap f := by
  induction xs with
  | nil => rfl
  | cons x xs ih =>
    rw [List.length_cons, List.range_succ_eq_map, List.flatMap_cons, List.flatMap_map,
      List.flatMap_cons]
    exact congrArg (f x ++ ·) ih

/-- The lambda slots of a statement show the bodies of its own lambdas. -/
theorem Stmt.calls_lambdas (stmt : Stmt) :
    calls (((List.range stmt.ownLambdas.length).map Slot.lambda).flatMap (·.showsAt stmt)) =
      stmt.ownLambdasAt.lambdaCalls := by
  rw [← stmt.map_snd_ownLambdasAt, List.length_map, List.flatMap_map]
  refine (congrArg calls (flatMap_range_getElem? _ _)).trans ?_
  rw [calls, List.flatMap_assoc]
  refine List.flatMap_congr fun (address, lambda) _ => ?_
  exact (calls_under _ address).trans (congrArg (under · address) lambda.calls_bodyAt)

/-- The slots of a statement that are no lambdas. -/
def Slot.bodies : Stmt → List Slot
  | .block _ => [block]
  | .branch _ _ (some _) _ => [thenBranch, elseBranch]
  | .branch _ _ none _ => [thenBranch]
  | .loop .. => [loop]
  | .empty _ | .expr .. | .localVar .. | .ret .. => []

/-- The slots that are no lambdas come first. -/
theorem Slot.all_eq (stmt : Stmt) :
    all stmt = bodies stmt ++ (List.range stmt.ownLambdas.length).map lambda := by
  cases stmt with
  | branch _ _ orElse _ => cases orElse <;> rfl
  | _ => rfl

/-- What a statement has of its own are the calls in the expression that it evaluates. -/
theorem Stmt.entered_ownAt (stmt : Stmt) :
    stmt.ownAt.entered = stmt.ownExpr?.elim [] fun e => e.callsAt.under [0] := by
  unfold ownAt
  cases stmt.ownExpr? with
  | none => rfl
  | some e => exact (entered_under _ _).trans (congrArg (under · [0]) e.entered_ownAt)

/-- The calls of a statement are those in its expression and those in its block, in its branches or
in the body of the loop. -/
theorem Stmt.callsAt_eq (stmt : Stmt) :
    stmt.callsAt =
      stmt.ownAt.entered ++ calls ((Slot.bodies stmt).flatMap (·.showsAt stmt)) := by
  -- calls of a nested statement are counted from the body that it is walked as
  have hbody : ∀ (body : Stmt) (n : Nat), calls (body.bodyAt.under [n]) = body.callsAt.under [n] :=
    fun body n => (calls_under _ _).trans (congrArg (under · [n]) body.calls_bodyAt)
  rw [entered_ownAt]
  cases stmt with
  | empty => rfl
  | expr e => exact (List.append_nil _).symm
  | localVar _ _ init =>
    cases init with
    | none => rfl
    | some e => exact (List.append_nil _).symm
  | ret value =>
    cases value with
    | none => rfl
    | some e => exact (List.append_nil _).symm
  | block body =>
    rw [Slot.bodies, List.flatMap_singleton, Slot.showsAt, body.calls_statementsAt]
    rfl
  | loop condition body =>
    rw [Slot.bodies, List.flatMap_singleton, Slot.showsAt, hbody]
    rfl
  | branch condition thenBranch orElse =>
    cases orElse with
    | none =>
      rw [Slot.bodies, List.flatMap_singleton, Slot.showsAt, hbody]
      rfl
    | some elseBranch =>
      rw [Slot.bodies, List.flatMap_cons, List.flatMap_singleton, Slot.showsAt, Slot.showsAt,
        calls_append, hbody, hbody]
      rfl

/-- The calls in what the slots of a statement show are those in its block, in its branches or in the
body of the loop, and those in the bodies of its own lambdas. -/
theorem Stmt.calls_nestedAt (stmt : Stmt) :
    calls stmt.nestedAt =
      calls ((Slot.bodies stmt).flatMap (·.showsAt stmt)) ++ stmt.ownLambdasAt.lambdaCalls := by
  rw [nestedAt, Slot.all_eq, List.flatMap_append, calls_append, calls_lambdas]

/-- The calls of a statement are its own ones, those in the bodies of its own lambdas, and those in
its block, in its branches or in the body of the loop. -/
theorem Stmt.callsAt_perm (stmt : Stmt) :
    stmt.callsAt.Perm
      (stmt.ownCallsAt ++ stmt.ownLambdasAt.lambdaCalls ++
        calls ((Slot.bodies stmt).flatMap (·.showsAt stmt))) := by
  rw [callsAt_eq]
  exact (entered_perm _).append_right _

/-! ## Every call once -/

/-- The statements that are visited in a walk of a statement, in the order in which they are: the
statement, and those that are visited in a walk of what its slots show, slot by slot. -/
def Stmt.visits (stmt : Stmt) : Occurrences Stmt :=
  ([], stmt) :: stmt.nestedAt.attach.flatMap fun ⟨(address, inner), _⟩ =>
    inner.visits.under address
termination_by stmt.height
decreasing_by exact height_lt_of_mem_nestedAt ‹_›

/-- A visit of a statement comes to the statement itself, and then to what is nested in it, in
order. -/
theorem Stmt.visits_eq (stmt : Stmt) :
    stmt.visits = ([], stmt) :: stmt.nestedAt.flatMap fun (address, inner) =>
      inner.visits.under address := by
  have hall : ∀ f : List Nat × Stmt → Occurrences Stmt,
      (stmt.nestedAt.attach.flatMap fun nested => f nested.val) = stmt.nestedAt.flatMap f := by
    intro f
    rw [← List.flatMap_map, List.attach_map_subtype_val]
  rw [visits, ← hall]

/-- The own calls of some statements. -/
def Occurrences.ownCalls (stmts : Occurrences Stmt) : Occurrences Call :=
  stmts.flatMap fun (address, stmt) => stmt.ownCallsAt.under address

/-- Own calls of statements that lead down are their own calls, which lead down as far. -/
theorem Occurrences.ownCalls_under (stmts : Occurrences Stmt) (path : List Nat) :
    ownCalls (stmts.under path) = (ownCalls stmts).under path :=
  (under_flatMap stmts path Stmt.ownCallsAt).symm

/-- The calls of a statement are the own calls of the statements that are visited in its walk. -/
theorem Stmt.callsAt_perm_visits (stmt : Stmt) : stmt.callsAt.Perm stmt.visits.ownCalls := by
  -- what slots show is less high than the statement
  induction h : stmt.height using Nat.strongRecOn generalizing stmt with
  | ind height ih =>
    have hvisits : stmt.visits.ownCalls = stmt.ownCallsAt ++
        stmt.nestedAt.flatMap fun (address, inner) => inner.visits.ownCalls.under address := by
      rw [visits_eq, Occurrences.ownCalls, List.flatMap_cons, List.flatMap_assoc]
      exact congrArg₂ _ (under_here _)
        (List.flatMap_congr fun (address, inner) _ => ownCalls_under inner.visits _)
    have hnested : (calls stmt.nestedAt).Perm
        (stmt.nestedAt.flatMap fun (address, inner) => inner.visits.ownCalls.under address) := by
      refine List.Perm.flatMap_left _ fun (address, inner) hmem => ?_
      exact (ih inner.height (h ▸ height_lt_of_mem_nestedAt hmem) inner rfl).map _
    have hparts : stmt.callsAt.Perm (stmt.ownCallsAt ++ calls stmt.nestedAt) := by
      rw [calls_nestedAt]
      refine stmt.callsAt_perm.trans ?_
      rw [List.append_assoc]
      exact List.perm_append_comm.append_left _
    rw [hvisits]
    exact hparts.trans (hnested.append_left _)

/-- A call of a statement is an own call of one visited statement only. -/
theorem Stmt.visit_unique {stmt : Stmt} {path : List Nat} {call : Call}
    {visit other : List Nat × Stmt} (hvisit : visit ∈ stmt.visits) (hother : other ∈ stmt.visits)
    (h₁ : (path, call) ∈ visit.2.ownCallsAt.under visit.1)
    (h₂ : (path, call) ∈ other.2.ownCallsAt.under other.1) : visit = other := by
  have hnodup : stmt.visits.ownCalls.Nodup :=
    stmt.callsAt_perm_visits.nodup_iff.mp (List.Nodup.of_map _ stmt.distinct_callsAt)
  by_contra hne
  have : Std.Symm (Function.onFun List.Disjoint fun (visit : List Nat × Stmt) =>
      visit.2.ownCallsAt.under visit.1) := ⟨fun _ _ h _ hl hr => h hr hl⟩
  exact (List.nodup_flatMap.mp hnodup).2.forall hvisit hother hne h₁ h₂

/-- Every call of a statement is found once when the statement is walked. No two calls have one
address. At a statement they are parted: the own calls, as they are taken one by one, the calls in
the bodies of the own lambdas, and those in the block, the branches or the loop body. The slots show
them all, as their contents hold them. So a walk that visits a statement and then, slot by slot, what
its slots show finds every call at one of the visited statements, and nothing else. Changing an own
lambda leaves the order of the own lambdas as it is. -/
theorem calls_are_walked_once (stmt : Stmt) :
    stmt.callsAt.Distinct ∧
      (stmt.callsAt.Perm
          (stmt.ownCallsAt ++ stmt.ownLambdasAt.lambdaCalls ++
            calls ((Slot.bodies stmt).flatMap (·.showsAt stmt))) ∧
        stmt.ownCallsAt.map Prod.snd = stmt.ownCalls ∧
        stmt.ownLambdasAt.map Prod.snd = stmt.ownLambdas ∧
        stmt.nestedAt.map Prod.snd =
          (Slot.all stmt).flatMap fun slot =>
            ((slot.content? stmt).map Block.statements).getD []) ∧
      (stmt.callsAt.Perm stmt.visits.ownCalls ∧
        ∀ path call, (path, call) ∈ stmt.callsAt →
          ∃! visit, visit ∈ stmt.visits ∧ (path, call) ∈ visit.2.ownCallsAt.under visit.1) ∧
      ∀ n f, (stmt.modifyOwnLambda n f).ownLambdas = stmt.ownLambdas.modify n f := by
  refine ⟨stmt.distinct_callsAt,
    ⟨stmt.callsAt_perm, stmt.map_snd_ownCallsAt, stmt.map_snd_ownLambdasAt, stmt.map_snd_nestedAt⟩,
    ⟨stmt.callsAt_perm_visits, fun path call hcall => ?_⟩, stmt.ownLambdas_modifyOwnLambda⟩
  obtain ⟨visit, hvisit, hmem⟩ := List.mem_flatMap.mp (stmt.callsAt_perm_visits.mem_iff.mp hcall)
  exact ⟨visit, ⟨hvisit, hmem⟩, fun other hother =>
    Stmt.visit_unique hother.1 hvisit hother.2 hmem⟩

end MacroExpansion
