import MacroExpansion.Proofs.OwnCode
import MacroExpansion.Walk.Scope

/-! # Nested statements

The statements nested in a statement are those in its slots: in the block that it is, in its
branches, its loop body and the bodies of its own lambdas. Filling a slot changes what is in it and
nothing else. `Stmt.Contains` says which statements stand anywhere in a statement, and
`Stmt.AllCalls` that the calls of all of them have some property. -/

namespace MacroExpansion

/-! ## What stands in a statement -/

/-- A statement stands somewhere in another one. The body of a lambda that evaluates an expression
counts as an expression statement. -/
inductive Stmt.Contains : Stmt → Stmt → Prop where
  /-- In itself. -/
  | self (stmt : Stmt) : Contains stmt stmt
  /-- In the block that the statement is. -/
  | block {body : Block} {inner stmt : Stmt} (hmem : inner ∈ body.statements)
      (h : Contains inner stmt) : Contains (.block body) stmt
  /-- In the first branch. -/
  | thenBranch {condition : Expr} {body : Stmt} {orElse : Option Stmt} {span : Span} {stmt : Stmt}
      (h : Contains body stmt) : Contains (.branch condition body orElse span) stmt
  /-- In the second branch. -/
  | elseBranch {condition : Expr} {thenBranch body : Stmt} {span : Span} {stmt : Stmt}
      (h : Contains body stmt) : Contains (.branch condition thenBranch (some body) span) stmt
  /-- In the body of the loop. -/
  | loop {condition : Expr} {body : Stmt} {span : Span} {stmt : Stmt} (h : Contains body stmt) :
      Contains (.loop condition body span) stmt
  /-- In the body of an own lambda. -/
  | lambda {outer : Stmt} {lambda : Lambda} {inner stmt : Stmt} (hlambda : lambda ∈ outer.ownLambdas)
      (hmem : inner ∈ lambda.asBody.statements) (h : Contains inner stmt) : Contains outer stmt

/-- All calls of the statements in a statement have a property. -/
def Stmt.AllCalls (Q : Call → Prop) (outer : Stmt) : Prop :=
  ∀ stmt, outer.Contains stmt → ∀ call ∈ stmt.ownCalls, Q call

namespace Slot

/-- The statements that stand right in a slot. A branch or loop body stands there as it is. -/
def holds (slot : Slot) (stmt : Stmt) : List Stmt :=
  match slot, stmt with
  | block, .block b => b.statements
  | thenBranch, .branch _ body _ _ => [body]
  | elseBranch, .branch _ _ (some body) _ => [body]
  | loop, .loop _ body _ => [body]
  | lambda n, stmt => (stmt.ownLambdas[n]?).elim [] (·.asBody.statements)
  | _, _ => []

/-- The kinds of slots, each with the statements that have it and what it shows in them. -/
inductive HasContent : Slot → Stmt → Block → Prop where
  /-- A block shows itself. -/
  | block (body : Block) : HasContent .block (.block body) body
  /-- The first branch of a conditional. -/
  | thenBranch (condition : Expr) (body : Stmt) (orElse : Option Stmt) (span : Span) :
      HasContent .thenBranch (.branch condition body orElse span) body.asBody
  /-- The second branch of a conditional that has one. -/
  | elseBranch (condition : Expr) (thenBranch body : Stmt) (span : Span) :
      HasContent .elseBranch (.branch condition thenBranch (some body) span) body.asBody
  /-- The body of a loop. -/
  | loop (condition : Expr) (body : Stmt) (span : Span) :
      HasContent .loop (.loop condition body span) body.asBody
  /-- The body of an own lambda. -/
  | lambda {stmt : Stmt} {n : Nat} {lambda : Lambda} (h : stmt.ownLambdas[n]? = some lambda) :
      HasContent (.lambda n) stmt lambda.asBody

/-- What a slot shows, it shows as a slot of its kind. -/
theorem hasContent_of_content? {slot : Slot} {stmt : Stmt} {content : Block}
    (h : slot.content? stmt = some content) : slot.HasContent stmt content := by
  cases slot with
  | lambda n =>
    obtain ⟨lambda, hlambda, rfl⟩ := Option.map_eq_some_iff.mp h
    exact .lambda hlambda
  | block =>
    cases stmt with
    | block body =>
      cases h
      exact .block _
    | _ => cases h
  | loop =>
    cases stmt with
    | loop condition body span =>
      cases h
      exact .loop condition body span
    | _ => cases h
  | thenBranch =>
    cases stmt with
    | branch condition body orElse span =>
      cases h
      exact .thenBranch condition body orElse span
    | _ => cases h
  | elseBranch =>
    cases stmt with
    | branch condition thenBranch orElse span =>
      cases orElse with
      | none => cases h
      | some body =>
        cases h
        exact .elseBranch condition thenBranch body span
    | _ => cases h

/-- A statement has a slot for each of its lambdas. -/
theorem mem_all_lambda {stmt : Stmt} {n : Nat} :
    lambda n ∈ all stmt ↔ n < stmt.ownLambdas.length := by
  have hlambda : lambda n ∈ (List.range stmt.ownLambdas.length).map lambda ↔
      n < stmt.ownLambdas.length := by simp
  unfold all
  rw [List.mem_append, hlambda]
  refine or_iff_right fun h => ?_
  split at h <;> simp at h

/-- Every slot of a statement has a content, and only they do. -/
theorem mem_all_iff {slot : Slot} {stmt : Stmt} :
    slot ∈ all stmt ↔ (slot.content? stmt).isSome := by
  cases slot with
  | lambda n => simp [mem_all_lambda, content?]
  | _ =>
    cases stmt with
    | branch condition body orElse span => cases orElse <;> simp [all, content?]
    | _ => simp [all, content?]

/-- Every slot of a statement is of one of the kinds. -/
theorem hasContent_of_mem_all {slot : Slot} {stmt : Stmt} (h : slot ∈ all stmt) :
    ∃ content, slot.HasContent stmt content := by
  obtain ⟨content, hcontent⟩ := Option.isSome_iff_exists.mp (mem_all_iff.mp h)
  exact ⟨content, hasContent_of_content? hcontent⟩

/-- A slot without content holds nothing. -/
theorem holds_eq_nil {slot : Slot} {stmt : Stmt} (h : slot.content? stmt = none) :
    slot.holds stmt = [] := by
  cases slot with
  | lambda n =>
    have hnone : stmt.ownLambdas[n]? = none := Option.map_eq_none_iff.mp h
    rw [holds, hnone, Option.elim_none]
  | _ =>
    cases stmt with
    | branch condition body orElse span => cases orElse <;> simp_all [holds, content?]
    | _ => simp_all [holds, content?]

/-- No slot is walked twice. -/
theorem nodup_all (stmt : Stmt) : (all stmt).Nodup := by
  have hlambdas : ((List.range stmt.ownLambdas.length).map lambda).Nodup :=
    List.pairwise_map.mpr (List.nodup_range.imp fun hne h => hne (Slot.lambda.inj h))
  cases stmt with
  | branch condition body orElse span =>
    cases orElse <;> simp [all, hlambdas]
  | _ => simp [all, hlambdas]

end Slot

/-- A statement stands in another one when it is that one or stands in what a slot of it holds. -/
theorem Stmt.contains_iff {outer stmt : Stmt} :
    outer.Contains stmt ↔
      stmt = outer ∨ ∃ slot ∈ Slot.all outer, ∃ inner ∈ slot.holds outer, inner.Contains stmt := by
  constructor
  · intro h
    -- each way to stand in a statement but the first is a slot
    cases h with
    | self => exact .inl rfl
    | block hmem h => exact .inr ⟨.block, Slot.mem_all_iff.mpr rfl, _, hmem, h⟩
    | thenBranch h => exact .inr ⟨.thenBranch, Slot.mem_all_iff.mpr rfl, _, List.mem_singleton_self _, h⟩
    | elseBranch h => exact .inr ⟨.elseBranch, Slot.mem_all_iff.mpr rfl, _, List.mem_singleton_self _, h⟩
    | loop h => exact .inr ⟨.loop, Slot.mem_all_iff.mpr rfl, _, List.mem_singleton_self _, h⟩
    | lambda hlambda hmem h =>
      obtain ⟨n, hn⟩ := List.mem_iff_getElem?.mp hlambda
      refine .inr ⟨.lambda n, Slot.mem_all_iff.mpr ?_, _, ?_, h⟩
      · rw [Slot.content?, hn]
        rfl
      · rw [Slot.holds, hn]
        exact hmem
  · rintro (rfl | ⟨slot, hslot, inner, hmem, h⟩)
    · exact .self _
    · obtain ⟨content, hcontent⟩ := Slot.hasContent_of_mem_all hslot
      cases hcontent with
      | block body => exact .block hmem h
      | thenBranch => exact .thenBranch (List.mem_singleton.mp hmem ▸ h)
      | elseBranch => exact .elseBranch (List.mem_singleton.mp hmem ▸ h)
      | loop => exact .loop (List.mem_singleton.mp hmem ▸ h)
      | lambda hlambda =>
        rw [Slot.holds, hlambda, Option.elim_some] at hmem
        exact .lambda (List.mem_of_getElem? hlambda) hmem h

/-- All calls in a statement are its own ones and those in what its slots hold. -/
theorem Stmt.allCalls_iff {Q : Call → Prop} {outer : Stmt} :
    outer.AllCalls Q ↔ (∀ call ∈ outer.ownCalls, Q call) ∧
      ∀ slot ∈ Slot.all outer, ∀ inner ∈ slot.holds outer, inner.AllCalls Q := by
  constructor
  · intro h
    refine ⟨h outer (.self outer), fun slot hslot inner hmem stmt hstmt => ?_⟩
    exact h stmt (contains_iff.mpr (.inr ⟨slot, hslot, inner, hmem, hstmt⟩))
  · rintro ⟨hown, hnested⟩ stmt hstmt
    rcases contains_iff.mp hstmt with rfl | ⟨slot, hslot, inner, hmem, hinner⟩
    · exact hown
    · exact hnested slot hslot inner hmem stmt hinner

/-- All calls in a block have a property when those in its statements have it. -/
theorem Stmt.allCalls_block {Q : Call → Prop} {body : Block}
    (h : ∀ stmt ∈ body.statements, stmt.AllCalls Q) : (Stmt.block body).AllCalls Q := by
  refine allCalls_iff.mpr ⟨fun call hcall => absurd hcall List.not_mem_nil, ?_⟩
  intro slot hslot inner hmem
  cases slot with
  | block => exact h inner hmem
  | lambda n => exact absurd (Slot.mem_all_lambda.mp hslot) (Nat.not_lt_zero n)
  | _ => exact absurd hmem List.not_mem_nil

/-- The place of an expression statement does not matter. -/
theorem Stmt.allCalls_ofExpr {Q : Call → Prop} {expr : Expr} {span : Span}
    (h : (Stmt.expr expr span).AllCalls Q) : (Stmt.ofExpr expr).AllCalls Q := by
  obtain ⟨hown, hnested⟩ := allCalls_iff.mp h
  refine allCalls_iff.mpr ⟨hown, fun slot hslot inner hmem => hnested slot hslot inner ?_⟩
  cases slot <;> exact hmem

/-! ## Filling a slot -/

namespace Slot

variable {slot other : Slot} {content : Block} {stmt : Stmt}

/-- Filling a slot with what it holds changes nothing. -/
theorem fill_content (h : slot.content? stmt = some content) : slot.fill content stmt = stmt := by
  cases hasContent_of_content? h with
  | block => rfl
  | thenBranch => rw [fill, Stmt.withBody_asBody]
  | elseBranch => rw [fill, Stmt.withBody_asBody]
  | loop => rw [fill, Stmt.withBody_asBody]
  | lambda hlambda =>
    refine Stmt.modifyOwnLambda_self fun other hother => ?_
    rw [hlambda] at hother
    rw [← Option.some.inj hother, Lambda.withBody_asBody]

/-- Filling a slot leaves the outlines of the own calls as they are. -/
theorem outline_ownCalls_fill (slot : Slot) (content : Block) (stmt : Stmt) :
    (slot.fill content stmt).ownCalls.map Call.outline = stmt.ownCalls.map Call.outline := by
  cases slot with
  | lambda n => exact stmt.outline_ownCalls_modifyOwnLambda n _
  | elseBranch =>
    cases stmt with
    | branch _ _ orElse _ => cases orElse <;> rfl
    | _ => rfl
  | _ => cases stmt <;> rfl

/-- Changing an own lambda leaves what is no lambda as it is. -/
theorem holds_modifyOwnLambda (h : ∀ n, other ≠ lambda n) (n : Nat) (f : Lambda → Lambda) :
    other.holds (stmt.modifyOwnLambda n f) = other.holds stmt := by
  unfold Stmt.modifyOwnLambda
  cases he : stmt.ownExpr? with
  | none => rfl
  | some e =>
    cases other with
    | lambda m => exact absurd rfl (h m)
    | _ =>
      cases stmt with
      | branch _ _ orElse _ => cases orElse <;> rfl
      | localVar _ _ init _ => cases init <;> rfl
      | ret value _ => cases value <;> rfl
      | _ => rfl

/-- Filling a slot leaves the other ones as they are. -/
theorem holds_fill_of_ne (h : other ≠ slot) (content : Block) (stmt : Stmt) :
    other.holds (slot.fill content stmt) = other.holds stmt := by
  cases slot with
  | lambda n =>
    cases other with
    | lambda m =>
      have hne : n ≠ m := fun e => h (congrArg lambda e.symm)
      simp only [holds, fill, Stmt.ownLambdas_modifyOwnLambda, List.getElem?_modify_ne _ _ hne]
    | _ => exact holds_modifyOwnLambda (by simp) n _
  | _ =>
    cases stmt with
    | branch _ _ orElse _ => cases orElse <;> cases other <;> first | rfl | exact absurd rfl h
    | _ => cases other <;> first | rfl | exact absurd rfl h

/-- Changing an own lambda leaves what is shown by no lambda as it is. -/
theorem content?_modifyOwnLambda (h : ∀ n, other ≠ lambda n) (n : Nat) (f : Lambda → Lambda) :
    other.content? (stmt.modifyOwnLambda n f) = other.content? stmt := by
  unfold Stmt.modifyOwnLambda
  cases he : stmt.ownExpr? with
  | none => rfl
  | some e =>
    cases other with
    | lambda m => exact absurd rfl (h m)
    | _ =>
      cases stmt with
      | branch _ _ orElse _ => cases orElse <;> rfl
      | localVar _ _ init _ => cases init <;> rfl
      | ret value _ => cases value <;> rfl
      | _ => rfl

/-- Filling a slot leaves what the other ones show as it is. -/
theorem content?_fill_of_ne (h : other ≠ slot) (content : Block) (stmt : Stmt) :
    other.content? (slot.fill content stmt) = other.content? stmt := by
  cases slot with
  | lambda n =>
    cases other with
    | lambda m =>
      have hne : n ≠ m := fun e => h (congrArg lambda e.symm)
      simp only [content?, fill, Stmt.ownLambdas_modifyOwnLambda, List.getElem?_modify_ne _ _ hne]
    | _ => exact content?_modifyOwnLambda (by simp) n _
  | _ =>
    cases stmt with
    | branch _ _ orElse _ => cases orElse <;> cases other <;> first | rfl | exact absurd rfl h
    | _ => cases other <;> first | rfl | exact absurd rfl h

/-- Filling a slot makes no slots and takes none away. -/
theorem all_fill (slot : Slot) (content : Block) (stmt : Stmt) :
    all (slot.fill content stmt) = all stmt := by
  cases slot with
  | lambda n =>
    have hlambdas : (stmt.modifyOwnLambda n (·.withBody content)).ownLambdas.length =
        stmt.ownLambdas.length := by
      rw [Stmt.ownLambdas_modifyOwnLambda, List.length_modify]
    -- the statement is of the same kind, and as many lambdas are found in it
    unfold fill all
    rw [hlambdas]
    unfold Stmt.modifyOwnLambda
    cases stmt with
    | branch _ _ orElse _ => cases orElse <;> rfl
    | localVar _ _ init _ => cases init <;> rfl
    | ret value _ => cases value <;> rfl
    | _ => rfl
  | _ =>
    cases stmt with
    | branch _ _ orElse _ => cases orElse <;> rfl
    | _ => rfl

/-- A branch or loop body that was filled has all its calls in what it was filled with. -/
theorem allCalls_withBody {Q : Call → Prop} {body : Stmt}
    (h : ∀ inner ∈ content.statements, inner.AllCalls Q) : (body.withBody content).AllCalls Q := by
  unfold Stmt.withBody
  split
  · exact Stmt.allCalls_block h
  · -- the body stays bare with the only statement in it
    rename_i only _ hcontent
    exact h _ (hcontent ▸ List.mem_singleton_self _)
  · exact Stmt.allCalls_block h

/-- A lambda that was filled has all its calls in what it was filled with. -/
theorem allCalls_asBody_withBody {Q : Call → Prop} {lambda : Lambda}
    (h : ∀ inner ∈ content.statements, inner.AllCalls Q) :
    ∀ inner ∈ (lambda.withBody content).asBody.statements, inner.AllCalls Q := by
  unfold Lambda.withBody
  split
  · -- the lambda evaluates an expression again, which was the only statement
    rename_i e span _ hcontent
    intro inner hmem
    rw [List.mem_singleton.mp hmem]
    exact Stmt.allCalls_ofExpr (h _ (hcontent ▸ List.mem_singleton_self _))
  · exact h

/-- A slot that was filled holds what it was filled with. -/
theorem allCalls_holds_fill {Q : Call → Prop} (hslot : slot ∈ all stmt)
    (h : ∀ inner ∈ content.statements, inner.AllCalls Q) :
    ∀ inner ∈ slot.holds (slot.fill content stmt), inner.AllCalls Q := by
  intro inner hmem
  obtain ⟨held, hheld⟩ := hasContent_of_mem_all hslot
  cases hheld with
  | block => exact h inner hmem
  | thenBranch => exact List.mem_singleton.mp hmem ▸ allCalls_withBody h
  | elseBranch => exact List.mem_singleton.mp hmem ▸ allCalls_withBody h
  | loop => exact List.mem_singleton.mp hmem ▸ allCalls_withBody h
  | lambda hlambda =>
    rw [holds, fill, Stmt.ownLambdas_modifyOwnLambda, List.getElem?_modify_eq, hlambda] at hmem
    exact allCalls_asBody_withBody h inner hmem

/-- A slot has all its calls in what it shows as its content. -/
theorem allCalls_holds {Q : Call → Prop} (hcontent : slot.content? stmt = some content)
    (h : ∀ inner ∈ content.statements, inner.AllCalls Q) :
    ∀ inner ∈ slot.holds stmt, inner.AllCalls Q := by
  have hslot : slot ∈ all stmt := mem_all_iff.mpr (hcontent ▸ rfl)
  have hfilled := allCalls_holds_fill hslot h
  rwa [fill_content hcontent] at hfilled

end Slot

/-- Whether a call has a property is told by its path. -/
def HoldsByPath (Q : Call → Prop) : Prop :=
  ∀ ⦃call call' : Call⦄, call.callee = call'.callee → Q call → Q call'

/-- A statement that was filled has all its calls in itself and in what it was filled with. -/
theorem Stmt.AllCalls.fill {Q : Call → Prop} (hQ : HoldsByPath Q) {stmt : Stmt} {slot : Slot}
    {content : Block} (h : stmt.AllCalls Q) (hslot : slot ∈ Slot.all stmt)
    (hcontent : ∀ inner ∈ content.statements, inner.AllCalls Q) :
    (slot.fill content stmt).AllCalls Q := by
  obtain ⟨hown, hnested⟩ := allCalls_iff.mp h
  refine allCalls_iff.mpr ⟨fun call hcall => ?_, fun other hother inner hinner => ?_⟩
  · -- the own calls keep their paths
    have houtline := List.mem_map_of_mem (f := Call.outline) hcall
    rw [Slot.outline_ownCalls_fill] at houtline
    obtain ⟨call', hcall', houtline⟩ := List.mem_map.mp houtline
    exact hQ (Prod.mk.inj houtline).1 (hown call' hcall')
  · rw [Slot.all_fill] at hother
    by_cases hsame : other = slot
    · subst hsame
      exact Slot.allCalls_holds_fill hslot hcontent inner hinner
    · rw [Slot.holds_fill_of_ne hsame] at hinner
      exact hnested other hother inner hinner

/-! ## The code of a file -/

/-- A body in the code of an item, with the function that it is the body of, if it is one. -/
inductive Item.HasBody : Item → Option FunctionDecl → Block → Prop where
  /-- That of a free function. -/
  | function (decl : FunctionDecl) : HasBody (.function decl) (some decl) decl.body
  /-- That of a function of a type. -/
  | method {type : TypeDecl} {decl : FunctionDecl} (h : .function decl ∈ type.members) :
      HasBody (.typeDecl type) (some decl) decl.body
  /-- That of an accessor. -/
  | accessor {type : TypeDecl} {property : PropertyDecl} {accessor : Accessor}
      (h : .property property ∈ type.members) (haccessor : accessor ∈ property.accessors) :
      HasBody (.typeDecl type) none accessor.body
  /-- The statements of a script. -/
  | statements (block : Block) : HasBody (.statements block) none block

/-- The bodies in the code of a member, in order. -/
def Member.bodies : Member → List Block
  | .function decl => [decl.body]
  | .property decl => decl.accessors.map Accessor.body

/-- The bodies in the code of an item, in order. -/
def Item.bodies : Item → List Block
  | .function decl => [decl.body]
  | .typeDecl decl => decl.members.flatMap Member.bodies
  | .statements block => [block]

/-- A body that an item has is one of its bodies. -/
theorem Item.HasBody.mem_bodies {item : Item} {function : Option FunctionDecl} {body : Block}
    (h : item.HasBody function body) : body ∈ item.bodies := by
  cases h with
  | function | statements => exact List.mem_singleton_self _
  | method hmem => exact List.mem_flatMap.mpr ⟨_, hmem, List.mem_singleton_self _⟩
  | accessor hmem haccessor =>
    exact List.mem_flatMap.mpr ⟨_, hmem, List.mem_map_of_mem haccessor⟩

end MacroExpansion
