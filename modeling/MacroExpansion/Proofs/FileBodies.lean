import MacroExpansion.Proofs.Nested
import MacroExpansion.Proofs.Program

/-! # The bodies of an expanded file

What walks ensure of the blocks that they walk is ensured of every body in the code of the file. A
function counts in the form that it has in the end, as the code of the function that comes out. -/

namespace MacroExpansion

variable {σ : Type}

/-- A walk of sequences ensures something of the bodies of functions, and of the blocks outside of
functions. -/
structure SequenceWalk.EnsuresBodies (P : Option FunctionDecl → Block → Prop)
    (walk : SequenceWalk σ) : Prop where
  /-- Of the body of a function, as the code of the function with that body. -/
  function (decl : FunctionDecl) :
    (FileWalk.walkBlock walk (.ofFunction decl) decl.body).Ensures
      (Flow.Holds fun body => P (some { decl with body }) body)
  /-- Of a block outside of functions. -/
  loose {scope : Scope} (h : scope.function = none) (block : Block) :
    (FileWalk.walkBlock walk scope block).Ensures (Flow.Holds (P none))

namespace FileWalk

variable {walkAll : SequenceWalk σ} {P : Option FunctionDecl → Block → Prop}

/-- An expanded function has a body as walks of functions ensure it, whether it was replaced or not. -/
theorem expandFunction_ensures (walk : FileWalk σ) (h : walkAll.EnsuresBodies P) (allowed : Nat)
    (decl : FunctionDecl) :
    (walk.expandFunction walkAll allowed decl).Ensures fun expanded =>
      P (some expanded) expanded.body := by
  induction allowed generalizing decl
  all_goals
    unfold expandFunction
    refine (h.function decl).bind fun flow hflow => ?_
  case zero =>
    cases flow with
    | proceed body => exact .pure (hflow body rfl)
    | replaceFunction replacement => exact .throw _
  case succ allowed ih =>
    cases flow with
    | proceed body => exact .pure (hflow body rfl)
    | replaceFunction replacement => exact ih replacement

/-- An expanded block outside of functions is as its walk ensures it. -/
theorem expandLoose_ensures (walk : FileWalk σ) (h : walkAll.EnsuresBodies P) {scope : Scope}
    (hscope : scope.function = none) (block : Block) (span : Span) :
    (walk.expandLoose walkAll scope block span).Ensures (P none) := by
  unfold expandLoose
  refine (h.loose hscope block).bind fun flow hflow => ?_
  cases flow with
  | replaceFunction decl => exact .throw _
  | proceed body => exact .pure (hflow body rfl)

/-- An expanded member has bodies as their walks ensure them. -/
theorem expandMember_ensures (walk : FileWalk σ) (h : walkAll.EnsuresBodies P) (member : Member) :
    (walk.expandMember walkAll member).Ensures fun
      | .function decl => P (some decl) decl.body
      | .property decl => ∀ accessor ∈ decl.accessors, P none accessor.body := by
  cases member with
  | function decl =>
    exact (walk.expandFunction_ensures h _ decl).bind fun _ hbody => .pure hbody
  | property decl =>
    refine ExpandM.Ensures.bind (P := fun property => ∀ accessor ∈ property.accessors,
      P none accessor.body) ?_ fun _ hbodies => .pure hbodies
    refine ExpandM.Ensures.bind (.mapM (fun accessor => ?_) decl.accessors) fun _ hbodies =>
      .pure hbodies
    exact (walk.expandLoose_ensures h rfl accessor.body accessor.span).bind
      fun _ hbody => .pure hbody

/-- What is ensured of bodies is ensured of those of an expanded item. -/
theorem expandItem_ensures (walk : FileWalk σ) (h : walkAll.EnsuresBodies P) (item : Item) :
    (walk.expandItem walkAll item).Ensures fun expanded =>
      ∀ function body, expanded.HasBody function body → P function body := by
  cases item with
  | function decl =>
    refine (walk.expandFunction_ensures h _ decl).bind fun expanded hbody => .pure ?_
    intro function body hhas
    cases hhas
    exact hbody
  | typeDecl decl =>
    refine ExpandM.Ensures.bind (.mapM (walk.expandMember_ensures h) decl.members)
      fun members hmembers => .pure ?_
    intro function body hbody
    cases hbody with
    | method hmem => exact hmembers _ hmem
    | accessor hmem haccessor => exact hmembers _ hmem _ haccessor
  | statements block =>
    refine (walk.expandLoose_ensures h rfl block block.span).bind fun expanded hbody => .pure ?_
    intro function body hhas
    cases hhas
    exact hbody

end FileWalk

end MacroExpansion
