import MacroExpansion.Proofs.CallContext
import MacroExpansion.Proofs.Nested

/-! # Trees without their code

Expansions change code, which is what stands in the bodies of a file. `SyntaxTree.withoutCode` is the
rest of it: its items, their headers and the places of their bodies. In the same way a statement has a
frame around what it evaluates and what is nested in it, and a lambda one around its body. The
operations that a walk performs on a statement leave these frames as they are. -/

namespace MacroExpansion

/-! ## Statements -/

namespace Stmt

/-- A statement without what it evaluates and what is nested in it: its kind, its place, and for a
local variable its type and name. -/
def withoutCode : Stmt → Stmt
  | .empty span => .empty span
  | .expr _ span => .expr default span
  | .localVar type name init span => .localVar type name (init.map fun _ => default) span
  | .block body => .block ⟨[], body.span⟩
  | .branch _ _ elseBranch span => .branch default default (elseBranch.map fun _ => default) span
  | .loop _ _ span => .loop default default span
  | .ret value span => .ret (value.map fun _ => default) span

/-- What a statement evaluates is no part of its frame. -/
@[simp] theorem withoutCode_withOwnExpr (stmt : Stmt) (e : Expr) :
    (stmt.withOwnExpr e).withoutCode = stmt.withoutCode := by
  cases stmt with
  | localVar _ _ init _ => cases init <;> rfl
  | ret value _ => cases value <;> rfl
  | _ => rfl

/-- Changing a lambda changes nothing but code. -/
@[simp] theorem withoutCode_modifyOwnLambda (stmt : Stmt) (n : Nat) (f : Lambda → Lambda) :
    (stmt.modifyOwnLambda n f).withoutCode = stmt.withoutCode := by
  unfold modifyOwnLambda
  split
  · exact stmt.withoutCode_withOwnExpr _
  · rfl

end Stmt

/-- A lambda without its body: its parameters and its place. -/
def Lambda.withoutCode (lambda : Lambda) : Lambda :=
  { lambda with body := .block default }

/-- The body of a lambda is no part of its frame. -/
@[simp] theorem Lambda.withoutCode_withBody (lambda : Lambda) (body : Block) :
    (lambda.withBody body).withoutCode = lambda.withoutCode := by
  unfold Lambda.withBody
  split <;> rfl

/-- The statement is of the same kind and at the same place, a local variable of the same type and
name, and the lambdas that it evaluates have the same parameters and places. -/
structure Stmt.SameFrame (stmt stmt' : Stmt) : Prop where
  /-- Its own frame. -/
  own : stmt'.withoutCode = stmt.withoutCode
  /-- Those of its lambdas. -/
  lambdas : stmt'.ownLambdas.map Lambda.withoutCode = stmt.ownLambdas.map Lambda.withoutCode

namespace Stmt.SameFrame

/-- A statement has the same frame as itself. -/
theorem refl (stmt : Stmt) : stmt.SameFrame stmt :=
  ⟨rfl, rfl⟩

/-- What has the same frame as a statement has the same frame as what that one came from. -/
theorem trans {first middle last : Stmt} (h : first.SameFrame middle) (h' : middle.SameFrame last) :
    first.SameFrame last :=
  ⟨h'.own.trans h.own, h'.lambdas.trans h.lambdas⟩

/-- Filling a slot of a statement leaves the frame, as long as a block keeps its place. -/
theorem fill {slot : Slot} {stmt : Stmt} {old content : Block} (h : slot.content? stmt = some old)
    (hspan : content.span = old.span) : stmt.SameFrame (slot.fill content stmt) := by
  cases Slot.hasContent_of_content? h with
  | block body => exact ⟨congrArg (fun span => Stmt.block ⟨[], span⟩) hspan, rfl⟩
  | thenBranch => exact ⟨rfl, rfl⟩
  | elseBranch => exact ⟨rfl, rfl⟩
  | loop => exact ⟨rfl, rfl⟩
  | lambda hlambda =>
    refine ⟨stmt.withoutCode_modifyOwnLambda _ _, ?_⟩
    change (stmt.modifyOwnLambda _ _).ownLambdas.map _ = _
    rw [Stmt.ownLambdas_modifyOwnLambda]
    refine List.ext_getElem? fun n => ?_
    simp only [List.getElem?_map, List.getElem?_modify, Option.map_eq_map, Option.map_map]
    refine congrArg (stmt.ownLambdas[n]?.map ·) (funext fun other => ?_)
    -- one lambda got another body, the others are what they were
    simp only [Function.comp_apply]
    split
    · exact other.withoutCode_withBody content
    · rfl

end Stmt.SameFrame

/-! ## Replacing a call -/

/-- In one of two lists an inner part was replaced by another one. -/
def ReplacesPart {α : Type} (part part' list list' : List α) : Prop :=
  ∃ front behind, list = front ++ part ++ behind ∧ list' = front ++ part' ++ behind

/-- What is in the second list was there before, or it came with the part. -/
theorem ReplacesPart.mem {α : Type} {part part' list list' : List α}
    (h : ReplacesPart part part' list list') {value : α} (hmem : value ∈ list') :
    value ∈ list ∨ value ∈ part' := by
  obtain ⟨front, behind, rfl, rfl⟩ := h
  rw [List.append_assoc, List.mem_append, List.mem_append] at hmem
  rcases hmem with hfront | hpart | hbehind
  · exact .inl (List.mem_append_left _ (List.mem_append_left _ hfront))
  · exact .inr hpart
  · exact .inl (List.mem_append_right _ hbehind)

variable {target : Call} {replacement : Expr}

/-- A statement in which a call was replaced keeps its frame, and all lambdas but those in the
arguments of the call. -/
theorem Stmt.frame_replaceCall? {stmt stmt' : Stmt}
    (h : stmt.replaceCall? target replacement = some stmt') :
    stmt'.withoutCode = stmt.withoutCode ∧
      ReplacesPart target.lambdas replacement.lambdas stmt.ownLambdas stmt'.ownLambdas := by
  obtain ⟨_, _, hexpr, ⟨context, rfl, -, rfl⟩, rfl⟩ := replacedIn_of_replaceCall? h
  obtain ⟨before, behind, hlambdas⟩ := context.exists_lambdas_plug
  refine ⟨stmt.withoutCode_withOwnExpr _, before, behind, ?_, ?_⟩
  · rw [ownLambdas, hexpr]
    exact hlambdas (.call target)
  · rw [ownLambdas, ownExpr?_withOwnExpr hexpr]
    exact hlambdas replacement

/-! ## Declarations -/

/-- A body without its statements: its place. -/
def Block.withoutCode (block : Block) : Block :=
  { block with statements := [] }

/-- A function without the statements of its body. -/
def FunctionDecl.withoutCode (decl : FunctionDecl) : FunctionDecl :=
  { decl with body := decl.body.withoutCode }

/-- An accessor without the statements of its body. -/
def Accessor.withoutCode (accessor : Accessor) : Accessor :=
  { accessor with body := accessor.body.withoutCode }

/-- A property without the statements in its accessors. -/
def PropertyDecl.withoutCode (decl : PropertyDecl) : PropertyDecl :=
  { decl with accessors := decl.accessors.map Accessor.withoutCode }

/-- A member of a type without the statements of its bodies. -/
def Member.withoutCode : Member → Member
  | .function decl => .function decl.withoutCode
  | .property decl => .property decl.withoutCode

/-- A type without the statements in the bodies of its members. -/
def TypeDecl.withoutCode (decl : TypeDecl) : TypeDecl :=
  { decl with members := decl.members.map Member.withoutCode }

/-- An item without the statements of its bodies. -/
def Item.withoutCode : Item → Item
  | .typeDecl decl => .typeDecl decl.withoutCode
  | .function decl => .function decl.withoutCode
  | .statements block => .statements block.withoutCode

/-- A file without the statements of its bodies. -/
def SyntaxTree.withoutCode (tree : SyntaxTree) : SyntaxTree :=
  { tree with items := tree.items.map Item.withoutCode }

/-- The bodies in the code of a file, in order. -/
def SyntaxTree.bodies (tree : SyntaxTree) : List Block :=
  tree.items.flatMap Item.bodies

end MacroExpansion
