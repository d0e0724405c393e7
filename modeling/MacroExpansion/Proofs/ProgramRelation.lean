import MacroExpansion.Proofs.WalkRelation

/-! # Expansions on two hosts

Walks treat all hosts alike: of the session and the registry they see nothing but what the host says
when it is asked whether to go on, and what comes of the calls. So a relation between programs on two
hosts that relates these two relates whole expansions, as long as related parts make up related
programs. -/

namespace MacroExpansion

variable {σ τ : Type}

/-- A relation between programs on two hosts. Related parts make up related programs. -/
structure ProgramRelation (σ τ : Type) where
  /-- The programs are related. -/
  Rel {α : Type} : ExpandM σ α → ExpandM τ α → Prop
  /-- Values are related to themselves. -/
  pure {α : Type} (value : α) : Rel (Pure.pure value) (Pure.pure value)
  /-- Early ends are related to themselves. -/
  throw {α : Type} (stop : Stop) :
    Rel (MonadExcept.throw stop : ExpandM σ α) (MonadExcept.throw stop)
  /-- One part follows another. -/
  bind {α β : Type} {first : ExpandM σ α} {first' : ExpandM τ α} {next : α → ExpandM σ β}
    {next' : α → ExpandM τ β} (h : Rel first first')
    (hnext : ∀ value, Rel (next value) (next' value)) : Rel (first >>= next) (first' >>= next')

namespace ProgramRelation

variable {relation : ProgramRelation σ τ} {α β : Type}

/-- Required values are related to themselves. -/
theorem require (value : Except ExpansionError α) :
    relation.Rel (ExpandM.require value) (ExpandM.require value) := by
  cases value with
  | ok value => exact relation.pure value
  | error error => exact relation.throw _

/-- The relation as one between walks that may end differently. -/
def toWalkRelation (relation : ProgramRelation σ τ) : WalkRelation σ τ where
  Rel := relation.Rel
  pure := relation.pure
  bind := relation.bind

/-- The steps of an expansion that depend on the host are related. -/
structure Covers (relation : ProgramRelation σ τ) (expander : Expander) (file : FileOrigin) :
    Prop where
  /-- The hosts are asked whether to go on. -/
  poll : relation.Rel ExpandM.checkCancelled ExpandM.checkCancelled
  /-- A call that is found at the next statement of a sequence is expanded. -/
  expandCall {setting : Setting} {done rest : List Stmt} {stmt : Stmt} {bound : BoundCall}
    (h : expander.firstBound? file.source
      ((setting.cursor ⟨done, stmt :: rest⟩).site file.path) stmt.ownCalls = .ok (some bound)) :
    relation.Rel
      (ExpandM.located bound.site.call.span file.source (expander.expandCall file.source bound))
      (ExpandM.located bound.site.call.span file.source (expander.expandCall file.source bound))

/-- Walks of whole sequences are related. -/
def RelatesWalks (relation : ProgramRelation σ τ) (walk : SequenceWalk σ) (walk' : SequenceWalk τ) :
    Prop :=
  ∀ scope depth span statements,
    relation.Rel (walk scope depth span statements 0 statements.length)
      (walk' scope depth span statements 0 statements.length)

/-- Two walks of one file that find the same calls are related when their steps are. -/
theorem Covers.toWalkRelation {expander : Expander} {file : FileOrigin}
    (h : relation.Covers expander file) :
    relation.toWalkRelation.Covers { expander, file } { expander, file } := by
  refine WalkRelation.covers_of_expansions rfl rfl (relation.throw _) (fun _ _ => relation.throw _)
    h.poll (fun site calls => ?_) h.expandCall
  cases expander.firstBound? file.source site calls with
  | ok next => rfl
  | error error => exact ⟨error, rfl, relation.throw _⟩

end ProgramRelation

namespace FileWalk

variable {relation : ProgramRelation σ τ} {walkAll : SequenceWalk σ} {walkAll' : SequenceWalk τ}

/-- The walks of a sequence are related when their steps are. -/
theorem walk_related {expander : Expander} {file : FileOrigin}
    (hcovers : relation.Covers expander file) (nesting : Nat) :
    relation.RelatesWalks (walk { expander, file } nesting) (walk { expander, file } nesting) :=
  walk_sideBySide hcovers.toWalkRelation nesting

/-- The walks of a block are related when those of its sequence are. -/
theorem walkBlock_related (h : relation.RelatesWalks walkAll walkAll') (scope : Scope)
    (block : Block) :
    relation.Rel (walkBlock walkAll scope block) (walkBlock walkAll' scope block) :=
  walkBlock_sideBySide (show relation.toWalkRelation.RelatesWalks walkAll walkAll' from h) scope block

end FileWalk

/-- The expansions of a file are related when their steps are. -/
theorem Expander.itemsProgram_related {relation : ProgramRelation σ τ} {expander : Expander}
    {tree : SyntaxTree} (hcovers : relation.Covers expander ⟨tree.path, tree.source⟩)
    (nesting : Nat) :
    relation.Rel (itemsProgram (·.walk nesting) expander tree)
      (itemsProgram (·.walk nesting) expander tree) :=
  itemsProgram_sideBySide hcovers.toWalkRelation rfl nesting

end MacroExpansion
