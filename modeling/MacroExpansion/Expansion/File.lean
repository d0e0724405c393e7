import MacroExpansion.Walk.Statements

/-! # Expanding a file

Every function, accessor and script block of a file is walked in a scope of its own. A function that
is replaced is walked again from its start, in the form that replaced it. The first error ends the
expansion of the file. -/

namespace MacroExpansion

/-- An expanded file. -/
structure Expansion where
  /-- The tree after all expansions. -/
  tree : SyntaxTree
  /-- One step per expanded call. -/
  trace : List ExpansionStep
  /-- The warnings, in the order in which they arose. -/
  warnings : List DiagnosticRecord

namespace FileWalk

variable {σ : Type}

/-- Walks all statements of a block. -/
def walkBlock (walkAll : SequenceWalk σ) (scope : Scope) (block : Block) :
    ExpandM σ (Flow Block) := do
  let flow ← walkAll scope 0 block.span block.statements 0 block.statements.length
  flow.followedBy fun walked => return .proceed { block with statements := walked.statements }

/-- Expands a function that may still be replaced `allowed` times. -/
def expandFunction (walk : FileWalk σ) (walkAll : SequenceWalk σ) :
    (allowed : Nat) → FunctionDecl → ExpandM σ FunctionDecl
  | allowed, decl => do
    match ← walkBlock walkAll (.ofFunction decl) decl.body with
    | .proceed body => return { decl with body }
    | .replaceFunction replacement =>
        -- what was expanded so far goes with the function that is replaced
        match allowed with
        | allowed + 1 => walk.expandFunction walkAll allowed replacement
        | 0 =>
            ExpandM.fail
              (walk.fault (.replacementLimit decl.name walk.expander.config.maxDepth) decl.span)

/-- Expands a block outside of any function; no function can be replaced there. -/
def expandLoose (walk : FileWalk σ) (walkAll : SequenceWalk σ) (scope : Scope) (block : Block)
    (span : Span) : ExpandM σ Block := do
  match ← walkBlock walkAll scope block with
  | .proceed block => return block
  | .replaceFunction decl => ExpandM.fail (walk.fault (.functionEscaped decl.name) span)

/-- Expands the accessors of a property. -/
def expandProperty (walk : FileWalk σ) (walkAll : SequenceWalk σ) (property : PropertyDecl) :
    ExpandM σ PropertyDecl := do
  let accessors ← property.accessors.mapM fun accessor => do
    let scope := Scope.ofAccessor property.name accessor.kind
    return { accessor with body := ← walk.expandLoose walkAll scope accessor.body accessor.span }
  return { property with accessors }

/-- Expands a member of a type. -/
def expandMember (walk : FileWalk σ) (walkAll : SequenceWalk σ) : Member → ExpandM σ Member
  | .function decl =>
      return .function (← walk.expandFunction walkAll walk.expander.config.maxDepth decl)
  | .property decl => return .property (← walk.expandProperty walkAll decl)

/-- Expands an item of the file. -/
def expandItem (walk : FileWalk σ) (walkAll : SequenceWalk σ) : Item → ExpandM σ Item
  | .function decl =>
      return .function (← walk.expandFunction walkAll walk.expander.config.maxDepth decl)
  | .typeDecl decl =>
      return .typeDecl { decl with members := ← decl.members.mapM (walk.expandMember walkAll) }
  | .statements block =>
      return .statements (← walk.expandLoose walkAll .script block block.span)

end FileWalk

namespace Expander

variable {σ : Type}

/-- Expands every macro call of a file, when its sequences are walked in some way. The result comes
with what the macros left of the workspace; an error leaves of it what came before. -/
def expandBy (walkAll : FileWalk σ → SequenceWalk σ) (expander : Expander) (tree : SyntaxTree)
    (workspace : Workspace σ) : Except Stop Expansion × Workspace σ :=
  let walk : FileWalk σ := { expander, file := { path := tree.path, text := tree.source } }
  let program : ExpandM σ (List Item) := tree.items.mapM (walk.expandItem (walkAll walk))
  let ended : Except Stop (List Item) × Progress σ :=
    program.run.run { toWorkspace := workspace }
  let expansion (items : List Item) : Expansion :=
    { tree := { tree with items }
      trace := ended.2.trace.toList
      warnings := ended.2.warnings.toList }
  (ended.1.map expansion, ended.2.toWorkspace)

/-- Expands every macro call of a file, with at most `nesting` walks within each other. -/
def expandWithin (nesting : Nat) : Expander → SyntaxTree → Workspace σ →
    Except Stop Expansion × Workspace σ :=
  expandBy (·.walk nesting)

/-- The number of walks within each other that `expand` allows for. Each level of nested
statements takes one, and so does each run inserted by a run. -/
def nestingBound : Nat := 1048576

/-- Expands every macro call of a file. -/
def expand (expander : Expander) (tree : SyntaxTree) (workspace : Workspace σ) :
    Except Stop Expansion × Workspace σ :=
  expander.expandWithin nestingBound tree workspace

end Expander

end MacroExpansion
