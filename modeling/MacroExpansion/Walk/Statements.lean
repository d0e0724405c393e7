import MacroExpansion.Walk.Cursor
import MacroExpansion.Walk.Progress

/-! # Walking statements

A sequence is walked statement by statement. Each statement is settled first: its own calls are
expanded, one by one in pre-order, until none of them is left to expand; then the statements nested
in it are walked in the same way. When a call becomes a run of statements, the run is walked in its
place, between the settled statements before it and those still to come, which the calls of the run
may capture. The run then replaces the call's statement, together with everything that was captured.

`walk` is bounded by the number of walks that may be under way within each other. Everything else
here takes the walk of an inner sequence as an argument. -/

namespace MacroExpansion

/-- How a part of the walk goes on: with a result, or with another function in place of the one that
is walked. -/
inductive Flow (α : Type) where
  /-- The walk goes on. -/
  | proceed (value : α)
  /-- The walk is over. -/
  | replaceFunction (decl : FunctionDecl)

/-- Goes on with a result, or passes the replacement of the function on. -/
def Flow.followedBy {σ : Type} (flow : Flow α) (next : α → ExpandM σ (Flow β)) :
    ExpandM σ (Flow β) :=
  match flow with
  | .proceed value => next value
  | .replaceFunction decl => return .replaceFunction decl

/-- A sequence that was walked. -/
structure Walked where
  /-- The statements after all expansions. -/
  statements : List Stmt
  /-- The position in the sequence as it was at first that the walk stopped at. Captures may carry
  it past the end of the part that was to be walked. -/
  stopped : Nat

/-- A statement that was settled. -/
inductive Settled where
  /-- It is still one statement. -/
  | kept (stmt : Stmt)
  /-- A run stands for it and the statements after it, `deleted` in all. -/
  | spliced (deleted : Nat) (run : List Stmt)

/-- The cursor behind a statement that was settled. -/
def Cursor.after (cursor : Cursor) : Settled → Cursor
  | .kept stmt => (cursor.withStmt stmt).next
  | .spliced deleted run => cursor.spliceOver deleted run

/-- The walk of the part of a sequence between two positions; the rest is only seen and captured. -/
abbrev SequenceWalk (σ : Type) :=
  (scope : Scope) → (depth : Nat) → (span : Span) → (statements : List Stmt) →
    (start stop : Nat) → ExpandM σ (Flow Walked)

/-- The first of some calls that has to be expanded, with its arguments bound, when each call stands
at its site. -/
def Expander.firstBound? (expander : Expander) (source : Option SourceText) (site : Call → Site) :
    List Call → Except ExpansionError (Option BoundCall)
  | [] => .ok none
  | call :: rest =>
      match expander.rules.candidate? call with
      | none => expander.firstBound? source site rest
      | some symbol =>
          match expander.rules.bind symbol (site call) source with
          | .error error => .error error
          | .ok none => expander.firstBound? source site rest
          | .ok (some bound) => .ok (some bound)

/-- The walk of the statements of one file. What it does before a statement and how it finds the
next call are its own to choose; the defaults are those of an expansion. -/
structure FileWalk (σ : Type) where
  /-- What the expansion is made with. -/
  expander : Expander
  /-- The file. -/
  file : FileOrigin
  /-- What is done before the statement at a cursor. -/
  poll : Cursor → ExpandM σ Unit := fun _ => ExpandM.checkCancelled
  /-- Finds the next call of a statement that has to be expanded, when each of its calls stands at
  its site. -/
  next : Stmt → (Call → Site) → ExpandM σ (Option BoundCall) := fun stmt site =>
    ExpandM.require (expander.firstBound? file.source site stmt.ownCalls)

namespace FileWalk

variable {σ : Type}

/-- An error of the walk at a place in its file. -/
def fault (walk : FileWalk σ) (fault : Fault) (span : Span) : ExpansionError :=
  .atSpan fault span walk.file.source

/-- Walks a run in place of a statement and the `captured` ones after it. -/
def spliceRun (walkInner : SequenceWalk σ) (cursor : Cursor) (captured : Nat) (run : List Stmt) :
    ExpandM σ (Flow Settled) := do
  let front := cursor.splices.preview (cursor.statements.take cursor.index)
  let rest := cursor.statements.drop (cursor.index + 1 + captured)
  let stop := front.length + run.length
  -- what is behind the run is not walked here, but its calls may capture it
  let flow ← walkInner cursor.scope (cursor.depth + 1) cursor.span (front ++ run ++ rest)
    front.length stop
  flow.followedBy fun walked => do
    let overrun := min (walked.stopped - stop) rest.length
    let kept := walked.statements.length - (rest.length - overrun)
    return .proceed (.spliced (1 + captured + overrun)
      ((walked.statements.take kept).drop front.length))

/-- Walks what the slots of a statement hold, one slot after the other. Gives the statement with
everything nested in it expanded. -/
def walkSlots (walkInner : SequenceWalk σ) (cursor : Cursor) :
    List Slot → ExpandM σ (Flow Stmt)
  | [] => return .proceed cursor.stmt
  | slot :: rest =>
      match slot.content? cursor.stmt with
      | none => walkSlots walkInner cursor rest
      | some content => do
          let flow ← walkInner (cursor.inside slot) cursor.depth content.span content.statements
            0 content.statements.length
          flow.followedBy fun walked =>
            let content : Block := { content with statements := walked.statements }
            walkSlots walkInner (cursor.withStmt (slot.fill content cursor.stmt)) rest

/-- Settles a statement that may still take `allowed` expansions. -/
def settle (walk : FileWalk σ) (walkInner : SequenceWalk σ) :
    (allowed : Nat) → Cursor → ExpandM σ (Flow Settled)
  | allowed, cursor => do
    match ← walk.next cursor.stmt (cursor.site walk.file.path) with
    | none =>
        -- a call that is still to be expanded could change what is nested in its statement
        let flow ← walkSlots walkInner cursor (Slot.all cursor.stmt)
        flow.followedBy fun stmt => return .proceed (.kept stmt)
    | some bound =>
        let limit := walk.expander.config.maxDepth
        let call := bound.site.call
        -- the limits count only where there is a call to expand
        match allowed, decide (cursor.depth ≤ limit) with
        | allowed + 1, true =>
            let placement ←
              ExpandM.located call.span walk.file.source
                (walk.expander.expandCall walk.file.source bound)
            match placement with
            | .empty => walk.settle walkInner allowed (cursor.withStmt (.empty cursor.stmt.span))
            | .inPlace expr =>
                match cursor.stmt.replaceCall? call expr with
                | some stmt => walk.settle walkInner allowed (cursor.withStmt stmt)
                | none => ExpandM.fail (walk.fault (.callVanished call.callee) call.span)
            | .statement stmt => walk.settle walkInner allowed (cursor.withStmt stmt)
            | .function decl => return .replaceFunction decl
            | .splice run => spliceRun walkInner cursor bound.captured run
        | _, _ => ExpandM.fail (walk.fault (.depthLimit call.callee limit) call.span)

/-- Walks the statements from a cursor to a position, at most `steps` of them. -/
def walkFrom (walk : FileWalk σ) (walkInner : SequenceWalk σ) (stop : Nat) :
    (steps : Nat) → Cursor → ExpandM σ (Flow Walked)
  | 0, cursor => return .proceed ⟨cursor.block.statements, cursor.index⟩
  | steps + 1, cursor => do
      if cursor.index < stop then
        walk.poll cursor
        let flow ← walk.settle walkInner walk.expander.config.maxDepth cursor
        flow.followedBy fun settled => walk.walkFrom walkInner stop steps (cursor.after settled)
      else
        return .proceed ⟨cursor.block.statements, cursor.index⟩

/-- Walks a part of a sequence. The first argument bounds the number of walks within each other. -/
def walk (file : FileWalk σ) : (nesting : Nat) → SequenceWalk σ
  | 0 => fun _ _ _ _ _ _ => throw .exhausted
  | nesting + 1 => fun scope depth span statements start stop =>
      file.walkFrom (file.walk nesting) stop (stop - start)
        { scope, depth, span, statements, index := start }

end FileWalk

end MacroExpansion
