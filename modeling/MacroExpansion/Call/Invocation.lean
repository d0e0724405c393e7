import MacroExpansion.Call.Arguments
import MacroExpansion.Call.ActiveCall

/-! # Invocations

A macro body is a program over a small state: the buffers of its quotes and the session, which holds
the call binding, the cancellation flag and whatever the host keeps. It ends normally, with a
failure or by a panic. `invoke` runs a body with its call published and says what came of it;
however the body ends, no call is published afterwards. -/

namespace MacroExpansion

/-- What one line of expansion keeps while macro bodies come and go. -/
structure Session (σ : Type) where
  /-- The published call. -/
  binding : CallBinding := {}
  /-- Whether the host asked for the expansion to stop. -/
  cancelled : Bool := false
  /-- What the host keeps for its macro bodies. -/
  host : σ

/-- Everything that a macro body receives. -/
structure Invocation where
  /-- The place of the call. -/
  site : Site
  /-- One argument per parameter. -/
  args : List Argument
  /-- The runtime types of the type arguments. -/
  typeArgs : List String

namespace Invocation

/-- The quotes among the arguments, in order. -/
def quotes (invocation : Invocation) : List Quote :=
  invocation.args.filterMap fun
    | .quote quote => some quote
    | _ => none

/-- The first quote argument. -/
def quote (invocation : Invocation) : Except String Quote :=
  match invocation.quotes.head? with
  | some quote => .ok quote
  | none => .error ("macro '" ++ invocation.site.call.callee ++ "' has no quote parameter")

/-- The text of a failure about one parameter. -/
def parameterFailure (index : Nat) (what : String) : String :=
  "parameter " ++ toString index ++ " " ++ what

/-- The quote passed to a parameter. -/
def quoteAt (invocation : Invocation) (index : Nat) : Except String Quote :=
  match invocation.args[index]? with
  | some (.quote quote) => .ok quote
  | _ => .error (parameterFailure index "is not a quote")

/-- The constant passed to a parameter. -/
def constant (invocation : Invocation) (index : Nat) : Except String Literal :=
  match invocation.args[index]? with
  | some (.constant value) => .ok value
  | _ => .error (parameterFailure index "is not a constant")

/-- The integer passed to a parameter. -/
def int (invocation : Invocation) (index : Nat) : Except String Int64 :=
  match invocation.constant index with
  | .ok (.int value) => .ok value
  | .ok other => .error (parameterFailure index ("is " ++ other.text ++ ", expected an int"))
  | .error failure => .error failure

/-- The statement captured for a parameter; a captured block counts as a block statement. -/
def statement (invocation : Invocation) (index : Nat) : Except String Stmt :=
  match invocation.args[index]? with
  | some (.statement stmt) => .ok stmt
  | some (.block block) => .ok (.block block)
  | _ => .error (parameterFailure index "did not capture a statement")

/-- The block captured for a parameter. -/
def block (invocation : Invocation) (index : Nat) : Except String Block :=
  match invocation.args[index]? with
  | some (.block block) => .ok block
  | _ => .error (parameterFailure index "did not capture a block")

/-- The argument at a position as written in the call, constant or not. -/
def written? (invocation : Invocation) (index : Nat) : Option Expr :=
  match invocation.args[index]? with
  | some (.written expr) => some expr
  | _ => invocation.site.call.args[index]?

end Invocation

/-! ## Macro bodies -/

/-- How a macro body ends before its last step. -/
inductive Halt where
  /-- It gives up with a text. -/
  | failure (text : String)
  /-- It panics, with a text if the payload is one. -/
  | panic (payload : Option String)
  deriving DecidableEq, Repr

/-- What a macro body can see and change while it runs. -/
structure BodyState (σ : Type) where
  /-- The buffers of its quotes. -/
  buffers : Buffers
  /-- The session that it runs in. -/
  session : Session σ

/-- Programs of macro bodies. -/
abbrev BodyM (σ : Type) := ExceptT Halt (StateM (BodyState σ))

namespace BodyM

variable {σ : Type}

/-- Gives up. -/
def fail (text : String) : BodyM σ α :=
  throw (.failure text)

/-- Panics. -/
def panic (payload : Option String) : BodyM σ α :=
  throw (.panic payload)

/-- Goes on with a value, or gives up with the reason why there is none. -/
def require : Except String α → BodyM σ α
  | .ok value => pure value
  | .error text => fail text

/-- Writes a fragment through a quote. -/
def emit (quote : Quote) (fragment : Fragment) : BodyM σ Unit :=
  modify fun state => { state with buffers := quote.emit fragment state.buffers }

/-- The published call. -/
def binding : BodyM σ CallBinding := do
  return (← get).session.binding

/-- Changes the published call, or gives up with the error of the change. -/
def rebind (change : CallBinding → Except ExpansionError CallBinding) : BodyM σ Unit := do
  let state ← get
  match change state.session.binding with
  | .ok binding => set { state with session := { state.session with binding } }
  | .error error => fail error.text

/-- Asks for the call to become an expression. -/
def replaceWithExpression (expr : Expr) : BodyM σ Unit :=
  rebind (·.replaceWithExpression expr)

/-- Asks for the call's statement to become other statements. -/
def replaceWithStatements (statements : List Stmt) : BodyM σ Unit :=
  rebind (·.replaceWithStatements statements)

/-- Asks the host to stop the expansion. -/
def cancel : BodyM σ Unit :=
  modify fun state => { state with session := { state.session with cancelled := true } }

/-- What the host keeps. -/
def host : BodyM σ σ := do
  return (← get).session.host

/-- Changes what the host keeps. -/
def modifyHost (change : σ → σ) : BodyM σ Unit :=
  modify fun state =>
    { state with session := { state.session with host := change state.session.host } }

end BodyM

/-- An implementation of a macro, under the name that messages show. -/
structure Implementation (σ : Type) where
  /-- Its name. -/
  name : String
  /-- Its body. -/
  body : Invocation → BodyM σ Unit

/-! ## Running a body -/

/-- Why an expansion ends before its last step. -/
inductive Stop where
  /-- By an error. -/
  | error (error : ExpansionError)
  /-- By a panic of a macro body that is not caught. -/
  | panic (payload : Option String)
  /-- By the bound on nested walks. -/
  | exhausted
  deriving DecidableEq, Repr

/-- What came of running a macro body. -/
structure Invoked (σ : Type) where
  /-- The replacement asked for through the call binding, or why there is none. -/
  outcome : Except Stop (List Fragment)
  /-- The buffers as the body left them. -/
  buffers : Buffers
  /-- The session as the body left it, with no call published. -/
  session : Session σ

/-- Runs a macro body with its call published. -/
def invoke {σ : Type} (implementation : Implementation σ) (invocation : Invocation)
    (config : ExpansionConfig) (source : Option SourceText) (buffers : Buffers)
    (session : Session σ) : Invoked σ :=
  match session.binding.enter invocation.site with
  | .error error => { outcome := .error (.error error), buffers, session }
  | .ok binding =>
      let (ended, state) :=
        (implementation.body invocation).run.run
          { buffers, session := { session with binding } }
      -- the call is no longer published, however the body ended
      let (replacement, binding) := state.session.binding.exit
      let located (fault : Fault) : Stop :=
        .error (.atSpan fault invocation.site.call.span source)
      let outcome : Except Stop (List Fragment) :=
        match ended with
        | .ok () => .ok replacement
        | .error (.failure text) => .error (located (.bodyFailed implementation.name text))
        | .error (.panic payload) =>
            if config.catchPanics then
              .error (located (.bodyPanicked implementation.name payload))
            else .error (.panic payload)
      { outcome, buffers := state.buffers, session := { state.session with binding } }

end MacroExpansion
