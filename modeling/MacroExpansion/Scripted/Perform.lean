import MacroExpansion.Scripted.Action
import MacroExpansion.Scripted.Journal
import MacroExpansion.Tree.Build

/-! # Scripted macros: bodies

A list of actions as a macro body. The actions are performed in order; the first failure ends the
body. -/

namespace MacroExpansion

namespace Scripted

/-! ## What actions write -/

/-- A statement in its frame. -/
def StatementFrame.around (frame : StatementFrame) (stmt : Stmt) : Stmt :=
  match frame with
  | .bare => stmt
  | .block => .blockOf [stmt]
  | .branch => .branchOn (.ofName "w") stmt none
  | .loop => .loopWhile (.ofName "w") stmt

/-- An expression in its frame. -/
def ExpressionFrame.around (frame : ExpressionFrame) (expr : Expr) : Expr :=
  match frame with
  | .bare => expr
  | .call => .callOf "Wrap" [expr]
  | .lambda => .lambdaOf [] expr

/-- A value that has to be there. -/
def orFail (value : Option α) (failure : String) : Except String α :=
  match value with
  | some value => .ok value
  | none => .error failure

/-- The quote that an action writes through. -/
def target (invocation : Invocation) : Option Nat → Except String Quote
  | some index => invocation.quoteAt index
  | none => invocation.quote

/-- The fragment that a part of an invocation makes. -/
def Part.fragment (invocation : Invocation) (at? : Option Nat) : Part → Except String Fragment
  | .statement index frame => do
      return .stmt (frame.around (← invocation.statement index))
  | .block index frame => do
      return .stmt (frame.around (.block (← invocation.block index)))
  | .written index frame => do
      let expr ← orFail (invocation.written? index) ("no syntax " ++ toString index)
      return .expr (frame.around expr)
  | .constant index frame => do
      return .expr (frame.around (.ofLiteral (← invocation.constant index)))
  | .int index added frame => do
      return .expr (frame.around (.ofInt ((← invocation.int index) + added)))
  | .quoteArgument index frame => do
      let quote ← target invocation at?
      let expr ← orFail (quote.argument? index) ("no argument " ++ toString index)
      return .expr (frame.around expr)
  | .typeArgument index frame => do
      let name ← orFail invocation.typeArgs[index]? ("no type argument " ++ toString index)
      return .expr (frame.around (.ofString name))
  | .call callee index added asStatement => do
      let call := Expr.callOf callee [.ofInt ((← invocation.int index) + added)]
      return if asStatement then .stmt (.evaluate call) else .expr call

/-- A function with the changes of an edit; `index` is the position of the call. -/
def FunctionEdit.apply (edit : FunctionEdit) (index : Nat) (decl : FunctionDecl) : FunctionDecl :=
  let statements := edit.body.getD decl.body.statements
  let kept := if edit.removesCall then statements.eraseIdx index else statements
  { decl with
    name := decl.name ++ edit.suffix
    body := { decl.body with statements := kept ++ edit.appended } }

/-- The fragment that a part of a call site makes. -/
def SitePart.fragment (site : Site) : SitePart → Except String Fragment
  | .call => .ok (.expr (.call site.call))
  | .statement => .ok (.stmt site.statement)
  | .block => .ok (.stmt (.block site.block))
  | .enclosing =>
      match site.enclosing with
      | .function decl => .ok (.function decl)
      | .lambda l => .ok (.expr (.lambda l))
      | other => .ok (.expr (.ofString other.memberName))
  | .function edit => do
      let decl ← orFail site.function "not in a function"
      return .function (edit.apply site.index decl)

/-- Increments of the integer variables that are declared before the call. -/
def increments (site : Site) : List Fragment :=
  site.preceding.filterMap fun
    | .localVar .int name _ _ => some (.stmt (.evaluate (.postIncrement (.ofName name))))
    | _ => none

/-! ## What actions put on record -/

/-- All that a macro sees in a state. -/
def Observation.of (invocation : Invocation) (state : BodyState Journal) : Observation where
  site := invocation.site
  args := invocation.args
  typeArgs := invocation.typeArgs
  emitted := invocation.quote.toOption.map (·.emitted state.buffers)
  activeCall := state.session.binding.call?
  activeStatement := state.session.binding.statement?

/-- What a probe finds in a state. -/
def Probe.find (invocation : Invocation) (state : BodyState Journal) :
    Probe → Except String Finding
  | .quote => do return .number (← invocation.quote).sequence
  | .quoteAt index => do return .number (← invocation.quoteAt index).sequence
  | .constant index => do return .constant (← invocation.constant index)
  | .int index => do return .number (← invocation.int index).toInt
  | .statement index => do return .text (some (← invocation.statement index).text)
  | .block index => do return .text (some (← invocation.block index).text)
  | .written index => .ok (.text ((invocation.written? index).map Expr.text))
  | .quoteArgument index => do
      return .text (((← invocation.quote).argument? index).map Expr.text)
  | .argument index => .ok (.argument invocation.args[index]?)
  | .emitted => do return .number ((← invocation.quote).emitted state.buffers)
  | .active => .ok (.flag state.session.binding.isActive)

/-! ## Performing -/

/-- Writes the fragments through the quote of an action. -/
def emitAll (invocation : Invocation) (at? : Option Nat) (fragments : List Fragment) :
    BodyM Journal Unit := do
  let quote ← BodyM.require (target invocation at?)
  fragments.forM (BodyM.emit quote)

mutual

/-- Performs an action. `earlier` is the number of earlier runs of the body. -/
def perform (invocation : Invocation) (earlier : Nat) : Action → BodyM Journal Unit
  | .emit at? fragment => emitAll invocation at? [fragment]
  | .emitPart at? part => do
      emitAll invocation at? [← BodyM.require (part.fragment invocation at?)]
  | .emitSite at? part => do
      let quote ← BodyM.require (target invocation at?)
      BodyM.emit quote (← BodyM.require (part.fragment invocation.site))
  | .incrementPreceding at? => emitAll invocation at? (increments invocation.site)
  | .replaceWithExpression expr => BodyM.replaceWithExpression expr
  | .replaceWithStatements statements => BodyM.replaceWithStatements statements
  | .reenter => BodyM.rebind (·.enter invocation.site)
  | .cancel => BodyM.cancel
  | .fail message => BodyM.fail message
  | .panic payload => BodyM.panic payload
  | .observe => do
      let state ← get
      BodyM.modifyHost (·.note (.observed (.of invocation state)))
  | .probe probe => do
      let state ← get
      BodyM.modifyHost (·.note (.probed (probe.find invocation state)))
  | .ifArgument index kind holds fails =>
      if (invocation.args[index]?).map Argument.kind = kind then performAll invocation earlier holds
      else performAll invocation earlier fails
  | .ifAtLeast index bound holds fails => do
      if bound ≤ (← BodyM.require (invocation.int index)) then
        performAll invocation earlier holds
      else performAll invocation earlier fails
  | .byRun cases => performCase invocation earlier earlier cases
termination_by structural action => action

/-- Performs actions in order. -/
def performAll (invocation : Invocation) (earlier : Nat) : List Action → BodyM Journal Unit
  | [] => pure ()
  | action :: rest => do
      perform invocation earlier action
      performAll invocation earlier rest
termination_by structural actions => actions

/-- Performs the list at a position, or the last one if there are not so many. -/
def performCase (invocation : Invocation) (earlier : Nat) :
    (position : Nat) → List (List Action) → BodyM Journal Unit
  | _, [] => pure ()
  | _, [last] => performAll invocation earlier last
  | 0, first :: _ => performAll invocation earlier first
  | position + 1, _ :: rest => performCase invocation earlier position rest
termination_by structural _ cases => cases

end

/-- The macro body that performs actions. Its runs are counted under a number. -/
def body (number : Nat) (actions : List Action) (invocation : Invocation) : BodyM Journal Unit := do
  let journal ← BodyM.host
  BodyM.modifyHost (·.countRun number)
  performAll invocation (journal.runsOf number) actions

end Scripted

end MacroExpansion
