import MacroExpansion.Call.Quote
import MacroExpansion.Symbol.Basic
import MacroExpansion.Config.Basic
import MacroExpansion.Diagnostic.Error

/-! # Argument binding

A call is expanded when it binds to a static function that is a macro: one that has a quote
parameter or carries the macro marker. Parameters are bound by position, each by its role: quote
parameters receive a quote, capture parameters the next statement after the call that no earlier
parameter captured, parameters with a default that default, all others the argument of the call.

Inside a macro's own body, a call that passes the macro's quote on to another macro is ordinary
code. Such a call forwards its quote and is never bound. -/

namespace MacroExpansion

/-- What a macro body receives for one parameter. -/
inductive Argument where
  /-- A quote to write to. -/
  | quote (quote : Quote)
  /-- The captured statement. -/
  | statement (stmt : Stmt)
  /-- The captured block. -/
  | block (block : Block)
  /-- A constant. -/
  | constant (value : Literal)
  /-- An argument that is not constant, as written. -/
  | written (expr : Expr)
  /-- Nothing; only where the policy allows a placeholder. -/
  | missing
  deriving DecidableEq

/-- How a parameter is bound. -/
inductive ParameterRole where
  /-- By a quote of the invocation. -/
  | quote
  /-- By a statement that follows the call. -/
  | capture
  /-- By its declared default. -/
  | default (value : Literal)
  /-- By an argument of the call. -/
  | argument
  deriving DecidableEq, Repr

/-- A macro call with its arguments bound. -/
structure BoundCall where
  /-- The macro. -/
  symbol : MethodSymbol
  /-- The place of the call. -/
  site : Site
  /-- One argument per parameter. -/
  args : List Argument
  /-- The buffers that the quotes among the arguments refer to. -/
  buffers : Buffers
  /-- The buffer that all of these quotes write to. -/
  buffer : BufferId
  /-- The number of following statements that were captured. -/
  captured : Nat
  /-- The names of the parameters that received a placeholder. -/
  placeholders : List String

/-- What decides how calls are bound. -/
structure BindingRules where
  /-- What calls bind to. -/
  model : SemanticModel
  /-- The markers of functions and parameters. -/
  markers : MarkerLookup
  /-- What required parameters without an argument receive. -/
  missing : MissingArgumentPolicy

namespace BindingRules

/-- Quote parameters have a quote type or carry the quote marker. -/
def isQuoteParameter (rules : BindingRules) (symbol : MethodSymbol) (index : Nat) : Bool :=
  match symbol.params[index]? with
  | none => false
  | some param =>
      param.type.isQuote || (rules.markers.ofParameter symbol index).contains .quoteParameter

/-- Macros are static and have a quote parameter or the macro marker. -/
def isMacroFunction (rules : BindingRules) (symbol : MethodSymbol) : Bool :=
  symbol.isStatic
    && ((List.range symbol.params.length).any (rules.isQuoteParameter symbol)
      || (rules.markers.ofMethod symbol).contains .macroFunction)

/-- The macro that a call binds to, if it binds to one. -/
def candidate? (rules : BindingRules) (call : Call) : Option MethodSymbol :=
  (rules.model.bindCall call).filter rules.isMacroFunction

/-- Whether a name is a quote parameter of the function around a call. The function's own symbol
decides, if the model knows it, else the type written on the parameter. -/
def isAmbientQuote (rules : BindingRules) (function : FunctionDecl) (name : String) : Bool :=
  match function.params.findIdx? (·.name == name) with
  | none => false
  | some position =>
      match rules.model.declaredSymbol function with
      | some outer => rules.isQuoteParameter outer position
      | none => (function.params[position]?).any (·.type.isQuote)

/-- A call forwards an ambient quote when some quote parameter of the macro is given the bare name
of a quote parameter of the function around the call. -/
def forwardsAmbientQuote (rules : BindingRules) (symbol : MethodSymbol) (site : Site) : Bool :=
  match site.function with
  | none => false
  | some function =>
      (List.range symbol.params.length).any fun index =>
        rules.isQuoteParameter symbol index
          && ((site.call.args[index]?).bind Expr.asName?).any (rules.isAmbientQuote function)

/-- The role of the parameter at a position. -/
def role (rules : BindingRules) (symbol : MethodSymbol) (index : Nat) (param : ParameterSymbol) :
    ParameterRole :=
  if rules.isQuoteParameter symbol index then .quote
  else
    match param.default with
    | none => .argument
    | some value => if param.type.isCapture then .capture else .default value

/-- The statement that a capture parameter receives, when `captured` statements after the call are
taken already. A parameter of block type takes nothing but a block. -/
def capture (symbol : MethodSymbol) (param : ParameterSymbol) (site : Site) (captured : Nat)
    (source : Option SourceText) : Except ExpansionError Argument :=
  match site.following? captured with
  | none =>
      .error (.atSpan (.nothingToCapture symbol.qualifiedName param.name) site.call.span source)
  | some next =>
      match param.type, next with
      | .block, .block b => .ok (.block b)
      | .block, other =>
          .error (.atSpan (.blockRequired symbol.qualifiedName param.name) other.span source)
      | _, stmt => .ok (.statement stmt)

/-- What a parameter receives that is bound by an argument of the call. -/
def supplied (rules : BindingRules) (symbol : MethodSymbol) (index : Nat) (param : ParameterSymbol)
    (site : Site) (source : Option SourceText) : Except ExpansionError Argument :=
  match site.call.args[index]? with
  | some expr =>
      match rules.model.constantValue expr with
      | some value => .ok (.constant value)
      | none => .ok (.written expr)
  | none =>
      match rules.missing with
      | .error =>
          .error (.atSpan (.missingArgument symbol.qualifiedName param.name) site.call.span source)
      | .placeholder => .ok .missing

/-- Binds the parameters from a position on; `captured` statements are taken by earlier ones. Also
gives the number of statements captured in the end. -/
def bindParams (rules : BindingRules) (symbol : MethodSymbol) (root : Quote)
    (source : Option SourceText) :
    List ParameterSymbol → (index captured : Nat) → Except ExpansionError (List Argument × Nat)
  | [], _, captured => .ok ([], captured)
  | param :: rest, index, captured => do
      let (arg, captured) ←
        match rules.role symbol index param with
        | .quote => pure (.quote (root.withSequence index), captured)
        | .capture => do
            let arg ← capture symbol param root.site captured source
            pure (arg, captured + 1)
        | .default value => pure (.constant value, captured)
        | .argument => do
            let arg ← rules.supplied symbol index param root.site source
            pure (arg, captured)
      let (args, captured) ← rules.bindParams symbol root source rest (index + 1) captured
      return (arg :: args, captured)

/-- Binds the arguments of a call; `none` when the call forwards an ambient quote. -/
def bind (rules : BindingRules) (symbol : MethodSymbol) (site : Site)
    (source : Option SourceText) : Except ExpansionError (Option BoundCall) := do
  -- such a call is expanded where the function around it is called
  if rules.forwardsAmbientQuote symbol site then return none
  let (buffer, buffers) := Buffers.create {}
  let root := Quote.of site buffer
  let (args, captured) ← rules.bindParams symbol root source symbol.params 0 0
  let placeholders :=
    ((symbol.params.zip args).filter fun (_, arg) => arg == .missing).map fun (param, _) => param.name
  return some { symbol, site, args, buffers, buffer, captured, placeholders }

end BindingRules

end MacroExpansion
