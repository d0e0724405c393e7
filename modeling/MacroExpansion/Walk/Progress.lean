import MacroExpansion.Call.Registry
import MacroExpansion.Call.TypeArguments
import MacroExpansion.Diagnostic.Record
import MacroExpansion.Walk.Trace

/-! # Expanding one call

The settings of an expansion, the state that it carries from call to call, and the way of one bound
call: warnings for placeholders, the implementation, the type arguments, the macro body, and the
placement of its output. -/

namespace MacroExpansion

/-- What an expansion is made with. -/
structure Expander where
  /-- What calls bind to. -/
  model : SemanticModel
  /-- How markers are found. -/
  markers : MarkerLookup := .stored
  /-- How types are known at run time. -/
  metadata : TypeMetadata := .byName
  /-- The settings. -/
  config : ExpansionConfig := {}

/-- How calls are bound. -/
def Expander.rules (expander : Expander) : BindingRules where
  model := expander.model
  markers := expander.markers
  missing := expander.config.missingArguments

/-- The file that is expanded. -/
structure FileOrigin where
  /-- Its path. -/
  path : String
  /-- Its text, if the host kept it. -/
  text : Option String

/-- The text that errors of the file show. -/
def FileOrigin.source (file : FileOrigin) : Option SourceText :=
  file.text.map fun text => { name := file.path, text }

/-- What lasts from one file to the next. -/
structure Workspace (σ : Type) where
  /-- The session of the macro bodies. -/
  session : Session σ
  /-- The implementations of the macros. -/
  registry : Registry σ := {}

/-- What an expansion has brought about so far. -/
structure Progress (σ : Type) extends Workspace σ where
  /-- One step per expanded call. -/
  trace : Array ExpansionStep := #[]
  /-- The warnings so far. -/
  warnings : Array DiagnosticRecord := #[]

/-- Programs that expand code. An error keeps what was brought about before it. -/
abbrev ExpandM (σ : Type) := ExceptT Stop (StateM (Progress σ))

namespace ExpandM

variable {σ : Type}

/-- Ends the expansion by an error. -/
def fail (error : ExpansionError) : ExpandM σ α :=
  throw (.error error)

/-- Goes on with a value, or ends the expansion by the error in its place. -/
def require : Except ExpansionError α → ExpandM σ α
  | .ok value => pure value
  | .error error => fail error

/-- Gives every error of a program a place, where it has none. -/
def located (span : Span) (source : Option SourceText) (program : ExpandM σ α) : ExpandM σ α :=
  program.adapt fun
    | .error error => .error (error.located span source)
    | stop => stop

/-- Ends the expansion when the host has asked for it. -/
def checkCancelled : ExpandM σ Unit := do
  if (← get).session.cancelled then fail .cancelled

/-- The implementation that a macro leads to. -/
def resolve (symbol : MethodSymbol) (site : Site) (source : Option SourceText) :
    ExpandM σ (Implementation σ) := do
  let progress ← get
  let (found, registry) := progress.registry.resolve symbol site source
  set { progress with registry }
  require found

/-- Runs a macro body. Gives what it wrote to a buffer, and what it asked for through the call
binding. -/
def runBody (implementation : Implementation σ) (invocation : Invocation) (config : ExpansionConfig)
    (source : Option SourceText) (buffers : Buffers) (buffer : BufferId) :
    ExpandM σ (List Fragment × List Fragment) := do
  let progress ← get
  let invoked := invoke implementation invocation config source buffers progress.session
  set { progress with session := invoked.session }
  let requested ← liftExcept invoked.outcome
  return (invoked.buffers.fragments buffer, requested)

/-- Adds to the warnings. -/
def warn (records : List DiagnosticRecord) : ExpandM σ Unit :=
  modify fun progress => { progress with warnings := progress.warnings ++ records }

/-- Adds to the trace. -/
def record (step : ExpansionStep) : ExpandM σ Unit :=
  modify fun progress => { progress with trace := progress.trace.push step }

end ExpandM

/-- The code of the warning about a placeholder. -/
def placeholderCode : String := "stagecraft::placeholder"

/-- The warnings about the parameters that received a placeholder. -/
def BoundCall.placeholderWarnings (bound : BoundCall) : List DiagnosticRecord :=
  bound.placeholders.map fun parameter =>
    .warning placeholderCode
      ("macro '" ++ bound.symbol.qualifiedName ++ "' received no argument for parameter '"
        ++ parameter ++ "'")
      bound.site.file bound.site.call.span

/-- The output of a macro, which may come through its quotes or through the call binding. -/
def BoundCall.output (bound : BoundCall) (written requested : List Fragment) :
    Except Fault (List Fragment) :=
  if requested.isEmpty then .ok written
  else if written.isEmpty then .ok requested
  else .error (.bothChannels bound.symbol.qualifiedName)

/-- A fault of a call as an error at the call. -/
def BoundCall.atCall (bound : BoundCall) (source : Option SourceText) (result : Except Fault α) :
    Except ExpansionError α :=
  result.mapError (.atSpan · bound.site.call.span source)

/-- Expands a bound call. -/
def Expander.expandCall {σ : Type} (expander : Expander) (source : Option SourceText)
    (bound : BoundCall) : ExpandM σ Placement := do
  -- the warnings stay when the expansion fails later on
  ExpandM.warn bound.placeholderWarnings
  let implementation ← ExpandM.resolve bound.symbol bound.site source
  let typeArgs ←
    ExpandM.require (resolveTypeArgs bound.symbol bound.site expander.metadata source)
  let (written, requested) ←
    ExpandM.runBody implementation { site := bound.site, args := bound.args, typeArgs } expander.config
      source bound.buffers bound.buffer
  let fragments ← ExpandM.require (bound.atCall source (bound.output written requested))
  let placement ← ExpandM.require (bound.atCall source (bound.place fragments))
  if expander.config.recordTrace then
    ExpandM.record
      { macroName := bound.symbol.qualifiedName
        span := bound.site.call.span
        call := bound.site.call.text
        fragments := fragments.map Fragment.text
        splice := placement.kind }
  return placement

end MacroExpansion
