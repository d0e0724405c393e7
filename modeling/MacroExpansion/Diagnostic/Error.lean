import MacroExpansion.Span

/-! # Expansion errors

Everything that can go wrong while a file is expanded is one cause of an inductive type, and its
wording stands in one place. An error is a cause with the place it is reported at; cancellation is
not a failure and carries nothing. -/

namespace MacroExpansion

/-- The classes of errors. -/
inductive ErrorKind where
  /-- The arguments do not fit the parameters. -/
  | binding
  /-- The macro body failed. -/
  | invocation
  /-- The macro produced what its call cannot become. -/
  | contract
  /-- No implementation or runtime type was found. -/
  | resolution
  /-- A limit or an invariant of the engine. -/
  | internal
  /-- The host stopped the expansion. -/
  | cancelled
  deriving DecidableEq, Repr, Inhabited

namespace ErrorKind

/-- The name of a class. -/
def name : ErrorKind → String
  | .binding => "Binding"
  | .invocation => "Invocation"
  | .contract => "Contract"
  | .resolution => "Resolution"
  | .internal => "Internal"
  | .cancelled => "Cancelled"

/-- The stable code that records carry. -/
def code : ErrorKind → String
  | .binding => "stagecraft::binding"
  | .invocation => "stagecraft::invocation"
  | .contract => "stagecraft::contract"
  | .resolution => "stagecraft::resolution"
  | .internal => "stagecraft::internal"
  | .cancelled => "stagecraft::cancelled"

end ErrorKind

/-- What went wrong. Macros and functions are given by the names that messages show. -/
inductive Fault where
  /-- A required parameter received no argument. -/
  | missingArgument (callee parameter : String)
  /-- A parameter captures the following statement, but the block ends. -/
  | nothingToCapture (callee parameter : String)
  /-- A parameter captures a block, but another statement follows. -/
  | blockRequired (callee parameter : String)
  /-- The macro body returned a failure. -/
  | bodyFailed (handle failure : String)
  /-- The macro body panicked, with a text if the payload was one. -/
  | bodyPanicked (handle : String) (payload : Option String)
  /-- The macro wrote through a quote and through the call binding. -/
  | bothChannels (callee : String)
  /-- The macro wrote nothing, but its call stands for a value. -/
  | valueMissing (callee : String)
  /-- The macro wrote nothing, but its call is not a whole statement. -/
  | statementMissing (callee : String)
  /-- The macro produced a function where no function encloses the call. -/
  | functionOutsideFunction (callee : String)
  /-- The macro produced a function and something else. -/
  | functionAmongOthers (callee : String)
  /-- No implementation has the signature of the declaration. -/
  | noImplementation (signature : String)
  /-- The call has the wrong number of type arguments. -/
  | typeArgumentCount (callee : String) (expected supplied : Nat)
  /-- A type argument is not known at run time. -/
  | typeArgumentUnresolved (type callee : String)
  /-- The expansions of one statement nest too deeply. -/
  | depthLimit (callee : String) (limit : Nat)
  /-- A bound call is not part of its statement. -/
  | callVanished (callee : String)
  /-- A replacing function left the function it should replace. -/
  | functionEscaped (name : String)
  /-- A function was replaced too often. -/
  | replacementLimit (name : String) (limit : Nat)
  /-- A macro body asked for a second call binding. -/
  | reentered (callee : String)
  /-- A replacement was given while no macro body runs. -/
  | noActiveCall
  /-- The settings cannot be read. -/
  | invalidConfig (reason : String)
  /-- An error of the host's own. -/
  | custom (kind : ErrorKind) (message : String)
  deriving DecidableEq, Repr

namespace Fault

/-- The class of a cause. -/
def kind : Fault → ErrorKind
  | .missingArgument .. | .nothingToCapture .. | .blockRequired .. => .binding
  | .bodyFailed .. | .bodyPanicked .. => .invocation
  | .bothChannels _ | .valueMissing _ | .statementMissing _ | .functionOutsideFunction _
  | .functionAmongOthers _ => .contract
  | .noImplementation _ | .typeArgumentCount .. | .typeArgumentUnresolved .. => .resolution
  | .depthLimit .. | .callVanished _ | .functionEscaped _ | .replacementLimit .. | .reentered _
  | .noActiveCall | .invalidConfig _ => .internal
  | .custom kind _ => kind

/-- The wording of a cause. -/
def message : Fault → String
  | .missingArgument callee parameter =>
      "macro '" ++ callee ++ "' requires an argument for parameter '" ++ parameter ++ "'"
  | .nothingToCapture callee parameter =>
      "macro '" ++ callee ++ "' captures the statement following its call for parameter '"
        ++ parameter ++ "', but none follows"
  | .blockRequired callee parameter =>
      "macro '" ++ callee ++ "' requires a block after its call for parameter '" ++ parameter
        ++ "', found a statement"
  | .bodyFailed handle failure => "macro '" ++ handle ++ "' failed: " ++ failure
  | .bodyPanicked handle payload =>
      "macro '" ++ handle ++ "' panicked: " ++ payload.getD "non-string panic payload"
  | .bothChannels callee =>
      "macro '" ++ callee ++ "' wrote through both its quote and the call binding"
  | .valueMissing callee =>
      "macro '" ++ callee ++ "' produced no code, but its call must produce a value"
  | .statementMissing callee =>
      "macro '" ++ callee ++ "' produced no code, but its call is part of a larger statement"
  | .functionOutsideFunction callee =>
      "macro '" ++ callee
        ++ "' produced a function declaration, but its call is not inside a function"
  | .functionAmongOthers callee =>
      "macro '" ++ callee ++ "' produced a function declaration among other fragments"
  | .noImplementation signature =>
      "no compiled implementation matches '" ++ signature ++ "'"
  | .typeArgumentCount callee expected supplied =>
      "macro '" ++ callee ++ "' takes " ++ toString expected
        ++ " type argument(s) but the call supplies " ++ toString supplied
  | .typeArgumentUnresolved type callee =>
      "cannot resolve type argument '" ++ type ++ "' of macro '" ++ callee ++ "'"
  | .depthLimit callee limit =>
      "expansion of '" ++ callee ++ "' exceeded the depth limit of " ++ toString limit
  | .callVanished callee =>
      "call '" ++ callee ++ "' vanished from its statement during expansion"
  | .functionEscaped name => "function '" ++ name ++ "' escaped its enclosing function"
  | .replacementLimit name limit =>
      "function '" ++ name ++ "' was replaced more than " ++ toString limit ++ " times"
  | .reentered callee =>
      "macro call '" ++ callee
        ++ "' entered the call binding while another invocation was active on this thread"
  | .noActiveCall => "no macro invocation is active on this thread"
  | .invalidConfig reason => "invalid expansion config: " ++ reason
  | .custom _ message => message

/-- The advice that comes with a cause. -/
def help? : Fault → Option String
  | .blockRequired .. => some "wrap the following statement in braces"
  | .valueMissing _ | .statementMissing _ =>
      some "produce the call's value with \x60Quote::result\x60"
  | .functionAmongOthers _ => some "a function declaration must be the only fragment"
  | .noImplementation _ =>
      some "the macro must be compiled and registered before the files that call it"
  | .depthLimit .. => some "a macro keeps producing calls to itself"
  | _ => none

/-- The text of the error that lies behind a cause. -/
def underlying? : Fault → Option String
  | .bodyFailed _ failure => some failure
  | .invalidConfig reason => some reason
  | _ => none

end Fault

/-- The text of a file under the name it is reported by. -/
structure SourceText where
  /-- The name of the file. -/
  name : String
  /-- Its text. -/
  text : String
  deriving DecidableEq, Repr, Inhabited

/-- A cause with the place it is reported at. -/
structure Failure where
  /-- What went wrong. -/
  fault : Fault
  /-- Where, if that is known. -/
  span : Option Span := none
  /-- The text around that place, if the host kept it. -/
  source : Option SourceText := none
  /-- Advice. -/
  help : Option String := fault.help?
  /-- The text of the error behind this one. -/
  cause : Option String := fault.underlying?
  deriving DecidableEq, Repr

/-- Why the expansion of a file ended without a result. -/
inductive ExpansionError where
  /-- It failed. -/
  | failed (failure : Failure)
  /-- The host stopped it. -/
  | cancelled
  deriving DecidableEq, Repr

namespace ExpansionError

/-- An error without a place. -/
def unlocated (fault : Fault) : ExpansionError :=
  .failed { fault }

/-- An error at a place. -/
def atSpan (fault : Fault) (span : Span) (source : Option SourceText) : ExpansionError :=
  .failed { fault, span := some span, source }

/-- What failed, if the expansion was not cancelled. -/
def failure? : ExpansionError → Option Failure
  | .failed failure => some failure
  | .cancelled => none

/-- The class of an error. -/
def kind : ExpansionError → ErrorKind
  | .failed failure => failure.fault.kind
  | .cancelled => .cancelled

/-- The wording of an error, without its class. -/
def message : ExpansionError → String
  | .failed failure => failure.fault.message
  | .cancelled => "expansion cancelled"

/-- The wording of an error after its class. -/
def text : ExpansionError → String
  | .failed failure => failure.fault.kind.name ++ " error: " ++ failure.fault.message
  | .cancelled => "Expansion cancelled"

/-- Where the error is reported. -/
def span? (error : ExpansionError) : Option Span :=
  error.failure?.bind (·.span)

/-- The advice that comes with the error. -/
def help? (error : ExpansionError) : Option String :=
  error.failure?.bind (·.help)

/-- The text of the error behind this one. -/
def cause? (error : ExpansionError) : Option String :=
  error.failure?.bind (·.cause)

/-- The text around the place of the error. -/
def source? (error : ExpansionError) : Option SourceText :=
  error.failure?.bind (·.source)

/-- Changes a failure and leaves a cancellation alone. -/
def modify (error : ExpansionError) (change : Failure → Failure) : ExpansionError :=
  match error with
  | .failed failure => .failed (change failure)
  | .cancelled => .cancelled

/-- Gives an error a place and a text, where it has none. -/
def located (error : ExpansionError) (span : Span) (source : Option SourceText) : ExpansionError :=
  error.modify fun failure =>
    { failure with span := failure.span.or (some span), source := failure.source.or source }

/-- Gives an error new advice. -/
def withHelp (error : ExpansionError) (help : String) : ExpansionError :=
  error.modify fun failure => { failure with help := some help }

/-- Gives an error a new error behind it. -/
def withCause (error : ExpansionError) (cause : String) : ExpansionError :=
  error.modify fun failure => { failure with cause := some cause }

/-- A place keeps its span when the error is located again. -/
@[simp] theorem span?_located_atSpan (fault : Fault) (span span' : Span)
    (source source' : Option SourceText) :
    ((ExpansionError.atSpan fault span source).located span' source').span? = some span := rfl

/-- A cancellation has no place to be reported at. -/
@[simp] theorem located_cancelled (span : Span) (source : Option SourceText) :
    cancelled.located span source = cancelled := rfl

end ExpansionError

/-- The part of the source text that a report points at. -/
structure Label where
  /-- What is said about it. -/
  text : String
  /-- Where it starts. -/
  offset : UInt64
  /-- Its length, at least one. -/
  length : Nat
  deriving DecidableEq, Repr

/-- The label of an error that has a place. An empty span is shown as one byte. -/
def ExpansionError.label? (error : ExpansionError) : Option Label :=
  error.span?.map fun span =>
    { text := error.message
      offset := span.start
      length := if span.isEmpty then 1 else span.length }

end MacroExpansion
