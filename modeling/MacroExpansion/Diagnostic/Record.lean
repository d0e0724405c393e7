import MacroExpansion.Diagnostic.Error
import MacroExpansion.Tree.Codec

/-! # Diagnostic records

Errors and warnings in the form in which a host receives them, and the sink that collects them. -/

namespace MacroExpansion

/-- How serious a diagnostic is. -/
inductive Severity where
  /-- The file was not expanded. -/
  | error
  /-- The file was expanded, but something looks wrong. -/
  | warning
  /-- A remark. -/
  | info
  deriving DecidableEq, Repr, Inhabited

/-- A place in a file. -/
structure Location where
  /-- The path of the file. -/
  file : String
  /-- The place in it. -/
  span : Span
  deriving DecidableEq, Repr, Inhabited

/-- A diagnostic as handed to the host. -/
structure DiagnosticRecord where
  /-- How serious it is. -/
  severity : Severity
  /-- Its stable code. -/
  code : String
  /-- Its wording. -/
  message : String
  /-- Where it applies, if that is known. -/
  location : Option Location
  deriving DecidableEq, Repr, Inhabited

namespace DiagnosticRecord

/-- The record of an error in a file. -/
def ofError (error : ExpansionError) (file : String) : DiagnosticRecord where
  severity := .error
  code := error.kind.code
  message := error.text
  location := error.span?.map fun span => { file, span }

/-- The record of a warning in a file. -/
def warning (code message file : String) (span : Span) : DiagnosticRecord where
  severity := .warning
  code
  message
  location := some { file, span }

end DiagnosticRecord

/-- The diagnostics received so far, in order. -/
structure DiagnosticSink where
  /-- The records, oldest first. -/
  records : List DiagnosticRecord := []
  deriving Inhabited

namespace DiagnosticSink

/-- Receives one record. -/
def report (sink : DiagnosticSink) (record : DiagnosticRecord) : DiagnosticSink :=
  { records := sink.records ++ [record] }

/-- Receives records in order. -/
def reportAll (sink : DiagnosticSink) (records : List DiagnosticRecord) : DiagnosticSink :=
  records.foldl report sink

/-- The errors among the records. -/
def errors (sink : DiagnosticSink) : List DiagnosticRecord :=
  sink.records.filter (·.severity == .error)

/-- Records are kept in the order in which they arrive. -/
@[simp] theorem records_reportAll (sink : DiagnosticSink) (records : List DiagnosticRecord) :
    (sink.reportAll records).records = sink.records ++ records := by
  induction records generalizing sink with
  | nil => simp [reportAll]
  | cons record rest ih =>
    have := ih (sink.report record)
    simp_all [reportAll, report]

end DiagnosticSink

/-! ## JSON forms -/

namespace Severity

/-- The name of a severity. -/
def toJson : Severity → Json
  | .error => .string "Error"
  | .warning => .string "Warning"
  | .info => .string "Info"

/-- Reads a severity. -/
def ofJson? (json : Json) : Option Severity :=
  match json.variant? with
  | some ("Error", .null) => some .error
  | some ("Warning", .null) => some .warning
  | some ("Info", .null) => some .info
  | _ => none

end Severity

namespace Location

/-- The JSON form of a place. -/
def toJson (location : Location) : Json :=
  .object [("file", .string location.file), ("span", location.span.toJson)]

/-- Reads a place. -/
def ofJson? (json : Json) : Option Location := do
  let [file, span] ← json.record? ["file", "span"] | none
  return ⟨← (← file).asString?, ← Span.ofJson? (← span)⟩

end Location

namespace DiagnosticRecord

/-- The JSON form of a record. -/
def toJson (record : DiagnosticRecord) : Json :=
  .object [("severity", record.severity.toJson), ("code", .string record.code),
    ("message", .string record.message),
    ("location", match record.location with | some place => place.toJson | none => .null)]

/-- Reads a record. -/
def ofJson? (json : Json) : Option DiagnosticRecord := do
  let [severity, code, message, location]
    ← json.record? ["severity", "code", "message", "location"] | none
  return ⟨← Severity.ofJson? (← severity), ← (← code).asString?, ← (← message).asString?,
    ← Json.optional? Location.ofJson? location⟩

end DiagnosticRecord

end MacroExpansion
