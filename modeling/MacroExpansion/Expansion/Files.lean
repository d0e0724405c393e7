import MacroExpansion.Expansion.File

/-! # Expanding files for a host

Files are expanded one after the other, and a sink receives what a host has to be told. A file
counts as a whole: its warnings are reported only if it was expanded, a failed file is reported by
one error, and a cancelled one by nothing. A panic that is not caught goes through to the host. -/

namespace MacroExpansion

/-- What lasts while files are expanded. -/
structure ReportingWorkspace (σ : Type) extends Workspace σ where
  /-- The reports so far. -/
  sink : DiagnosticSink := {}

namespace Expander

variable {σ : Type}

/-- Expands a file; there is no result when it failed or was cancelled. -/
def expandFile (expander : Expander) (tree : SyntaxTree) (reporting : ReportingWorkspace σ) :
    Except Stop (Option SyntaxTree) × ReportingWorkspace σ :=
  let (outcome, workspace) := expander.expand tree reporting.toWorkspace
  let reporting := { reporting with toWorkspace := workspace }
  match outcome with
  | .ok expansion =>
      (.ok (some expansion.tree),
        { reporting with sink := reporting.sink.reportAll expansion.warnings })
  | .error (.error .cancelled) => (.ok none, reporting)
  | .error (.error (.failed failure)) =>
      (.ok none,
        { reporting with sink := reporting.sink.report (.ofError (.failed failure) tree.path) })
  | .error stop => (.error stop, reporting)

/-- Expands files in order. A file that fails does not keep the others from being expanded. -/
def expandFiles (expander : Expander) (reporting : ReportingWorkspace σ) :
    List SyntaxTree → Except Stop (List (Option SyntaxTree)) × ReportingWorkspace σ
  | [] => (.ok [], reporting)
  | tree :: rest =>
      match expander.expandFile tree reporting with
      | (.error stop, reporting) => (.error stop, reporting)
      | (.ok first, reporting) =>
          let (others, reporting) := expander.expandFiles reporting rest
          (others.map (first :: ·), reporting)

end Expander

end MacroExpansion
