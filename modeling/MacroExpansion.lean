import MacroExpansion.Config.Read
import MacroExpansion.Expansion.Files
import MacroExpansion.Json.Printer
import MacroExpansion.Proofs.Fixpoint
import MacroExpansion.Proofs.RaisedLimit
import MacroExpansion.Proofs.Reproduction
import MacroExpansion.Proofs.SeenFunction
import MacroExpansion.Proofs.WalkSpec
import MacroExpansion.Proofs.Worklist
import MacroExpansion.Scripted.Codec
import MacroExpansion.Scripted.Perform
import MacroExpansion.StandardMacros
import MacroExpansion.Symbol.Codec
import MacroExpansion.Proofs.CallOutcome
import MacroExpansion.Proofs.Reporting
import MacroExpansion.Proofs.CallCount
import MacroExpansion.Proofs.DepthLimit
import MacroExpansion.Proofs.Forwarding
import MacroExpansion.Proofs.CallsInPlace
import MacroExpansion.Proofs.Idempotence
import MacroExpansion.Proofs.Reentry
import MacroExpansion.Proofs.Composition
import MacroExpansion.Proofs.TraceSwitch
import MacroExpansion.Proofs.Rewriting
import MacroExpansion.Proofs.Observation
import MacroExpansion.Proofs.Placeholders
import MacroExpansion.Proofs.FileIndependence
import MacroExpansion.Proofs.FunctionReplacement
import MacroExpansion.Proofs.Declarations
import MacroExpansion.Proofs.Discovery
import MacroExpansion.Proofs.JsonForms
import MacroExpansion.Proofs.TreeForms
import MacroExpansion.Proofs.RoundTrip
import MacroExpansion.Proofs.SplicedPositions
import MacroExpansion.Proofs.ClippedSplices
import MacroExpansion.Proofs.ArgumentPositions
import MacroExpansion.Proofs.OutputEffect
import MacroExpansion.Proofs.CallReplacement
import MacroExpansion.Proofs.RuntimeTypes
import MacroExpansion.Proofs.PlaceNames
import MacroExpansion.Proofs.BodyPlaces
import MacroExpansion.Proofs.SingleStatement
import MacroExpansion.Proofs.StatementCopies
import MacroExpansion.Proofs.Cancellation
import MacroExpansion.Proofs.NearestMember
import MacroExpansion.Proofs.OperationTexts
import MacroExpansion.Proofs.QuoteStreams
import MacroExpansion.Proofs.RepeatedStatements
import MacroExpansion.Proofs.ControlTexts
import MacroExpansion.Proofs.DeclaredDefaults
import MacroExpansion.Proofs.StringifiedText
import MacroExpansion.Proofs.CallPositions
