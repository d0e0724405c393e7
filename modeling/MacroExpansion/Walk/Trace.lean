import MacroExpansion.Walk.Placement

/-! # The trace

One step for every expanded call, in the order in which the calls were expanded. -/

namespace MacroExpansion

/-- One expanded call. -/
structure ExpansionStep where
  /-- The qualified name of the macro. -/
  macroName : String
  /-- Where the call is written. -/
  span : Span
  /-- The text of the call when it was expanded. -/
  call : String
  /-- The texts of the fragments that the macro produced. -/
  fragments : List String
  /-- How they were placed. -/
  splice : SpliceKind
  deriving DecidableEq, Repr, Inhabited

namespace ExpansionStep

/-- The JSON form of a step. -/
def toJson (step : ExpansionStep) : Json :=
  .object [("macro_name", .string step.macroName), ("span", step.span.toJson),
    ("call", .string step.call), ("fragments", .array (step.fragments.map .string)),
    ("splice", step.splice.toJson)]

/-- Reads a step. -/
def ofJson? (json : Json) : Option ExpansionStep := do
  let [macroName, span, call, fragments, splice]
    ← json.record? ["macro_name", "span", "call", "fragments", "splice"] | none
  return ⟨← (← macroName).asString?, ← Span.ofJson? (← span), ← (← call).asString?,
    ← (← fragments).asListOf? Json.asString?, ← SpliceKind.ofJson? (← splice)⟩

end ExpansionStep

end MacroExpansion
