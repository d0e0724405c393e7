import MacroExpansion.Symbol.Basic
import MacroExpansion.Tree.Codec

/-! # Symbols as JSON

Markers, and the description of a symbol by which hosts show it. The identity of a symbol is not
part of its description. -/

namespace MacroExpansion

namespace Marker

/-- The JSON form of a marker. -/
def toJson : Marker → Json
  | .macroFunction => .string "Macro"
  | .quoteParameter => .string "QuoteParameter"
  | .other name => .object [("Other", .string name)]

/-- Reads a marker. -/
def ofJson? (json : Json) : Option Marker :=
  match json.variant? with
  | some ("Macro", .null) => some .macroFunction
  | some ("QuoteParameter", .null) => some .quoteParameter
  | some ("Other", .string name) => some (.other name)
  | _ => none

/-- A marker is read as it was written. -/
@[simp] theorem ofJson?_toJson (marker : Marker) : ofJson? marker.toJson = some marker := by
  cases marker <;> rfl

end Marker

/-- The description of a parameter. -/
def ParameterSymbol.toJson (param : ParameterSymbol) : Json :=
  .object [("name", .string param.name), ("ty", param.type.toJson),
    ("default", match param.default with | some value => value.toJson | none => .null),
    ("markers", .array (param.markers.map Marker.toJson))]

/-- The description of a function. -/
def MethodSymbol.toJson (symbol : MethodSymbol) : Json :=
  .object [("declaring_type", .string symbol.declaringType), ("name", .string symbol.name),
    ("is_static", .bool symbol.isStatic),
    ("type_params", .array (symbol.typeParams.map .string)),
    ("params", .array (symbol.params.map ParameterSymbol.toJson)),
    ("return_type", symbol.returnType.toJson),
    ("markers", .array (symbol.markers.map Marker.toJson))]

end MacroExpansion
