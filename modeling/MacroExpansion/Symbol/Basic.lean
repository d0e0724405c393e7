import MacroExpansion.Tree.Basic

/-! # Symbols

A symbol is a declaration as the semantic model knows it: where it is declared, its parameters with
their constant defaults, and the markers that opt it into macro roles. -/

namespace MacroExpansion

/-- The identity of a bound declaration. -/
structure SymbolId where
  /-- A number that no other declaration has. -/
  value : Nat
  deriving DecidableEq, Repr, Inhabited

/-- An annotation of a declaration. -/
inductive Marker where
  /-- The function is a macro even without a quote parameter. -/
  | macroFunction
  /-- The parameter receives the quote context whatever its type. -/
  | quoteParameter
  /-- An annotation without a role in expansion. -/
  | other (name : String)
  deriving DecidableEq, Repr, Inhabited

/-- The marker that an attribute name stands for. -/
def Marker.ofAttribute (name : String) : Marker :=
  if name = "Macro" then .macroFunction
  else if name = "Quote" ∨ name = "QuoteParameter" then .quoteParameter
  else .other name

/-- A parameter of a bound declaration. -/
structure ParameterSymbol where
  /-- The declared name. -/
  name : String
  /-- The declared type. -/
  type : TypeRef
  /-- The declared default, if it is a constant. -/
  default : Option Literal := none
  /-- Annotations of the parameter. -/
  markers : List Marker := []
  deriving DecidableEq, Repr, Inhabited

/-- A quote parameter that callers leave out. -/
def ParameterSymbol.quote (name : String) : ParameterSymbol :=
  { name, type := .quote, default := some .null }

/-- Parameters that take a following statement of the call instead of an argument. -/
def ParameterSymbol.isCapture (param : ParameterSymbol) : Bool :=
  param.default.isSome && param.type.isCapture

/-- A bound function declaration. -/
structure MethodSymbol where
  /-- Its identity. -/
  id : SymbolId
  /-- The type that declares it. -/
  declaringType : String
  /-- The declared name. -/
  name : String
  /-- Functions that need no instance are static. -/
  isStatic : Bool := true
  /-- Names of the type parameters. -/
  typeParams : List String := []
  /-- Parameters, in order. -/
  params : List ParameterSymbol := []
  /-- The result type. -/
  returnType : TypeRef := .void
  /-- Annotations of the function. -/
  markers : List Marker := []
  deriving DecidableEq, Repr, Inhabited

namespace MethodSymbol

/-- The path by which calls reach a static function. -/
def qualifiedName (symbol : MethodSymbol) : String :=
  symbol.declaringType ++ "." ++ symbol.name

/-- The number of type parameters. -/
def arity (symbol : MethodSymbol) : Nat :=
  symbol.typeParams.length

/-- Calls of functions with a result stand for a value. -/
def hasResult (symbol : MethodSymbol) : Bool :=
  !symbol.returnType.isVoid

/-- The symbol of a declaration in source. Only constant defaults are kept. -/
def ofDecl (id : SymbolId) (declaringType : String) (decl : FunctionDecl) : MethodSymbol where
  id
  declaringType
  name := decl.name
  isStatic := decl.isStatic
  typeParams := decl.typeParams
  params := decl.params.map fun param =>
    { name := param.name, type := param.type, default := param.default.bind Expr.asLiteral? }
  returnType := decl.returnType
  markers := decl.attributes.map Marker.ofAttribute

end MethodSymbol

/-- How the markers of functions and of their parameters are found. -/
structure MarkerLookup where
  /-- Markers of a function. -/
  ofMethod : MethodSymbol → List Marker
  /-- Markers of the parameter at a position. -/
  ofParameter : MethodSymbol → Nat → List Marker

namespace MarkerLookup

/-- The markers stored on the symbols themselves; past the last parameter there are none. -/
def stored : MarkerLookup where
  ofMethod symbol := symbol.markers
  ofParameter symbol index :=
    match symbol.params[index]? with
    | some param => param.markers
    | none => []

instance : Inhabited MarkerLookup := ⟨stored⟩

/-- A lookup in which some functions and parameters have other markers. A function is listed under
its qualified name, a parameter under that name with a number sign and its position. -/
def withOverrides (base : MarkerLookup) (overrides : List (String × List Marker)) :
    MarkerLookup where
  ofMethod symbol := (overrides.lookup symbol.qualifiedName).getD (base.ofMethod symbol)
  ofParameter symbol index :=
    (overrides.lookup (symbol.qualifiedName ++ "#" ++ toString index)).getD
      (base.ofParameter symbol index)

end MarkerLookup

/-- What a host tells about the code that is expanded. -/
structure SemanticModel where
  /-- The declaration that a call binds to. -/
  bindCall : Call → Option MethodSymbol
  /-- The symbol of a function declared in the file. -/
  declaredSymbol : FunctionDecl → Option MethodSymbol
  /-- The value of an expression that is known before the program runs. -/
  constantValue : Expr → Option Literal := Expr.asLiteral?

namespace SemanticModel

/-- A model in which some plain names have constant values. -/
def withConstants (model : SemanticModel) (constants : List (String × Literal)) : SemanticModel :=
  { model with
    constantValue := fun expr =>
      (expr.asName?.bind (List.lookup · constants)).or (model.constantValue expr) }

/-- A model that knows no declarations of the file. -/
def withoutDeclarations (model : SemanticModel) : SemanticModel :=
  { model with declaredSymbol := fun _ => none }

end SemanticModel

end MacroExpansion
