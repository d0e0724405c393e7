import MacroExpansion.Call.Registry
import MacroExpansion.Symbol.Table
import MacroExpansion.Tree.Build

/-! # Standard macros

The macros that come with the engine, declared on the type `Meta`:

* `static string FunctionName(Quote<string> quote = null)` becomes the name of the enclosing member.
* `[Macro] static string Here()` becomes the path of the file and the place of the call. It takes no
  quote and finds its call through the call binding.
* `static void Repeat(int count, Statement body = null, Quote quote = null)` becomes the following
  statement, `count` times.
* `static string Stringify(object value, Quote<string> quote = null)` becomes the text of its argument.
-/

namespace MacroExpansion

namespace StandardMacros

variable {σ : Type}

/-- The type that declares the standard macros. -/
def declaringType : String := "Meta"

/-- An optional quote parameter of a macro that yields a text. -/
def textQuote : ParameterSymbol :=
  { name := "quote", type := .quoteOf .string, default := some .null }

/-- The declaration of `FunctionName`. -/
def functionName (id : SymbolId) : MethodSymbol :=
  { id, declaringType, name := "FunctionName", params := [textQuote], returnType := .string }

/-- The declaration of `Here`. -/
def here (id : SymbolId) : MethodSymbol :=
  { id, declaringType, name := "Here", returnType := .string, markers := [.macroFunction] }

/-- The declaration of `Repeat`. -/
def repeatFollowing (id : SymbolId) : MethodSymbol :=
  { id, declaringType, name := "Repeat"
    params :=
      [{ name := "count", type := .int }, { name := "body", type := .statement, default := some .null },
        .quote "quote"] }

/-- The declaration of `Stringify`. -/
def stringify (id : SymbolId) : MethodSymbol :=
  { id, declaringType, name := "Stringify", params := [{ name := "value", type := .object }, textQuote]
    returnType := .string }

/-- `FunctionName` yields the name of the member around the call. -/
def expandFunctionName (invocation : Invocation) : BodyM σ Unit := do
  let quote ← BodyM.require invocation.quote
  BodyM.emit quote (.expr (.ofString quote.site.enclosing.memberName))

/-- `Here` yields the path of the file and the offset of the call. -/
def expandHere (_ : Invocation) : BodyM σ Unit := do
  match (← BodyM.binding).site? with
  | none => BodyM.fail "Here called outside a macro expansion"
  | some site =>
      BodyM.replaceWithExpression (.ofString (site.file ++ ":" ++ toString site.call.span.start))

/-- `Repeat` writes the captured statement as often as its first argument says. -/
def expandRepeat (invocation : Invocation) : BodyM σ Unit := do
  let count ← BodyM.require (invocation.int 0)
  if count < 0 then
    BodyM.fail ("Repeat count must not be negative, got " ++ toString count.toInt)
  let body ← BodyM.require (invocation.statement 1)
  let quote ← BodyM.require invocation.quote
  (List.replicate count.toInt.toNat body).forM fun stmt => BodyM.emit quote (.stmt stmt)

/-- `Stringify` yields the text of its argument. -/
def expandStringify (invocation : Invocation) : BodyM σ Unit := do
  match invocation.written? 0 with
  | none => BodyM.fail "Stringify needs an argument"
  | some expr => do
      let quote ← BodyM.require invocation.quote
      BodyM.emit quote (.expr (.ofString expr.text))

/-- The standard macros with their bodies; their identities are numbered from `firstId`. -/
def all (firstId : Nat) : List (MethodSymbol × (Invocation → BodyM σ Unit)) :=
  [(functionName ⟨firstId⟩, expandFunctionName), (here ⟨firstId + 1⟩, expandHere),
    (repeatFollowing ⟨firstId + 2⟩, expandRepeat), (stringify ⟨firstId + 3⟩, expandStringify)]

/-- The number of standard macros. -/
def count : Nat := 4

/-- Declares the standard macros. -/
def declareAll (firstId : Nat) (table : SymbolTable) : SymbolTable :=
  (all (σ := Unit) firstId).foldl (fun table (symbol, _) => table.declare symbol) table

/-- Registers the bodies of the standard macros. -/
def registerAll (firstId : Nat) (registry : Registry σ) : Registry σ :=
  (all firstId).foldl (fun registry (symbol, body) => registry.registerBody symbol body) registry

end StandardMacros

end MacroExpansion
