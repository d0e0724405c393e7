import MacroExpansion.Call.Invocation
import MacroExpansion.Symbol.Signature
import MacroExpansion.Keyed

/-! # The registry of implementations

Implementations are registered under signatures. The first time a symbol is looked up its signature
is matched, and the match is remembered for the symbol's identity: later registrations no longer
change what the symbol leads to. -/

namespace MacroExpansion

/-- Registered implementations, and those that symbols have been matched with. -/
structure Registry (σ : Type) where
  /-- The current implementation of every signature. -/
  implementations : Keyed MacroSignature (Implementation σ) := []
  /-- The implementations that symbols were matched with, by identity. -/
  discovered : Keyed SymbolId (Implementation σ) := []
  deriving Inhabited

namespace Registry

variable {σ : Type}

/-- The implementation of a signature. -/
def find? (registry : Registry σ) (signature : MacroSignature) : Option (Implementation σ) :=
  registry.implementations.lookup signature

/-- Whether a signature has an implementation. -/
def contains (registry : Registry σ) (signature : MacroSignature) : Bool :=
  (registry.find? signature).isSome

/-- The number of signatures that have an implementation. -/
def size (registry : Registry σ) : Nat :=
  registry.implementations.length

/-- Registers an implementation in place of the one with that signature, if there is one. -/
def register (registry : Registry σ) (signature : MacroSignature)
    (implementation : Implementation σ) : Registry σ :=
  { registry with implementations := registry.implementations.put signature implementation }

/-- Registers a body as the implementation of a symbol, under the symbol's qualified name. -/
def registerBody (registry : Registry σ) (symbol : MethodSymbol)
    (body : Invocation → BodyM σ Unit) : Registry σ :=
  registry.register (.of symbol) { name := symbol.qualifiedName, body }

/-- The implementation that a symbol leads to, and the registry that remembers it. -/
def discover (registry : Registry σ) (symbol : MethodSymbol) :
    Option (Implementation σ) × Registry σ :=
  -- what was once found for a symbol stays, whatever is registered later
  match registry.discovered.lookup symbol.id with
  | some implementation => (some implementation, registry)
  | none =>
      match registry.find? (.of symbol) with
      | some implementation =>
          (some implementation,
            { registry with discovered := registry.discovered.put symbol.id implementation })
      | none => (none, registry)

/-- The implementation that a symbol leads to, or an error at the call. -/
def resolve (registry : Registry σ) (symbol : MethodSymbol) (site : Site)
    (source : Option SourceText) : Except ExpansionError (Implementation σ) × Registry σ :=
  match registry.discover symbol with
  | (some implementation, registry) => (.ok implementation, registry)
  | (none, registry) =>
      (.error (.atSpan (.noImplementation (MacroSignature.of symbol).text) site.call.span source),
        registry)

end Registry

end MacroExpansion
