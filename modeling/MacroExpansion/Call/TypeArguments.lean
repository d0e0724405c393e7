import MacroExpansion.Call.Site
import MacroExpansion.Symbol.Basic
import MacroExpansion.Diagnostic.Error

/-! # Type arguments

The type arguments of a call are handed to the macro as runtime types. Their number has to fit the
declaration, and each of them has to be known at run time. -/

namespace MacroExpansion

/-- The runtime type of a type, if it is known at run time. -/
abbrev TypeMetadata := TypeRef → Option String

namespace TypeMetadata

/-- Every type is known by its name, unless it is a type parameter or not written at all. -/
def byName : TypeMetadata
  | .generic _ | .inferred => none
  | type => some type.name

/-- The types of a list are known, each by its name. -/
def listed (known : List (String × String)) : TypeMetadata :=
  fun type => known.lookup type.name

end TypeMetadata

/-- The runtime types of the type arguments of a call. -/
def resolveTypeArgs (symbol : MethodSymbol) (site : Site) (metadata : TypeMetadata)
    (source : Option SourceText) : Except ExpansionError (List String) :=
  let supplied := site.call.typeArgs
  if supplied.length ≠ symbol.arity then
    .error (.atSpan (.typeArgumentCount symbol.qualifiedName symbol.arity supplied.length)
      site.call.span source)
  else
    supplied.mapM fun type =>
      match metadata type with
      | some runtimeType => .ok runtimeType
      | none =>
          .error (.atSpan (.typeArgumentUnresolved type.name symbol.qualifiedName)
            site.call.span source)

end MacroExpansion
