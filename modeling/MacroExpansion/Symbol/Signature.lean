import MacroExpansion.Symbol.Basic

/-! # Signatures

What an implementation must agree on with the declaration that it serves. -/

namespace MacroExpansion

/-- The shape of a function by which its implementation is found. -/
structure MacroSignature where
  /-- The declaring type. -/
  declaringType : String
  /-- The function's name. -/
  name : String
  /-- Whether it is static. -/
  isStatic : Bool
  /-- The number of type parameters. -/
  arity : Nat
  /-- The names of the parameter types, in order. -/
  parameterTypes : List String
  deriving DecidableEq, Repr, Inhabited

namespace MacroSignature

/-- The signature of a symbol. -/
def of (symbol : MethodSymbol) : MacroSignature where
  declaringType := symbol.declaringType
  name := symbol.name
  isStatic := symbol.isStatic
  arity := symbol.arity
  parameterTypes := symbol.params.map (·.type.name)

/-- Text of a signature; the number of type parameters follows a grave accent. -/
def text (signature : MacroSignature) : String :=
  (if signature.isStatic then "static " else "")
    ++ signature.declaringType ++ "." ++ signature.name
    ++ (if signature.arity > 0 then "\x60" ++ toString signature.arity else "")
    ++ "(" ++ ", ".intercalate signature.parameterTypes ++ ")"

end MacroSignature

end MacroExpansion
