/-! # Type references

Types as written in declarations and in the type arguments of a call. -/

namespace MacroExpansion

/-- A type as written in source. -/
inductive TypeRef where
  /-- No value. -/
  | void
  /-- Whole numbers. -/
  | int
  /-- Truth values. -/
  | bool
  /-- Text. -/
  | string
  /-- Any value. -/
  | object
  /-- A statement handed to a macro as a value. -/
  | statement
  /-- A block handed to a macro as a value. -/
  | block
  /-- The quote context without a result type. -/
  | quote
  /-- The quote context of a call that yields a `result`. -/
  | quoteOf (result : TypeRef)
  /-- A type known by its name. -/
  | named (name : String)
  /-- A type parameter of the enclosing declaration. -/
  | generic (name : String)
  /-- No type was written. -/
  | inferred
  deriving DecidableEq, Repr, Inhabited

namespace TypeRef

/-- Surface text of a type, which is also the name that signatures are matched by. -/
def name : TypeRef → String
  | .void => "void"
  | .int => "int"
  | .bool => "bool"
  | .string => "string"
  | .object => "object"
  | .statement => "Statement"
  | .block => "Block"
  | .quote => "Quote"
  | .quoteOf result => "Quote<" ++ result.name ++ ">"
  | .named name => name
  | .generic name => name
  | .inferred => "var"

/-- Quote types mark the parameters through which a macro writes its output. -/
def isQuote : TypeRef → Bool
  | .quote | .quoteOf _ => true
  | _ => false

/-- The type of functions without a result. -/
def isVoid : TypeRef → Bool
  | .void => true
  | _ => false

/-- Parameters of these types capture the statement that follows the call. -/
def isCapture : TypeRef → Bool
  | .statement | .block => true
  | _ => false

end TypeRef

end MacroExpansion
