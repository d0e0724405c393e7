/-! # Literals

Compile-time constants and their surface text. -/

namespace MacroExpansion

/-- A compile-time constant. Integers are signed 64-bit words. -/
inductive Literal where
  /-- An integer. -/
  | int (value : Int64)
  /-- A truth value. -/
  | bool (value : Bool)
  /-- A text. -/
  | string (value : String)
  /-- The absent value. -/
  | null
  deriving DecidableEq, Repr, Inhabited

namespace Literal

/-- Inside a string literal a quotation mark and a backslash are written after a backslash. -/
def escapeChar (c : Char) : List Char :=
  if c = '\\' then ['\\', '\\'] else if c = '"' then ['\\', '"'] else [c]

/-- The characters of a string literal between its quotation marks. -/
def escape (s : String) : String :=
  String.ofList (s.toList.flatMap escapeChar)

/-- A string as a literal: escaped and between quotation marks. -/
def quoted (s : String) : String :=
  "\"" ++ escape s ++ "\""

/-- Surface text of a literal. -/
def text : Literal → String
  | .int value => toString value.toInt
  | .bool true => "true"
  | .bool false => "false"
  | .string value => quoted value
  | .null => "null"

end Literal

end MacroExpansion
