import MacroExpansion.Json.Basic

/-! # Fields with defaults

Records that people write by hand leave out what they do not need. A field that is missing or null
stands for a default. -/

namespace MacroExpansion

namespace Json

/-- A field that is neither missing nor null. -/
def given? (json : Json) (key : String) : Option Json :=
  match json.field? key with
  | some .null => none
  | other => other

/-- A field, or null if it is missing. -/
def at? (json : Json) (key : String) : Json :=
  (json.field? key).getD .null

/-- A text; empty if it is not given. -/
def textAt (json : Json) (key : String) : String :=
  ((json.given? key).bind asString?).getD ""

/-- A size; zero if it is not given. -/
def sizeAt (json : Json) (key : String) : Nat :=
  ((json.given? key).bind asSize?).getD 0

/-- An integer; zero if it is not given. -/
def int64At (json : Json) (key : String) : Int64 :=
  ((json.given? key).bind asInt64?).getD 0

/-- A truth value; `base` if it is not given. -/
def flagAt (json : Json) (key : String) (base : Bool := false) : Bool :=
  ((json.given? key).bind asBool?).getD base

/-- The items of a sequence; none if it is not given. -/
def itemsAt (json : Json) (key : String) : List Json :=
  ((json.given? key).bind asArray?).getD []

/-- The texts in a sequence; none if it is not given. -/
def textsAt (json : Json) (key : String) : List String :=
  (json.itemsAt key).filterMap asString?

/-- The fields of an object; none if it is not given. -/
def fieldsAt (json : Json) (key : String) : List (String × Json) :=
  ((json.given? key).bind asObject?).getD []

/-- A part that need not be given, but has to be readable if it is. -/
def partAt? (read : Json → Option α) (json : Json) (key : String) : Option (Option α) :=
  optional? read (json.field? key)

/-- A sequence that need not be given, but whose items have to be readable. -/
def listAt? (read : Json → Option α) (json : Json) (key : String) : Option (List α) :=
  (json.itemsAt key).mapM read

end Json

end MacroExpansion
