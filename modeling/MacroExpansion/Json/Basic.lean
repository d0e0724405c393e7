/-! # JSON values

The data format in which trees, settings and diagnostics are exchanged. Objects keep their fields in
order. Numbers are integers of any size; a number written with a fraction or an exponent, or as
minus zero, keeps its text and is no integer. -/

namespace MacroExpansion

/-- A JSON value. -/
inductive Json where
  /-- The absent value. -/
  | null
  /-- A truth value. -/
  | bool (value : Bool)
  /-- An integer. -/
  | int (value : Int)
  /-- A number that is not an integer, as written. -/
  | decimal (text : String)
  /-- A text. -/
  | string (value : String)
  /-- A sequence. -/
  | array (items : List Json)
  /-- Named fields, in order. -/
  | object (fields : List (String × Json))
  deriving Inhabited

namespace Json

mutual

/-- How deeply the value nests; a value without parts has depth one. -/
def depth : Json → Nat
  | .array items => itemsDepth items + 1
  | .object fields => fieldsDepth fields + 1
  | _ => 1

/-- The greatest depth among items. -/
def itemsDepth : List Json → Nat
  | [] => 0
  | item :: rest => max item.depth (itemsDepth rest)

/-- The greatest depth among fields. -/
def fieldsDepth : List (String × Json) → Nat
  | [] => 0
  | (_, value) :: rest => max value.depth (fieldsDepth rest)

end

/-! ## Reading parts -/

/-- The truth value, if it is one. -/
def asBool? : Json → Option Bool
  | .bool value => some value
  | _ => none

/-- The integer, if it is one. -/
def asInt? : Json → Option Int
  | .int value => some value
  | _ => none

/-- The text, if it is one. -/
def asString? : Json → Option String
  | .string value => some value
  | _ => none

/-- The items, if it is a sequence. -/
def asArray? : Json → Option (List Json)
  | .array items => some items
  | _ => none

/-- The fields, if it is an object. -/
def asObject? : Json → Option (List (String × Json))
  | .object fields => some fields
  | _ => none

/-- The value of a field of an object. -/
def field? (json : Json) (key : String) : Option Json :=
  json.asObject?.bind (List.lookup key)

/-- A signed 64-bit integer. -/
def asInt64? (json : Json) : Option Int64 :=
  json.asInt?.bind fun n =>
    if -9223372036854775808 ≤ n ∧ n ≤ 9223372036854775807 then some (Int64.ofInt n) else none

/-- An unsigned integer below `2 ^ 64`. -/
def asSize? (json : Json) : Option Nat :=
  json.asInt?.bind fun n => if 0 ≤ n ∧ n < 18446744073709551616 then some n.toNat else none

/-- An unsigned 64-bit integer. -/
def asUInt64? (json : Json) : Option UInt64 :=
  json.asSize?.map UInt64.ofNat

/-- A sequence whose items are all read by `read`. -/
def asListOf? (read : Json → Option α) (json : Json) : Option (List α) :=
  json.asArray?.bind (·.mapM read)

/-- The named fields of an object, each if it is there. Other fields do not matter. -/
def fields? (names : List String) (json : Json) : Option (List (Option Json)) :=
  json.asObject?.map fun fields => names.map fun name => List.lookup name fields

/-- The named parts of a record, each if it is there. A record is written as an object or as a
sequence of all its parts. -/
def record? (names : List String) : Json → Option (List (Option Json))
  | .array items => if items.length = names.length then some (items.map some) else none
  | json => json.fields? names

/-- The name of an alternative and what it carries: a bare name carries nothing, an object with one
field carries the field's value. -/
def variant? : Json → Option (String × Json)
  | .string name => some (name, .null)
  | .object [(name, payload)] => some (name, payload)
  | _ => none

/-- A part that may be missing or null. -/
def optional? (read : Json → Option α) : Option Json → Option (Option α)
  | none => some none
  | some .null => some none
  | some json => (read json).map some

end Json

end MacroExpansion
