import MacroExpansion.Config.Basic
import MacroExpansion.Diagnostic.Error
import MacroExpansion.Json.Parser
import MacroExpansion.Yaml.Document

/-! # Settings, read and written

Settings are read from JSON or YAML. A setting that is not given keeps its default; entries of other
names are passed over. A setting that is given twice, or with a value of another type, makes the
whole text invalid. -/

namespace MacroExpansion

namespace MissingArgumentPolicy

/-- The name of a policy. -/
def name : MissingArgumentPolicy → String
  | .error => "error"
  | .placeholder => "placeholder"

/-- The policy of a name. -/
def ofName? : String → Option MissingArgumentPolicy
  | "error" => some .error
  | "placeholder" => some .placeholder
  | _ => none

/-- A policy is found under its name. -/
@[simp] theorem ofName?_name (policy : MissingArgumentPolicy) :
    ofName? policy.name = some policy := by
  cases policy <;> rfl

end MissingArgumentPolicy

/-- How the values of settings are read from values of a data format. -/
structure SettingReader (α : Type) where
  /-- Reads an unsigned 64-bit number. -/
  size : α → Option Nat
  /-- Reads a truth value. -/
  flag : α → Option Bool
  /-- Reads a policy. -/
  policy : α → Option MissingArgumentPolicy

namespace SettingReader

/-- Settings in JSON. A policy is a name, or an object with null under the name. -/
def json : SettingReader Json where
  size := Json.asSize?
  flag := Json.asBool?
  policy value :=
    match value.variant? with
    | some (name, .null) => MissingArgumentPolicy.ofName? name
    | _ => none

/-- Settings in a YAML document. A policy is a name, or a tag with nothing behind it. -/
def yaml (document : Yaml) : SettingReader Yaml where
  size value := (document.resolve value).asSize?
  flag value := (document.resolve value).asBool?
  policy value := (document.resolve value).asName?.bind MissingArgumentPolicy.ofName?

end SettingReader

namespace ExpansionConfig

/-- The names of the settings, in order. -/
def settingNames : List String :=
  ["max_expansion_depth", "missing_arguments", "catch_panics", "record_trace"]

/-- The value of a setting; `base` if it is not given. -/
def setting (read : α → Option β) (entries : List (String × α)) (name : String) (base : β) :
    Except String β :=
  match (entries.filter (·.1 == name)).map Prod.snd with
  | [] => .ok base
  | [value] =>
      match read value with
      | some value => .ok value
      | none => .error (name ++ ": invalid value")
  | _ => .error (name ++ ": given more than once")

/-- Settings from named values. -/
def ofEntries (reader : SettingReader α) (entries : List (String × α)) :
    Except String ExpansionConfig := do
  let base : ExpansionConfig := {}
  return {
    maxDepth := ← setting reader.size entries "max_expansion_depth" base.maxDepth
    missingArguments := ← setting reader.policy entries "missing_arguments" base.missingArguments
    catchPanics := ← setting reader.flag entries "catch_panics" base.catchPanics
    recordTrace := ← setting reader.flag entries "record_trace" base.recordTrace }

/-- Settings from a JSON value: an object, or a sequence that gives the first settings in order. -/
def ofJsonValue : Json → Except String ExpansionConfig
  | .object fields => ofEntries .json fields
  | .array items =>
      if items.length ≤ settingNames.length then ofEntries .json (settingNames.zip items)
      else .error "too many settings"
  | _ => .error "expected an object"

/-- Settings from a YAML document. -/
def ofYamlDocument (document : Yaml) : Except String ExpansionConfig :=
  match document.asMapping? with
  | none => .error "expected a mapping"
  | some entries =>
      match entries.mapM fun (key, value) => (document.resolve key).asText?.map (·, value) with
      | none => .error "expected names of settings"
      | some entries => ofEntries (.yaml document) entries

/-- Settings from JSON text. -/
def ofJson (text : String) : Except ExpansionError ExpansionConfig :=
  let config :=
    match Json.parse? text with
    | some json => ofJsonValue json
    | none => .error "malformed JSON"
  config.mapError fun reason => .unlocated (.invalidConfig reason)

/-- Settings from YAML text. -/
def ofYaml (text : String) : Except ExpansionError ExpansionConfig :=
  let config :=
    match Yaml.parse? text with
    | some document => ofYamlDocument document
    | none => .error "malformed YAML"
  config.mapError fun reason => .unlocated (.invalidConfig reason)

/-- The JSON form of settings. -/
def toJson (config : ExpansionConfig) : Json :=
  .object [("max_expansion_depth", .int config.maxDepth),
    ("missing_arguments", .string config.missingArguments.name),
    ("catch_panics", .bool config.catchPanics), ("record_trace", .bool config.recordTrace)]

end ExpansionConfig

end MacroExpansion
