/-! # Settings

The settings of an expansion and their defaults. -/

namespace MacroExpansion

/-- What a required parameter receives when the call gives it no argument. -/
inductive MissingArgumentPolicy where
  /-- The call is in error. -/
  | error
  /-- The parameter receives a placeholder and a warning is reported. -/
  | placeholder
  deriving DecidableEq, Repr, Inhabited

/-- The settings of an expansion. -/
structure ExpansionConfig where
  /-- How many expansions one statement may take, how deeply inserted statements may nest, and how
  often a function may be replaced. -/
  maxDepth : Nat := 128
  /-- What required parameters without an argument receive. -/
  missingArguments : MissingArgumentPolicy := .error
  /-- Whether a panic of a macro body becomes an error. -/
  catchPanics : Bool := true
  /-- Whether expanded calls are recorded. -/
  recordTrace : Bool := true
  deriving DecidableEq, Repr, Inhabited

end MacroExpansion
