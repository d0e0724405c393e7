import MacroExpansion.Fragment
import MacroExpansion.Call.Site
import MacroExpansion.Diagnostic.Error

/-! # The call binding

While a macro body runs, its call is published: macros without a quote parameter find there which
call they expand and say what it should become. At most one call is published at a time. -/

namespace MacroExpansion

/-- A published call with the replacement asked for so far. -/
structure ActiveCall where
  /-- The place of the call. -/
  site : Site
  /-- What the call should become. -/
  replacement : List Fragment := []
  deriving DecidableEq

/-- The published call, if a macro body runs. -/
structure CallBinding where
  /-- The call with its replacement. -/
  active : Option ActiveCall := none
  deriving DecidableEq, Inhabited

namespace CallBinding

/-- Whether a macro body runs. -/
def isActive (binding : CallBinding) : Bool :=
  binding.active.isSome

/-- The place of the published call. -/
def site? (binding : CallBinding) : Option Site :=
  binding.active.map (·.site)

/-- The published call. -/
def call? (binding : CallBinding) : Option Call :=
  binding.site?.map (·.call)

/-- The statement of the published call. -/
def statement? (binding : CallBinding) : Option Stmt :=
  binding.site?.map (·.statement)

/-- Publishes a call. It is an error while another one is published. -/
def enter (binding : CallBinding) (site : Site) : Except ExpansionError CallBinding :=
  match binding.active with
  | some _ => .error (.unlocated (.reentered site.call.callee))
  | none => .ok ⟨some { site }⟩

/-- Ends the publication and forgets the replacement. -/
def close (_ : CallBinding) : CallBinding := {}

/-- Ends the publication and hands out the replacement. -/
def exit (binding : CallBinding) : List Fragment × CallBinding :=
  ((binding.active.map (·.replacement)).getD [], binding.close)

/-- Asks for a replacement of the published call. The latest request counts. -/
def replaceWith (binding : CallBinding) (replacement : List Fragment) :
    Except ExpansionError CallBinding :=
  match binding.active with
  | some active => .ok ⟨some { active with replacement }⟩
  | none => .error (.unlocated .noActiveCall)

/-- Asks for the published call to become an expression. -/
def replaceWithExpression (binding : CallBinding) (expr : Expr) :
    Except ExpansionError CallBinding :=
  binding.replaceWith [.expr expr]

/-- Asks for the statement of the published call to become other statements. -/
def replaceWithStatements (binding : CallBinding) (statements : List Stmt) :
    Except ExpansionError CallBinding :=
  binding.replaceWith (statements.map .stmt)

end CallBinding

end MacroExpansion
