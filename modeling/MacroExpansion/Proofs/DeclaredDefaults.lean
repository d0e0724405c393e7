import MacroExpansion.Proofs.ArgumentPositions

/-! # Defaults of declared parameters

A declaration may give any expression for a default, and the symbol of the declaration keeps it only if
it is a literal (`Param.literalDefault?`). A literal default reaches every call: a parameter with one
is never missing an argument, and if its type is that of statements or of blocks it captures what follows.
A parameter with any other default is bound like one without a default. -/

namespace MacroExpansion

/-- The default of a declared parameter, if it is a literal. -/
def Param.literalDefault? (param : Param) : Option Literal :=
  param.default.bind Expr.asLiteral?

/-- The symbol of a declared parameter. -/
def Param.symbol (param : Param) : ParameterSymbol :=
  { name := param.name, type := param.type, default := param.literalDefault? }

/-- The symbol of a declaration has the parameters of the declaration, one by one. -/
theorem MethodSymbol.params_ofDecl (id : SymbolId) (declaringType : String) (decl : FunctionDecl) :
    (MethodSymbol.ofDecl id declaringType decl).params = decl.params.map Param.symbol := rfl

/-- The parameter at a position of a declared function has the symbol of the parameter declared
there. -/
theorem MethodSymbol.getElem?_params_ofDecl {id : SymbolId} {declaringType : String} {decl : FunctionDecl}
    {index : Nat} {param : Param} (h : decl.params[index]? = some param) :
    (MethodSymbol.ofDecl id declaringType decl).params[index]? = some param.symbol := by
  rw [params_ofDecl, List.getElem?_map, h, Option.map_some]

namespace BindingRules

variable {rules : BindingRules} {symbol : MethodSymbol} {site : Site} {source : Option SourceText}
  {buffer : BufferId} {index : Nat} {param : ParameterSymbol} {arg : Argument} {value : Literal}

/-! ## Arguments of parameters with a default -/

/-- Only a parameter without a default can receive a placeholder. -/
theorem receives_missing_iff :
    rules.Receives symbol site buffer index param .missing ↔
      ¬rules.TakesQuote symbol index param ∧ param.default = none ∧ site.call.args[index]? = none ∧
        rules.missing = .placeholder := by
  constructor
  · intro h
    cases h with
    | missing hquote hdefault harg h => exact ⟨hquote, hdefault, harg, h⟩
  · rintro ⟨hquote, hdefault, harg, h⟩
    exact .missing hquote hdefault harg h

/-- What a parameter receives that has a default and takes no quote: the next statement that is left, if it
captures, and the default otherwise. -/
inductive ReceivesByDefault (rules : BindingRules) (symbol : MethodSymbol) (site : Site) (index : Nat)
    (value : Literal) : TypeRef → Argument → Prop where
  /-- The next statement. -/
  | statement {stmt : Stmt} (h : followingAt site (rules.takenBefore symbol index) = some stmt) :
      ReceivesByDefault rules symbol site index value .statement (.statement stmt)
  /-- The next statement, which is a block. -/
  | block {block : Block} (h : followingAt site (rules.takenBefore symbol index) = some (.block block)) :
      ReceivesByDefault rules symbol site index value .block (.block block)
  /-- The default. -/
  | default {type : TypeRef} (h : type.isCapture = false) :
      ReceivesByDefault rules symbol site index value type (.constant value)

/-- A parameter that takes no quote and has a default receives the next statement or the default. -/
theorem Receives.byDefault (h : rules.Receives symbol site buffer index param arg)
    (hquote : ¬rules.TakesQuote symbol index param) (hdefault : param.default = some value) :
    rules.ReceivesByDefault symbol site index value param.type arg := by
  cases h with
  | quote htakes => exact absurd htakes hquote
  | statement _ htype hnext => exact htype ▸ .statement hnext
  | block _ htype hnext => exact htype ▸ .block hnext
  | default _ hstatement hother =>
    cases hdefault.symm.trans hother
    -- a type that captures would have taken what follows and not the default
    refine .default (Bool.eq_false_iff.mpr fun hcapture => hstatement ⟨hquote, ?_, by rw [hdefault]; rfl⟩)
    revert hcapture
    cases param.type <;> simp [TypeRef.isCapture]
  | constant _ hnone | written _ hnone | missing _ hnone => cases hdefault.symm.trans hnone

/-- A bound call is bound by position. -/
theorem boundByPosition_of_bind {bound : BoundCall}
    (h : rules.bind symbol site source = .ok (some bound)) : rules.BoundByPosition symbol site bound := by
  obtain ⟨hforwards, -⟩ := bind_some_cases h
  rcases bind_cases source hforwards with ⟨other, hbind, hbound⟩ | ⟨_, _, _, _, -, hbind, -⟩
  · cases h.symm.trans hbind
    exact hbound
  · cases h.symm.trans hbind

/-- A call that cannot be bound lacks something for one of the parameters. -/
theorem exists_lacks_of_bind {error : ExpansionError} (h : rules.bind symbol site source = .error error) :
    ∃ index param fault span, symbol.params[index]? = some param ∧
      rules.Lacks symbol site index param fault span ∧ error = .atSpan fault span source := by
  cases hforwards : rules.forwardsAmbientQuote symbol site with
  | true =>
    rw [bind_eq, hforwards, if_pos rfl] at h
    cases h
  | false =>
    rcases bind_cases source hforwards with
      ⟨_, hbind, -⟩ | ⟨index, param, fault, span, hparam, hbind, hlacks, -⟩
    · cases h.symm.trans hbind
    · cases h.symm.trans hbind
      exact ⟨index, param, fault, span, hparam, hlacks, rfl⟩

/-- A bound call has what each parameter receives. -/
theorem BoundByPosition.exists_receives {bound : BoundCall} (h : rules.BoundByPosition symbol site bound)
    (hparam : symbol.params[index]? = some param) :
    ∃ arg, bound.args[index]? = some arg ∧ rules.Receives symbol site bound.buffer index param arg := by
  have hlt : index < bound.args.length := h.length_args ▸ (List.getElem?_eq_some_iff.mp hparam).1
  exact ⟨_, List.getElem?_eq_getElem hlt, h.receives index param _ hparam (List.getElem?_eq_getElem hlt)⟩

/-! ## Declared parameters -/

/-- Nothing is there for a declared parameter that takes no quote: it has no literal default, and the call
has no argument at its position. -/
structure HasNothingFor (rules : BindingRules) (symbol : MethodSymbol) (site : Site) (index : Nat)
    (param : Param) : Prop where
  quote : rules.isQuoteParameter symbol index = false
  default : param.literalDefault? = none
  arg : site.call.args[index]? = none

variable {id : SymbolId} {declaringType : String} {decl : FunctionDecl} {param : Param}

/-- A declared parameter takes no quote when the rules do not tell it for one. -/
theorem not_takesQuote_iff (hparam : decl.params[index]? = some param) :
    ¬rules.TakesQuote (.ofDecl id declaringType decl) index param.symbol ↔
      rules.isQuoteParameter (.ofDecl id declaringType decl) index = false := by
  rw [← isQuoteParameter_iff (MethodSymbol.getElem?_params_ofDecl hparam), Bool.not_eq_true]

/-- A declared parameter receives a placeholder where nothing is there for it and the policy allows it. -/
theorem receives_missing_declared_iff (buffer : BufferId) (hparam : decl.params[index]? = some param) :
    rules.Receives (.ofDecl id declaringType decl) site buffer index param.symbol .missing ↔
      rules.HasNothingFor (.ofDecl id declaringType decl) site index param ∧
        rules.missing = .placeholder := by
  rw [receives_missing_iff, not_takesQuote_iff hparam]
  exact ⟨fun ⟨hquote, hdefault, harg, h⟩ => ⟨⟨hquote, hdefault, harg⟩, h⟩,
    fun ⟨⟨hquote, hdefault, harg⟩, h⟩ => ⟨hquote, hdefault, harg, h⟩⟩

/-- An argument is reported as missing where nothing is there for a declared parameter. -/
theorem hasNothingFor_of_missingArgument {macroName name : String} {span : Span}
    {source' : Option SourceText}
    (h : rules.bind (.ofDecl id declaringType decl) site source =
      .error (.atSpan (.missingArgument macroName name) span source')) :
    ∃ (index : Nat) (param : Param), decl.params[index]? = some param ∧ param.name = name ∧
      rules.HasNothingFor (.ofDecl id declaringType decl) site index param ∧ rules.missing = .error := by
  obtain ⟨index, symbol, fault, _, hsymbol, hlacks, herror⟩ := exists_lacks_of_bind h
  rw [MethodSymbol.params_ofDecl, List.getElem?_map, Option.map_eq_some_iff] at hsymbol
  obtain ⟨param, hparam, rfl⟩ := hsymbol
  -- an error tells its fault, whatever text it comes with
  have hfault : fault = .missingArgument macroName name := by
    cases source <;> cases source' <;> cases herror <;> rfl
  rw [hfault] at hlacks
  cases hlacks with
  | missingArgument hquote hdefault harg hmissing =>
    exact ⟨index, param, hparam, rfl, ⟨(not_takesQuote_iff hparam).mp hquote, hdefault, harg⟩, hmissing⟩

end BindingRules

/-- A literal default reaches every call of a declared function. An argument is reported as missing only
for parameters without a literal default, by an error or by a placeholder as the policy says; and then a
call without an argument for such a parameter is not bound, or receives the placeholder, whatever other
default the parameter has. A parameter with a literal default that takes no quote receives it, or captures
the next statement if its type is that of statements or of blocks. -/
theorem literal_default_reaches_call (rules : BindingRules) (id : SymbolId) (declaringType : String)
    (decl : FunctionDecl) (site : Site) (source : Option SourceText) :
    let symbol := MethodSymbol.ofDecl id declaringType decl
    (∀ macroName name span source', rules.bind symbol site source =
        .error (.atSpan (.missingArgument macroName name) span source') →
      ∃ (index : Nat) (param : Param), decl.params[index]? = some param ∧ param.name = name ∧
        rules.HasNothingFor symbol site index param ∧ rules.missing = .error) ∧
    (∀ (index : Nat) (param : Param), decl.params[index]? = some param →
      rules.HasNothingFor symbol site index param → rules.missing = .error →
      ∀ bound, rules.bind symbol site source ≠ .ok (some bound)) ∧
    ∀ bound, rules.bind symbol site source = .ok (some bound) →
      ∀ (index : Nat) (param : Param), decl.params[index]? = some param →
        (bound.args[index]? = some .missing ↔
          rules.HasNothingFor symbol site index param ∧ rules.missing = .placeholder) ∧
        ∀ value, param.literalDefault? = some value → rules.isQuoteParameter symbol index = false →
          ∃ arg, bound.args[index]? = some arg ∧
            rules.ReceivesByDefault symbol site index value param.type arg := by
  intro symbol
  refine ⟨fun _ _ _ _ h => BindingRules.hasNothingFor_of_missingArgument h,
    fun index param hparam hnothing hmissing bound hbind => ?_, fun bound hbind index param hparam => ?_⟩
  · have hlacks : rules.Lacks symbol site index param.symbol
        (.missingArgument symbol.qualifiedName param.name) site.call.span :=
      .missingArgument ((BindingRules.not_takesQuote_iff hparam).mpr hnothing.quote) hnothing.default
        hnothing.arg hmissing
    obtain ⟨_, -, hreceives⟩ := (BindingRules.boundByPosition_of_bind hbind).exists_receives
      (MethodSymbol.getElem?_params_ofDecl hparam)
    -- a parameter that lacks something receives nothing, but a bound call has something for it
    exact hlacks.not_receives hreceives
  · obtain ⟨arg, harg, hreceives⟩ := (BindingRules.boundByPosition_of_bind hbind).exists_receives
      (MethodSymbol.getElem?_params_ofDecl hparam)
    refine ⟨?_, fun value hdefault hquote => ⟨arg, harg, ?_⟩⟩
    · rw [harg, ← BindingRules.receives_missing_declared_iff bound.buffer hparam]
      constructor
      · intro hmissing
        cases hmissing
        exact hreceives
      · exact fun hmissing => congrArg some (hreceives.unique hmissing)
    · exact hreceives.byDefault ((BindingRules.not_takesQuote_iff hparam).mpr hquote) hdefault

/-- The declaration `static void Save(statement body = null, int count = -Limit, Quote quote)`. -/
def savingDecl : FunctionDecl :=
  .plain "Save"
    [.optional "body" .statement .null, .optional "count" .int (.apply .neg (.ofName "Limit")),
      .required "quote" .quote] .void []

/-- A call `Save();` before `Log();`. -/
def savingSite : Site where
  file := "save.cs"
  call := .plain "Save" []
  statement := .evaluate (.callOf "Save" [])
  enclosing := .topLevel
  function := none
  block := .of [.evaluate (.callOf "Save" []), .evaluate (.callOf "Log" [])]
  index := 0

/-- The first parameter captures the statement, the second one is missing an argument in spite of its
default. -/
theorem literal_default_reaches_call_saving :
    let rules : BindingRules :=
      { model := { bindCall := fun _ => none, declaredSymbol := fun _ => none }
        markers := .stored
        missing := .placeholder }
    ∃ bound, rules.bind (.ofDecl ⟨0⟩ "Host" savingDecl) savingSite none = .ok (some bound) ∧
      bound.args[0]? = some (.statement (.evaluate (.callOf "Log" []))) ∧
      bound.args[1]? = some .missing := by
  intro rules
  obtain ⟨-, -, hbound⟩ := literal_default_reaches_call rules ⟨0⟩ "Host" savingDecl savingSite none
  obtain ⟨bound, hbind⟩ :
      ∃ bound, rules.bind (.ofDecl ⟨0⟩ "Host" savingDecl) savingSite none = .ok (some bound) := ⟨_, rfl⟩
  refine ⟨bound, hbind, ?_, ((hbound bound hbind 1 _ rfl).1).mpr ⟨⟨rfl, rfl, rfl⟩, rfl⟩⟩
  obtain ⟨arg, harg, hreceives⟩ := (hbound bound hbind 0 _ rfl).2 .null rfl rfl
  rw [harg]
  cases hreceives with
  | statement hnext =>
    cases hnext
    rfl
  | default hcapture => cases hcapture

end MacroExpansion
