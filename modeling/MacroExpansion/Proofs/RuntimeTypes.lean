import Mathlib
import MacroExpansion.Proofs.CallOutcome
import MacroExpansion.Proofs.Recording
import MacroExpansion.Symbol.Table
import MacroExpansion.Tree.Build

/-! # Runtime types

The types that reach a macro are the names of the type arguments of its call. Known by name are all
types but two kinds, type parameters and types that were not written. Only the outermost form of a
type counts: a quote type is known by its name whatever it yields, so that a type parameter behind a
quote reaches the macro as part of a name. Without such quote types the types that reach a macro are
closed. -/

namespace MacroExpansion

variable {σ : Type}

/-! ## Open and closed types -/

namespace TypeRef

/-- Type parameters and types that were not written are open. -/
def IsOpen : TypeRef → Prop
  | .generic _ | .inferred => True
  | _ => False

/-- The types that a type is written with. -/
inductive Contains : TypeRef → TypeRef → Prop
  /-- The type itself. -/
  | self (type : TypeRef) : Contains type type
  /-- What the result of a quote type is written with. -/
  | result {type part : TypeRef} (h : Contains type part) : Contains (.quoteOf type) part

/-- A type that contains no open type, at any depth. -/
def IsClosed (type : TypeRef) : Prop :=
  ∀ part, type.Contains part → ¬part.IsOpen

/-- A closed type is not open itself. -/
theorem IsClosed.not_isOpen {type : TypeRef} (h : type.IsClosed) : ¬type.IsOpen :=
  h type (.self type)

/-- A quote type is closed where its result is. -/
@[simp] theorem isClosed_quoteOf {result : TypeRef} : (quoteOf result).IsClosed ↔ result.IsClosed := by
  constructor
  · intro h part hpart
    exact h part (.result hpart)
  · intro h part hpart
    cases hpart with
    | self => exact id
    | result hpart => exact h part hpart

/-- A type that is no quote type is closed unless it is open itself. -/
theorem isClosed_or_quoteOf {type : TypeRef} (h : ¬type.IsOpen) :
    type.IsClosed ∨ ∃ result, type = .quoteOf result := by
  cases type with
  | quoteOf result => exact .inr ⟨result, rfl⟩
  | generic name => exact absurd trivial h
  | inferred => exact absurd trivial h
  | _ =>
    left
    rintro part ⟨⟩
    exact id

/-- The quote types that yield something open. -/
def HidesOpen (type : TypeRef) : Prop :=
  ∃ result, type = .quoteOf result ∧ ¬result.IsClosed

/-- A type that is not open is closed, or it is a quote type that hides an open one. -/
theorem isClosed_iff {type : TypeRef} : type.IsClosed ↔ ¬type.IsOpen ∧ ¬type.HidesOpen := by
  constructor
  · intro h
    refine ⟨h.not_isOpen, ?_⟩
    rintro ⟨result, rfl, hresult⟩
    exact hresult (isClosed_quoteOf.mp h)
  · rintro ⟨hopen, hhides⟩
    obtain hclosed | ⟨result, rfl⟩ := isClosed_or_quoteOf hopen
    · exact hclosed
    · refine isClosed_quoteOf.mpr (Classical.byContradiction fun hresult => ?_)
      exact hhides ⟨result, rfl, hresult⟩

end TypeRef

/-! ## Known types -/

/-- All types but the open ones are known by their names. -/
theorem TypeMetadata.byName_eq_some {type : TypeRef} {runtimeType : String} :
    TypeMetadata.byName type = some runtimeType ↔ ¬type.IsOpen ∧ type.name = runtimeType := by
  cases type <;> simp [TypeMetadata.byName, TypeRef.IsOpen]

/-- Going through a list comes to a list of values where each member comes to its value. -/
theorem except_mapM_ok_iff {ε α β : Type} {next : α → Except ε β} {values : List α}
    {results : List β} :
    values.mapM next = .ok results ↔
      List.Forall₂ (fun value result => next value = .ok result) values results := by
  induction values generalizing results with
  | nil => cases results <;> simp [pure, Except.pure]
  | cons value rest ih =>
    rw [List.mapM_cons]
    constructor
    · intro h
      obtain ⟨first, hfirst, h⟩ := except_bind_ok h
      obtain ⟨others, hothers, h⟩ := except_bind_ok h
      cases h
      exact .cons hfirst (ih.mp hothers)
    · rintro (_ | @⟨_, first, _, others, hfirst, hothers⟩)
      rw [hfirst, ih.mpr hothers]
      rfl

section

variable {symbol : MethodSymbol} {site : Site} {source : Option SourceText}

/-- Type arguments are resolved where they are as many as the declaration asks for and each of them
is known. -/
theorem resolveTypeArgs_ok_iff {metadata : TypeMetadata} {types : List String} :
    resolveTypeArgs symbol site metadata source = .ok types ↔
      site.call.typeArgs.length = symbol.arity ∧
        List.Forall₂ (fun type runtimeType => metadata type = some runtimeType) site.call.typeArgs
          types := by
  unfold resolveTypeArgs
  by_cases harity : site.call.typeArgs.length = symbol.arity
  · simp only [harity, ne_eq, not_true_eq_false, if_false, true_and, except_mapM_ok_iff]
    -- a type is resolved where it is known
    apply Iff.of_eq
    congr
    funext type runtimeType
    cases metadata type <;> simp
  · simp [harity]

/-- What cannot be resolved is an error at the call: about the number of its type arguments, or about
one of them that is not known. -/
theorem resolveTypeArgs_error {metadata : TypeMetadata} {error : ExpansionError}
    (h : resolveTypeArgs symbol site metadata source = .error error) :
    ∃ fault, error = .atSpan fault site.call.span source ∧ fault.kind = .resolution := by
  unfold resolveTypeArgs at h
  by_cases harity : site.call.typeArgs.length = symbol.arity
  · simp only [harity, ne_eq, not_true_eq_false, if_false] at h
    obtain ⟨type, -, htype⟩ := except_mapM_error h
    cases hknown : metadata type with
    | some runtimeType => simp [hknown] at htype
    | none =>
      simp only [hknown, Except.error.injEq] at htype
      exact ⟨_, htype.symm, rfl⟩
  · simp only [harity, ne_eq, not_false_eq_true, if_true, Except.error.injEq] at h
    exact ⟨_, h.symm, rfl⟩

/-- By their names type arguments are resolved where they are as many as the declaration asks for and
none of them is open itself. -/
theorem resolveTypeArgs_byName_ok_iff {types : List String} :
    resolveTypeArgs symbol site .byName source = .ok types ↔
      site.call.typeArgs.length = symbol.arity ∧
        (∀ type ∈ site.call.typeArgs, ¬type.IsOpen) ∧
        types = site.call.typeArgs.map TypeRef.name := by
  -- the names of the types are what the types come to one by one
  have hnames : List.Forall₂ (fun type runtimeType => type.name = runtimeType) site.call.typeArgs
      types ↔ types = site.call.typeArgs.map TypeRef.name := by
    rw [← List.forall₂_map_left_iff, List.forall₂_eq_eq_eq, eq_comm]
  rw [resolveTypeArgs_ok_iff, ← hnames, ← List.forall₂_and_left]
  simp only [TypeMetadata.byName_eq_some]

/-- By their names all type arguments are resolved that fit in number and are closed, and only such
ones as long as no quote type among them hides an open type. -/
theorem exists_resolveTypeArgs_byName_iff
    (hhides : ∀ type ∈ site.call.typeArgs, ¬type.HidesOpen) :
    (∃ types, resolveTypeArgs symbol site .byName source = .ok types) ↔
      site.call.typeArgs.length = symbol.arity ∧ ∀ type ∈ site.call.typeArgs, type.IsClosed := by
  simp only [resolveTypeArgs_byName_ok_iff, TypeRef.isClosed_iff]
  constructor
  · rintro ⟨types, harity, hopen, -⟩
    exact ⟨harity, fun type hmem => ⟨hopen type hmem, hhides type hmem⟩⟩
  · rintro ⟨harity, hclosed⟩
    exact ⟨_, harity, fun type hmem => (hclosed type hmem).1, rfl⟩

end

/-! ## Invocations -/

/-- What a macro receives as runtime types where types are known by name: the names of as many types
as it declares parameters for, none of them open itself. -/
structure BindingRules.HasNamedTypes (rules : BindingRules) (invocation : Invocation) : Prop where
  /-- The types fit the macro in number. -/
  arity : ∃ symbol, rules.candidate? invocation.site.call = some symbol ∧
    invocation.site.call.typeArgs.length = symbol.arity
  /-- None of them is open. -/
  known : ∀ type ∈ invocation.site.call.typeArgs, ¬type.IsOpen
  /-- The macro receives their names. -/
  names : invocation.typeArgs = invocation.site.call.typeArgs.map TypeRef.name

namespace Expander

/-- Where types are known by name, the calls of an expansion run macros with the names of their type
arguments. -/
theorem covers_namedTypes {expander : Expander} (hnames : expander.metadata = .byName)
    (file : FileOrigin) :
    (ProgramRelation.recordsEach (σ := σ) expander.rules.HasNamedTypes).Covers expander file := by
  refine covers_recordsEach fun {_ _ _ _ bound invocation} hfirst hsite _ htypes => ?_
  obtain ⟨hleads, -⟩ := binds_of_firstBound?_some (fun _ => rfl) hfirst
  rw [hnames, ← hsite] at htypes
  rw [← hsite] at hleads
  obtain ⟨harity, hopen, htypeArgs⟩ := resolveTypeArgs_byName_ok_iff.mp htypes
  exact ⟨⟨bound.symbol, hleads, harity⟩, hopen, htypeArgs⟩

/-- Where types are known by name, every macro that an expansion runs receives the names of the type
arguments, whatever becomes of the file. -/
theorem hasNamedTypes_of_expandWithin {expander : Expander} (hnames : expander.metadata = .byName)
    (nesting : Nat) (tree : SyntaxTree) (workspace : Workspace σ) :
    ∀ entry ∈ (expander.expandWithin nesting tree workspace.recorded).2.session.host.invocations,
      expander.rules.HasNamedTypes entry.2 := by
  obtain ⟨later, hlater, hrun⟩ :=
    expandWithin_recordsEach (expander.covers_namedTypes hnames _) nesting workspace []
  intro entry hentry
  rw [hrun] at hentry
  exact hlater entry hentry

end Expander

/-- Types reach a macro by their names. Type arguments are resolved just where they are as many as
the macro declares parameters for and none of them is open itself; they come to their names in order,
and what cannot be resolved is a resolution error at the call. So only closed types are resolved as
long as no quote type hides an open one, and every macro that is run receives the names of its type
arguments. -/
theorem types_reach_macros_by_name (expander : Expander) (hnames : expander.metadata = .byName) :
    (∀ symbol site source,
      (∀ types, resolveTypeArgs symbol site expander.metadata source = .ok types ↔
        site.call.typeArgs.length = symbol.arity ∧ (∀ type ∈ site.call.typeArgs, ¬type.IsOpen) ∧
          types = site.call.typeArgs.map TypeRef.name) ∧
      (∀ error, resolveTypeArgs symbol site expander.metadata source = .error error →
        error.kind = .resolution ∧ error.span? = some site.call.span) ∧
      ((∀ type ∈ site.call.typeArgs, ¬type.HidesOpen) →
        ((∃ types, resolveTypeArgs symbol site expander.metadata source = .ok types) ↔
          site.call.typeArgs.length = symbol.arity ∧
            ∀ type ∈ site.call.typeArgs, type.IsClosed))) ∧
      ∀ nesting tree (workspace : Workspace σ),
        let invocations :=
          (expander.expandWithin nesting tree workspace.recorded).2.session.host.invocations
        ∀ entry ∈ invocations, expander.rules.HasNamedTypes entry.2 := by
  refine ⟨fun symbol site source => ⟨?_, ?_, ?_⟩, expander.hasNamedTypes_of_expandWithin hnames⟩
  · rw [hnames]
    exact fun _ => resolveTypeArgs_byName_ok_iff
  · intro error herror
    obtain ⟨fault, rfl, hkind⟩ := resolveTypeArgs_error herror
    exact ⟨hkind, rfl⟩
  · rw [hnames]
    exact exists_resolveTypeArgs_byName_iff

/-- A macro with one type parameter. -/
def typeNameMacro : MethodSymbol where
  id := ⟨0⟩
  declaringType := "Host"
  name := "TypeName"
  typeParams := ["T"]
  markers := [.macroFunction]

/-- A script that calls the macro with a type. -/
def typeNameScript (type : TypeRef) : SyntaxTree where
  path := "types"
  source := none
  items := [.statements (.of [.evaluate (.genericCall "TypeName" [type] [])])]

/-- A workspace in which the macro does nothing. -/
def typeNameWorkspace : Workspace Unit where
  session := { host := () }
  registry := ({} : Registry Unit).registerBody typeNameMacro fun _ => pure ()

/-- A quote type that yields a type parameter reaches the macro as `Quote<U>`, although it is not
closed. -/
theorem types_reach_macros_by_name_quote :
    let expander : Expander := { model := (({} : SymbolTable).declare typeNameMacro).model }
    let received :=
      (expander.expandWithin 3 (typeNameScript (.quoteOf (.generic "U")))
        typeNameWorkspace.recorded).2.session.host.invocations
    received.map (·.2.typeArgs) = [["Quote<U>"]] ∧ ¬(TypeRef.quoteOf (.generic "U")).IsClosed := by
  intro expander received
  have hcalls : received.map (·.2.site.call.typeArgs) = [[.quoteOf (.generic "U")]] := by
    unfold received
    cbv
  have hreceived := (types_reach_macros_by_name expander rfl).2 3
    (typeNameScript (.quoteOf (.generic "U"))) typeNameWorkspace
  have htypes : received.map (·.2.typeArgs) =
      (received.map (·.2.site.call.typeArgs)).map (List.map TypeRef.name) := by
    rw [List.map_map]
    exact List.map_congr_left fun entry hentry => (hreceived entry hentry).names
  constructor
  · rw [htypes, hcalls]
    rfl
  · rw [TypeRef.isClosed_quoteOf]
    exact fun hclosed => hclosed.not_isOpen trivial

end MacroExpansion
