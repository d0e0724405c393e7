import MacroExpansion.StandardMacros
import MacroExpansion.Proofs.BindingSteps
import MacroExpansion.Proofs.CallOutcome
import MacroExpansion.Proofs.Forwarding

/-! # Local macros

A local macro goes by what it is called with: by its arguments and type arguments, the call, the path
of the file and the name of the member around the call. It does not look around, it does not go by
what the host keeps, and it does not stop the expansion. The standard macros are local. -/

namespace MacroExpansion

variable {σ : Type}

/-- Two places that are the same to a macro that does not look around. -/
structure Site.LooksLike (site other : Site) : Prop where
  /-- They are in the same file. -/
  file : site.file = other.file
  /-- The calls are the same. -/
  call : site.call = other.call
  /-- The members around the calls have the same name. -/
  member : site.enclosing.memberName = other.enclosing.memberName

/-- An argument at another place. A quote shows the place that it was made for. -/
def Argument.seenAt (site : Site) : Argument → Argument
  | .quote own => .quote { own with site }
  | arg => arg

/-- An invocation at another place. -/
def Invocation.seenAt (site : Site) (invocation : Invocation) : Invocation :=
  { invocation with site, args := invocation.args.map (·.seenAt site) }

/-- A macro that comes to the same wherever it is called with the same, and lets the expansion go
on. -/
structure Implementation.IsLocal (implementation : Implementation σ) : Prop where
  /-- It hands out the same and writes the same at places that look alike. -/
  same {invocation : Invocation} {site : Site} (hquotes : invocation.seenAt invocation.site = invocation)
    (hsite : site.LooksLike invocation.site) (config : ExpansionConfig)
    (source : Option SourceText) (buffers : Buffers) {session session' : Session σ}
    (hidle : session.binding.active = none) (hidle' : session'.binding.active = none) :
    let invoked := invoke implementation invocation config source buffers session
    let invoked' := invoke implementation (invocation.seenAt site) config source buffers session'
    invoked'.outcome = invoked.outcome ∧ invoked'.buffers = invoked.buffers
  /-- It does not ask the host to stop. -/
  goesOn (invocation : Invocation) (config : ExpansionConfig) (source : Option SourceText)
    (buffers : Buffers) (session : Session σ) :
    (invoke implementation invocation config source buffers session).session.cancelled =
      session.cancelled

/-- The macros that calls are expanded for are local, and none of them gets another implementation
because one was looked up before it. -/
structure BindingRules.HasLocalMacros (rules : BindingRules) (registry : Registry σ) : Prop where
  /-- Looking one up makes no difference to the others. -/
  settled {call call' : Call} {symbol other : MethodSymbol} (h : rules.candidate? call = some symbol)
    (h' : rules.candidate? call' = some other) :
    ((registry.discover symbol).2.discover other).1 = (registry.discover other).1
  /-- What they lead to is local. -/
  isLocal {call : Call} {symbol : MethodSymbol} (h : rules.candidate? call = some symbol)
    {implementation : Implementation σ} (hfound : (registry.discover symbol).1 = some implementation) :
    implementation.IsLocal

/-! ## Invocations at another place -/

namespace Invocation

variable {invocation : Invocation} {site : Site}

/-- At another place the quotes are the same but for the place. -/
theorem quotes_seenAt (invocation : Invocation) (site : Site) :
    (invocation.seenAt site).quotes = invocation.quotes.map fun quote => { quote with site } := by
  unfold quotes seenAt
  rw [List.filterMap_map, List.map_filterMap]
  congr 1
  funext arg
  cases arg <;> rfl

/-- The first quote is the same, seen from the other place. -/
theorem quote_seenAt (hcall : site.call = invocation.site.call) :
    (invocation.seenAt site).quote = invocation.quote.map fun quote => { quote with site } := by
  unfold quote
  rw [quotes_seenAt, List.head?_map]
  cases invocation.quotes.head? with
  | some quote => rfl
  | none =>
    change Except.error ("macro '" ++ site.call.callee ++ "' has no quote parameter") = _
    rw [hcall]
    rfl

/-- The quotes of an invocation are made for its place. -/
theorem site_of_quote (hquotes : invocation.seenAt invocation.site = invocation) {quote : Quote}
    (h : invocation.quote = .ok quote) : quote.site = invocation.site := by
  have hseen : (invocation.seenAt invocation.site).quote = _ := quote_seenAt rfl
  rw [hquotes, h] at hseen
  exact congrArg Quote.site (Except.ok.inj hseen)

/-- At another place the arguments are the same but for the place. -/
theorem getElem?_args_seenAt (invocation : Invocation) (site : Site) (index : Nat) :
    (invocation.seenAt site).args[index]? = (invocation.args[index]?).map (·.seenAt site) :=
  List.getElem?_map

/-- A literal that was received is the same at another place. -/
theorem constant_seenAt (invocation : Invocation) (site : Site) (index : Nat) :
    (invocation.seenAt site).constant index = invocation.constant index := by
  unfold constant
  rw [getElem?_args_seenAt]
  rcases invocation.args[index]? with - | arg
  · rfl
  · cases arg <;> rfl

/-- A number that was received is the same at another place. -/
theorem int_seenAt (invocation : Invocation) (site : Site) (index : Nat) :
    (invocation.seenAt site).int index = invocation.int index := by
  unfold int
  rw [constant_seenAt]

/-- A statement that was received is the same at another place. -/
theorem statement_seenAt (invocation : Invocation) (site : Site) (index : Nat) :
    (invocation.seenAt site).statement index = invocation.statement index := by
  unfold statement
  rw [getElem?_args_seenAt]
  rcases invocation.args[index]? with - | arg
  · rfl
  · cases arg <;> rfl

/-- An argument reads the same at another place of the same call. -/
theorem written?_seenAt (hcall : site.call = invocation.site.call) (index : Nat) :
    (invocation.seenAt site).written? index = invocation.written? index := by
  unfold written?
  rw [getElem?_args_seenAt, show (invocation.seenAt site).site.call = invocation.site.call from
    hcall]
  rcases invocation.args[index]? with - | arg
  · rfl
  · cases arg <;> rfl

end Invocation

/-! ## Bodies that only write -/

/-- A body that has nothing to do with the session. -/
def BodyM.WritesOnly {α : Type} (body : BodyM σ α) : Prop :=
  ∀ buffers, ∃ ended buffers', ∀ session,
    body.run.run { buffers, session } = (ended, { buffers := buffers', session })

namespace BodyM.WritesOnly

variable {α β : Type}

/-- A value is given without writing. -/
theorem pure (value : α) : WritesOnly (σ := σ) (Pure.pure value) :=
  fun buffers => ⟨.ok value, buffers, fun _ => rfl⟩

/-- A failure writes nothing. -/
theorem fail (text : String) : WritesOnly (σ := σ) (α := α) (BodyM.fail text) :=
  fun buffers => ⟨.error (.failure text), buffers, fun _ => rfl⟩

/-- What has to be there is asked for without writing. -/
theorem require (value : Except String α) : WritesOnly (σ := σ) (BodyM.require value) := by
  cases value with
  | ok value => exact pure value
  | error text => exact fail text

/-- Emitting a fragment is writing. -/
theorem emit (quote : Quote) (fragment : Fragment) :
    WritesOnly (σ := σ) (BodyM.emit quote fragment) :=
  fun buffers => ⟨.ok (), quote.emit fragment buffers, fun _ => rfl⟩

/-- Parts that only write only write one after the other. -/
theorem bind {body : BodyM σ α} {next : α → BodyM σ β} (h : body.WritesOnly)
    (hnext : ∀ value, (next value).WritesOnly) : (body >>= next).WritesOnly := by
  intro buffers
  obtain ⟨ended, middle, hbody⟩ := h buffers
  have hrun (session : Session σ) : (body >>= next).run.run { buffers, session } =
      ExceptT.bindCont next ended { buffers := middle, session } := by
    change ExceptT.bindCont next (body.run.run { buffers, session }).1
      (body.run.run { buffers, session }).2 = _
    rw [hbody]
  cases ended with
  | error halt => exact ⟨.error halt, middle, hrun⟩
  | ok value =>
    obtain ⟨ended, last, hlast⟩ := hnext value middle
    exact ⟨ended, last, fun session => (hrun session).trans (hlast session)⟩

/-- What only writes for each value only writes for all of them. -/
theorem forM {values : List β} {next : β → BodyM σ PUnit} (h : ∀ value, (next value).WritesOnly) :
    (values.forM next).WritesOnly := by
  induction values with
  | nil => exact pure _
  | cons value rest ih => exact (h value).bind fun _ => ih

end BodyM.WritesOnly

/-- A body that only writes comes to the same for the same call, and leaves its session as it is. -/
theorem BodyM.WritesOnly.invoke_same {implementation : Implementation σ}
    {invocation invocation' : Invocation} (h : (implementation.body invocation).WritesOnly)
    (hbody : implementation.body invocation' = implementation.body invocation)
    (hcall : invocation'.site.call = invocation.site.call) (config : ExpansionConfig)
    (source : Option SourceText) (buffers : Buffers) {session session' : Session σ}
    (hidle : session.binding.active = none) (hidle' : session'.binding.active = none) :
    let invoked := invoke implementation invocation config source buffers session
    let invoked' := invoke implementation invocation' config source buffers session'
    invoked'.outcome = invoked.outcome ∧ invoked'.buffers = invoked.buffers ∧
      invoked.session.cancelled = session.cancelled ∧
        invoked'.session.cancelled = session'.cancelled := by
  obtain ⟨ended, buffers', hrun⟩ := h buffers
  simp only [invoke, CallBinding.enter_of_inactive hidle, CallBinding.enter_of_inactive hidle', hbody,
    hcall, hrun, and_true]
  rfl

/-- A body that only writes, and does the same at places that look alike, makes a local macro. -/
theorem Implementation.isLocal_of_writesOnly {implementation : Implementation σ}
    (hwrites : ∀ invocation, (implementation.body invocation).WritesOnly)
    (hsame : ∀ (invocation : Invocation) (site : Site),
      invocation.seenAt invocation.site = invocation → site.LooksLike invocation.site →
      implementation.body (invocation.seenAt site) = implementation.body invocation) :
    implementation.IsLocal where
  same {invocation site} hquotes hsite config source buffers session session' hidle hidle' := by
    obtain ⟨houtcome, hbuffers, -, -⟩ := (hwrites invocation).invoke_same
      (hsame invocation site hquotes hsite) hsite.call config source buffers hidle hidle'
    exact ⟨houtcome, hbuffers⟩
  goesOn invocation config source buffers session := by
    obtain ⟨ended, buffers', hbody⟩ := hwrites invocation buffers
    unfold invoke
    cases session.binding.enter invocation.site with
    | error error => rfl
    | ok binding => simp only [hbody]

/-! ## Standard macros -/

namespace StandardMacros

/-- The name of the function is told by the place of the call alone. -/
theorem isLocal_functionName (name : String) :
    Implementation.IsLocal (σ := σ) { name, body := expandFunctionName } := by
  refine Implementation.isLocal_of_writesOnly (fun invocation => ?_)
    fun invocation site hquotes hsite => ?_
  · exact (BodyM.WritesOnly.require _).bind fun quote => .emit _ _
  · change expandFunctionName (invocation.seenAt site) = expandFunctionName invocation
    unfold expandFunctionName
    rw [Invocation.quote_seenAt hsite.call]
    cases hquote : invocation.quote with
    | error text => rfl
    | ok quote =>
      -- both quotes write to the same buffer, and show members of the same name
      have hmember : quote.site.enclosing.memberName = site.enclosing.memberName := by
        rw [Invocation.site_of_quote hquotes hquote, hsite.member]
      change BodyM.emit quote (.expr (.ofString site.enclosing.memberName)) =
        BodyM.emit quote (.expr (.ofString quote.site.enclosing.memberName))
      rw [hmember]

/-- How often a statement is repeated is told by the call and what it captured. -/
theorem isLocal_repeat (name : String) :
    Implementation.IsLocal (σ := σ) { name, body := expandRepeat } := by
  refine Implementation.isLocal_of_writesOnly (fun invocation => ?_)
    fun invocation site _ hsite => ?_
  · refine (BodyM.WritesOnly.require _).bind fun count => ?_
    have hwritten : BodyM.WritesOnly (σ := σ) (do
        let body ← BodyM.require (invocation.statement 1)
        let quote ← BodyM.require invocation.quote
        (List.replicate count.toInt.toNat body).forM fun stmt => BodyM.emit quote (.stmt stmt)) :=
      (BodyM.WritesOnly.require _).bind fun body =>
        (BodyM.WritesOnly.require _).bind fun quote => .forM fun _ => .emit _ _
    dsimp only
    split
    · exact (BodyM.WritesOnly.fail _).bind fun _ => hwritten
    · exact hwritten
  · change expandRepeat (invocation.seenAt site) = expandRepeat invocation
    unfold expandRepeat
    rw [Invocation.int_seenAt, Invocation.statement_seenAt, Invocation.quote_seenAt hsite.call]
    cases invocation.quote <;> rfl

/-- The text of an argument is told by the call alone. -/
theorem isLocal_stringify (name : String) :
    Implementation.IsLocal (σ := σ) { name, body := expandStringify } := by
  refine Implementation.isLocal_of_writesOnly (fun invocation => ?_)
    fun invocation site _ hsite => ?_
  · change (expandStringify invocation).WritesOnly
    unfold expandStringify
    cases invocation.written? 0 with
    | none => exact .fail _
    | some expr => exact (BodyM.WritesOnly.require _).bind fun quote => .emit _ _
  · change expandStringify (invocation.seenAt site) = expandStringify invocation
    unfold expandStringify
    rw [Invocation.written?_seenAt hsite.call, Invocation.quote_seenAt hsite.call]
    cases invocation.quote <;> rfl

/-- This macro finds its call through the binding. -/
theorem isLocal_here (name : String) :
    Implementation.IsLocal (σ := σ) { name, body := expandHere } where
  same {invocation site} _ hsite config source buffers session session' hidle hidle' := by
    simp only [invoke, CallBinding.enter_of_inactive hidle, CallBinding.enter_of_inactive hidle']
    refine ⟨?_, rfl⟩
    change Except.ok [Fragment.expr (.ofString
      (site.file ++ ":" ++ toString site.call.span.start))] = _
    rw [hsite.file, hsite.call]
    rfl
  goesOn invocation config source buffers session := by
    unfold invoke
    cases hentered : session.binding.enter invocation.site with
    | error error => rfl
    | ok binding =>
      unfold CallBinding.enter at hentered
      split at hentered
      all_goals cases hentered
      rfl

end StandardMacros

/-- What is there after a registration was there before, or was registered. -/
theorem Registry.has_register {registry : Registry σ} {signature : MacroSignature}
    {implementation other : Implementation σ}
    (h : (registry.register signature implementation).Has other) :
    registry.Has other ∨ other = implementation := by
  rcases h with ⟨found, hfound⟩ | hdiscovered
  · by_cases hsame : found = signature
    · rw [hsame, register, Keyed.lookup_put_self] at hfound
      exact .inr (Option.some.inj hfound).symm
    · rw [register, Keyed.lookup_put_of_ne _ hsame] at hfound
      exact .inl (.inl ⟨found, hfound⟩)
  · exact .inl (.inr hdiscovered)

/-- With the standard macros registered, all macros are local if they were before. -/
theorem StandardMacros.isLocal_of_registerAll {registry : Registry σ}
    (h : ∀ implementation, registry.Has implementation → implementation.IsLocal) (firstId : Nat)
    (implementation : Implementation σ)
    (himplementation : (registerAll firstId registry).Has implementation) :
    implementation.IsLocal := by
  -- the standard macros were registered one after the other
  rcases Registry.has_register himplementation with himplementation | rfl
  · rcases Registry.has_register himplementation with himplementation | rfl
    · rcases Registry.has_register himplementation with himplementation | rfl
      · rcases Registry.has_register himplementation with himplementation | rfl
        · exact h implementation himplementation
        · exact isLocal_functionName _
      · exact isLocal_here _
    · exact isLocal_repeat _
  · exact isLocal_stringify _

/-! ## Looking macros up -/

namespace Registry

variable {registry : Registry σ} {symbol other : MethodSymbol} {implementation : Implementation σ}

/-- Where nothing is found nothing is remembered. -/
theorem discover_snd_of_none (h : (registry.discover symbol).1 = none) :
    (registry.discover symbol).2 = registry := by
  unfold discover at h ⊢
  cases hdiscovered : registry.discovered.lookup symbol.id with
  | some found => rfl
  | none =>
    rw [hdiscovered] at h
    cases hfound : registry.find? (.of symbol) with
    | some found =>
      rw [hfound] at h
      cases h
    | none => rfl

/-- What is found for a function is what others with its identity lead to from then on. -/
theorem discover_discover_of_id (hid : symbol.id = other.id)
    (h : (registry.discover symbol).1 = some implementation) :
    ((registry.discover symbol).2.discover other).1 = some implementation := by
  unfold discover at h ⊢
  cases hdiscovered : registry.discovered.lookup symbol.id with
  | some found =>
    rw [hdiscovered] at h
    rw [← hid, hdiscovered]
    exact h
  | none =>
    rw [hdiscovered] at h
    cases hfound : registry.find? (.of symbol) with
    | some found =>
      rw [hfound] at h
      rw [← hid]
      simp only [Keyed.lookup_put_self]
      exact h
    | none =>
      rw [hfound] at h
      cases h

/-- Functions of other identities lead to what they led to. -/
theorem discover_discover_of_ne (registry : Registry σ) (hid : symbol.id ≠ other.id) :
    ((registry.discover symbol).2.discover other).1 = (registry.discover other).1 := by
  cases hdiscovered : registry.discovered.lookup symbol.id with
  | some found =>
    rw [show (registry.discover symbol).2 = registry by rw [discover, hdiscovered]]
  | none =>
    cases hfound : registry.find? (.of symbol) with
    | none => rw [show (registry.discover symbol).2 = registry by rw [discover, hdiscovered, hfound]]
    | some found =>
      rw [show (registry.discover symbol).2 =
          { registry with discovered := registry.discovered.put symbol.id found } by
        rw [discover, hdiscovered, hfound]]
      unfold discover
      rw [Keyed.lookup_put_of_ne _ (Ne.symm hid)]
      cases registry.discovered.lookup other.id with
      | some remembered => rfl
      | none =>
        simp only [find?]
        cases registry.implementations.lookup (.of other) <;> rfl

/-- What a function leads to after another one was looked up is what was found for their identity, if
they share one, or what it led to before. -/
theorem discover_discover (registry : Registry σ) (symbol other : MethodSymbol) :
    ((registry.discover symbol).2.discover other).1 =
      if symbol.id = other.id then (registry.discover symbol).1.or (registry.discover other).1
      else (registry.discover other).1 := by
  split
  · cases hfound : (registry.discover symbol).1 with
    | none => rw [discover_snd_of_none hfound, Option.none_or]
    | some implementation => rw [discover_discover_of_id ‹_› hfound, Option.some_or]
  · exact discover_discover_of_ne registry ‹_›

/-- What a macro leads to is what is discovered for it, or an error at the call. -/
theorem resolve_eq (registry : Registry σ) (symbol : MethodSymbol) (site : Site)
    (source : Option SourceText) :
    registry.resolve symbol site source =
      (match (registry.discover symbol).1 with
        | some implementation => .ok implementation
        | none =>
            .error (.atSpan (.noImplementation (MacroSignature.of symbol).text) site.call.span source),
        (registry.discover symbol).2) := by
  unfold resolve
  rcases registry.discover symbol with ⟨- | implementation, registry⟩ <;> rfl

/-- Macros lead to what they led to at the start. -/
def LeadsAs (rules : BindingRules) (start registry : Registry σ) : Prop :=
  ∀ call symbol, rules.candidate? call = some symbol →
    (registry.discover symbol).1 = (start.discover symbol).1

/-- Looking a macro up leaves the others where they lead to, if it does so at the start. -/
theorem LeadsAs.resolve {rules : BindingRules} {start registry : Registry σ}
    (h : LeadsAs rules start registry)
    (hsettled : ∀ {call call' : Call} {symbol other : MethodSymbol},
      rules.candidate? call = some symbol → rules.candidate? call' = some other →
      ((start.discover symbol).2.discover other).1 = (start.discover other).1)
    {call : Call} {symbol : MethodSymbol} (hsymbol : rules.candidate? call = some symbol) (site : Site)
    (source : Option SourceText) : LeadsAs rules start (registry.resolve symbol site source).2 := by
  intro call' other hother
  -- what is found for the identity is what the other macro leads to at the start
  refine Eq.trans ?_ (hsettled hsymbol hother)
  rw [resolve_eq, discover_discover registry, discover_discover start, h _ _ hsymbol, h _ _ hother]

end Registry

/-- Where functions are told apart by their identities and all implementations are local, the macros
are local. -/
theorem BindingRules.hasLocalMacros_of_toldApart {rules : BindingRules} {registry : Registry σ}
    {symbols : List MethodSymbol} (hapart : MethodSymbol.ToldApart symbols)
    (hmodel : rules.model = (SymbolTable.declaring symbols).model)
    (hlocal : ∀ implementation, registry.Has implementation → implementation.IsLocal) :
    rules.HasLocalMacros registry := by
  have hdeclared {call : Call} {symbol : MethodSymbol} (h : rules.candidate? call = some symbol) :
      symbol ∈ symbols := by
    have hbinds := (Option.filter_eq_some_iff.mp h).1
    rw [hmodel] at hbinds
    exact SymbolTable.mem_of_get?_declaring hbinds
  refine ⟨fun {call call' symbol other} h h' => ?_, fun {call symbol} h implementation hfound => ?_⟩
  · rw [Registry.discover_discover]
    split
    · -- it is looked up a second time
      rw [← hapart symbol (hdeclared h) other (hdeclared h') ‹_›, Option.or_self]
    · rfl
  · exact hlocal implementation (Registry.has_of_discover hfound)

end MacroExpansion
