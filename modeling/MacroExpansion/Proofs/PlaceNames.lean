import MacroExpansion.Proofs.LocalMacros
import MacroExpansion.Proofs.Rewriting
import MacroExpansion.Proofs.SeenFile

/-! # Macros that name the place of their call

`FunctionName` stands for the name of the member around its call and `Here` for the place of the call
in the text. Both come to one text literal in place of the call. Which name it is follows from the
place of the call in the file as it is rewritten by then (`Expander.isNamedIn_of_invoked`), however
the call came to this place: `place_macros_name_the_place`. -/

namespace MacroExpansion

variable {σ : Type}

/-! ## Macros with a body of their own -/

/-- The macro leads to a body, and no other macro of calls shares its identity. -/
structure Registry.HasBody (registry : Registry σ) (rules : BindingRules) (symbol : MethodSymbol)
    (body : Invocation → BodyM σ Unit) : Prop where
  /-- It leads to the body. -/
  leads : ∃ implementation, (registry.discover symbol).1 = some implementation ∧
    implementation.body = body
  /-- It is told apart from the others. -/
  apart {call : Call} {other : MethodSymbol} (h : rules.candidate? call = some other)
    (hid : other.id = symbol.id) : other = symbol

/-- A macro has its body whatever other macros were looked up before. -/
theorem Registry.HasBody.lookedUp {registry start : Registry σ} {rules : BindingRules}
    {symbol : MethodSymbol} {body : Invocation → BodyM σ Unit} (h : start.HasBody rules symbol body)
    (hlooked : start.LookedUp rules registry) : registry.HasBody rules symbol body := by
  induction hlooked with
  | none => exact h
  | @next registry call other _ hother ih =>
    obtain ⟨implementation, hleads, hbody⟩ := ih.leads
    refine ⟨⟨implementation, ?_, hbody⟩, h.apart⟩
    by_cases hid : other.id = symbol.id
    · -- the macro itself was looked up
      obtain rfl := h.apart hother hid
      exact discover_discover_of_id rfl hleads
    · rw [discover_discover_of_ne registry hid, hleads]

/-- A macro that leads to a body has it where the macros of calls are told apart by their
identities. -/
theorem Registry.hasBody_of_toldApart {registry : Registry σ} {rules : BindingRules}
    {symbols : List MethodSymbol} {symbol : MethodSymbol} {body : Invocation → BodyM σ Unit}
    (hapart : MethodSymbol.ToldApart symbols)
    (hcandidates : ∀ call other, rules.candidate? call = some other → other ∈ symbols)
    (hmem : symbol ∈ symbols)
    (hleads : ∃ implementation, (registry.discover symbol).1 = some implementation ∧
      implementation.body = body) : registry.HasBody rules symbol body where
  leads := hleads
  apart h hid := hapart _ (hcandidates _ _ h) symbol hmem hid

namespace PlacedCall

variable {expander : Expander} {file : FileOrigin} {registry : Registry σ} {call : PlacedCall}
  {symbol : MethodSymbol} {body : Invocation → BodyM σ Unit}

/-- A call whose macro has a body is served by a run of this body. -/
theorem IsServedBy.exists_run (h : call.IsServedBy expander file registry)
    (hsymbol : call.bound.symbol = symbol) (hbody : registry.HasBody expander.rules symbol body) :
    ∃ name session requested, session.binding.active = none ∧
      let invoked := invoke { name, body } call.invocation expander.config file.source
        call.bound.buffers session
      invoked.outcome = .ok requested ∧
        call.bound.output (invoked.buffers.fragments call.bound.buffer) requested =
          .ok call.fragments := by
  obtain ⟨⟨name, found⟩, hfound, session, requested, houtcome, houtput⟩ := h
  obtain ⟨implementation, hleads, rfl⟩ := hbody.leads
  rw [hsymbol, hleads] at hfound
  obtain rfl := Option.some.inj hfound
  refine ⟨name, session, requested, ?_, houtcome, houtput⟩
  -- while another call is published no body is run
  cases hactive : session.binding.active with
  | none => rfl
  | some active => simp [invoke, CallBinding.enter, hactive] at houtcome

/-- One expression stands for the call where nothing is captured. -/
theorem IsOf.placement_eq (h : call.IsOf expander file) {expr : Expr}
    (hfragments : call.fragments = [.expr expr]) (hcaptured : call.bound.captured = 0) :
    call.placement = .inPlace expr := by
  have hplaced := h.placed
  rw [hfragments] at hplaced
  simpa [BoundCall.place, Placement.ofFragments, Except.map, hcaptured, eq_comm] using hplaced

end PlacedCall

namespace StandardMacros

variable {expander : Expander} {file : FileOrigin} {registry : Registry σ} {call : PlacedCall}
  {id : SymbolId}

/-- What a call of `FunctionName` is bound with: one quote, and no captured statement. -/
theorem bound_functionName (hisOf : call.IsOf expander file)
    (hsymbol : call.bound.symbol = functionName id) :
    call.bound = BindingRules.boundWith (functionName id) call.bound.site
      [.quote { sequence := 0, site := call.bound.site, buffer := (Buffers.create {}).1 }] 0 := by
  have hbinds := hisOf.binds
  rw [hsymbol] at hbinds
  obtain ⟨-, -, -, -, hparams⟩ := BindingRules.bind_some_cases hbinds
  have hquote : expander.rules.bindParams (functionName id)
      (Quote.of call.bound.site (Buffers.create {}).1) file.source (functionName id).params 0 0 =
        .ok ([.quote { sequence := 0, site := call.bound.site, buffer := (Buffers.create {}).1 }], 0) :=
    rfl
  rw [hquote] at hparams
  obtain ⟨hargs, hcaptured⟩ := Prod.mk.inj (Except.ok.inj hparams)
  rw [hargs, hcaptured]
  exact BindingRules.eq_boundWith_of_bind hbinds

/-- A call of `Here` is bound with nothing. -/
theorem bound_here (hisOf : call.IsOf expander file) (hsymbol : call.bound.symbol = here id) :
    call.bound = BindingRules.boundWith (here id) call.bound.site [] 0 := by
  have hbinds := hisOf.binds
  rw [hsymbol] at hbinds
  obtain ⟨-, -, -, -, hparams⟩ := BindingRules.bind_some_cases hbinds
  obtain ⟨hargs, hcaptured⟩ := Prod.mk.inj (Except.ok.inj hparams)
  rw [hargs, hcaptured]
  exact BindingRules.eq_boundWith_of_bind hbinds

/-- A call of `FunctionName` gives way to the name of the member around it. -/
theorem placement_functionName (hisOf : call.IsOf expander file)
    (hsymbol : call.bound.symbol = functionName id) (hserved : call.IsServedBy expander file registry)
    (hbody : registry.HasBody expander.rules (functionName id) expandFunctionName) :
    call.placement = .inPlace (.ofString call.bound.site.enclosing.memberName) := by
  have hbound := bound_functionName hisOf hsymbol
  obtain ⟨name, session, requested, hidle, houtcome, houtput⟩ := hserved.exists_run hsymbol hbody
  refine hisOf.placement_eq ?_ (by rw [hbound]; rfl)
  rw [PlacedCall.invocation, hbound] at houtcome houtput
  simp only [invoke, CallBinding.enter_of_inactive hidle] at houtcome houtput
  cases houtcome
  exact (Except.ok.inj houtput).symm

/-- A call of `Here` gives way to the path of the file and its own place. -/
theorem placement_here (hisOf : call.IsOf expander file) (hsymbol : call.bound.symbol = here id)
    (hserved : call.IsServedBy expander file registry)
    (hbody : registry.HasBody expander.rules (here id) expandHere) :
    call.placement = .inPlace (.ofString
      (call.bound.site.file ++ ":" ++ toString call.bound.site.call.span.start)) := by
  have hbound := bound_here hisOf hsymbol
  obtain ⟨name, session, requested, hidle, houtcome, houtput⟩ := hserved.exists_run hsymbol hbody
  refine hisOf.placement_eq ?_ (by rw [hbound]; rfl)
  rw [PlacedCall.invocation, hbound] at houtcome houtput
  simp only [invoke, CallBinding.enter_of_inactive hidle] at houtcome houtput
  cases houtcome
  exact (Except.ok.inj houtput).symm

end StandardMacros

/-! ## Files -/

namespace Expander

/-- Macros are invoked at sites in the file that is expanded. -/
theorem file_of_invoked {expander : Expander} {nesting : Nat} {tree : SyntaxTree}
    {workspace : Workspace σ} {entry : String × Invocation}
    (h : entry ∈ (expander.expandWithin nesting tree workspace.recorded).2.session.host.invocations) :
    entry.2.site.file = tree.path := by
  have hcovers : (ProgramRelation.recordsEach (σ := σ) (·.site.file = tree.path)).Covers expander
      ⟨tree.path, tree.source⟩ := by
    apply covers_recordsEach
    intro setting done rest stmt bound invocation hfirst hsite _ _
    obtain ⟨call, -, symbol, -, hbind⟩ := firstBound?_some hfirst
    obtain ⟨-, -, hbound, -⟩ := BindingRules.bind_some_cases hbind
    rw [hsite, hbound]
    rfl
  obtain ⟨later, hlater, hrun⟩ := expandWithin_recordsEach hcovers nesting workspace []
  rw [hrun] at h
  exact hlater entry h

variable {expander : Expander} {nesting : Nat} {tree : SyntaxTree} {workspace : Workspace σ}
  {calls : List PlacedCall}

/-- The calls of a file are placed at sites in it. -/
theorem Places.file_eq (h : expander.Places nesting tree workspace calls) {call : PlacedCall}
    (hcall : call ∈ calls) : call.bound.site.file = tree.path := by
  have hentry := List.mem_map_of_mem (f := PlacedCall.entry) hcall
  rw [← h.invocations] at hentry
  exact file_of_invoked hentry

/-- The member around a call that is placed goes by the name that its place tells. -/
theorem Places.isNamedIn (h : expander.Places nesting tree workspace calls) {index : Nat}
    {call : PlacedCall} (hcall : calls[index]? = some call) :
    ∃ items, expander.StandAfter tree workspace index items ∧
      call.bound.site.IsNamedIn (items.flatMap Item.namedBodies) := by
  have hinvoked : (expander.expandWithin nesting tree
      workspace.recorded).2.session.host.invocations[index]? = some (call.name, call.invocation) := by
    rw [h.invocations, List.getElem?_map, hcall]
    rfl
  exact isNamedIn_of_invoked hinvoked

end Expander

/-- `FunctionName` and `Here` name the right place. A call of `FunctionName` that is expanded gives way
to the name of the member that it stands in, in the file as it is rewritten by then: that of the
function as it is called now, of the accessor or of the script, or of lambdas if one is between the
call and the member. A call of `Here` gives way to the path of the file and the place of the call. -/
theorem place_macros_name_the_place (expander : Expander) (nesting : Nat) (tree : SyntaxTree)
    (workspace : Workspace σ) (expansion : Expansion) (functionName here : SymbolId)
    (hfunctionName : workspace.registry.HasBody expander.rules (StandardMacros.functionName functionName)
      StandardMacros.expandFunctionName)
    (hhere : workspace.registry.HasBody expander.rules (StandardMacros.here here)
      StandardMacros.expandHere)
    (h : (expander.expandWithin nesting tree workspace).1 = .ok expansion) :
    ∃ calls, expander.Places nesting tree workspace calls ∧
      KeepsOutline SyntaxTree.withoutCode SyntaxTree.bodies calls tree expansion.tree ∧
      (∀ index call, calls[index]? = some call →
        call.bound.symbol = StandardMacros.functionName functionName →
        ∃ items member levels, expander.StandAfter tree workspace index items ∧
          call.bound.site.StandsIn (items.flatMap Item.namedBodies) member levels ∧
          call.placement = .inPlace (.ofString (nameWithin member levels))) ∧
      ∀ call ∈ calls, call.bound.symbol = StandardMacros.here here →
        call.placement = .inPlace
          (.ofString (tree.path ++ ":" ++ toString call.bound.site.call.span.start)) := by
  obtain ⟨calls, hplaces, -, hkeeps, hserved⟩ := Expander.places_of_expandWithin h
  refine ⟨calls, hplaces, hkeeps, fun index call hcall hsymbol => ?_, fun call hcall hsymbol => ?_⟩
  · have hmem := List.mem_of_getElem? hcall
    obtain ⟨registry, hlooked, hserved⟩ := hserved call hmem
    have hplacement := StandardMacros.placement_functionName (hplaces.isOf call hmem) hsymbol hserved
      (hfunctionName.lookedUp hlooked)
    -- the name that the macro reads off the site is that of the place
    obtain ⟨items, hstand, member, levels, hstands, hname⟩ := hplaces.isNamedIn hcall
    rw [hname] at hplacement
    exact ⟨items, member, levels, hstand, hstands, hplacement⟩
  · obtain ⟨registry, hlooked, hserved⟩ := hserved call hcall
    have hplacement := StandardMacros.placement_here (hplaces.isOf call hcall) hsymbol hserved
      (hhere.lookedUp hlooked)
    rw [hplaces.file_eq hcall] at hplacement
    exact hplacement

/-- The macros that name places. -/
def placeMacros : List MethodSymbol :=
  [StandardMacros.functionName ⟨0⟩, StandardMacros.here ⟨1⟩]

/-- Expands calls of these macros by their names. -/
def placeExpander : Expander where
  model :=
    { bindCall := fun call => placeMacros.find? (·.name == call.callee)
      declaredSymbol := fun _ => none }

/-- A workspace with the standard macros. -/
def placeWorkspace : Workspace Unit where
  session := { host := () }
  registry := StandardMacros.registerAll 0 {}

/-- A file with a function that runs this code itself and in a lambda. -/
def placeFile (inFunction inLambda : Expr) : SyntaxTree where
  path := "file"
  source := none
  items :=
    [.function (.plain "Main" [] .void
      [.evaluate (.callOf "Log" [inFunction]), .evaluate (.lambdaOf [] inLambda)])]

/-- A function that names itself, with a lambda that names none. -/
theorem place_macros_name_the_place_lambda :
    let before := placeFile (.callOf "FunctionName" []) (.callOf "FunctionName" [])
    let after := placeFile (.ofString "Main") (.ofString "<lambda>")
    ∃ expansion calls, (placeExpander.expandWithin 3 before placeWorkspace).1 = .ok expansion ∧
      expansion.tree = after ∧ placeExpander.Places 3 before placeWorkspace calls ∧
      calls.map (·.step.fragments) = [["\"Main\""], ["\"<lambda>\""]] ∧
      ∀ index call, calls[index]? = some call →
        call.bound.symbol = StandardMacros.functionName ⟨0⟩ →
        ∃ items member levels, placeExpander.StandAfter before placeWorkspace index items ∧
          call.bound.site.StandsIn (items.flatMap Item.namedBodies) member levels ∧
          call.placement = .inPlace (.ofString (nameWithin member levels)) := by
  intro before after
  have hafter : (placeExpander.expandWithin 3 before placeWorkspace).1.map Expansion.tree =
      .ok after := by
    unfold before after
    cbv
  have htrace : (placeExpander.expandWithin 3 before placeWorkspace).1.map
      (fun expansion => expansion.trace.map (·.fragments)) =
        .ok [["\"Main\""], ["\"<lambda>\""]] := by
    unfold before
    cbv
  have hapart : MethodSymbol.ToldApart placeMacros := by
    unfold MethodSymbol.ToldApart
    decide
  have hcandidates (call : Call) (symbol : MethodSymbol)
      (h : placeExpander.rules.candidate? call = some symbol) : symbol ∈ placeMacros := by
    have hbinds : placeMacros.find? (·.name == call.callee) = some symbol :=
      (Option.filter_eq_some_iff.mp h).1
    exact List.mem_of_find?_eq_some hbinds
  have hfunctionName : placeWorkspace.registry.HasBody placeExpander.rules
      (StandardMacros.functionName ⟨0⟩) StandardMacros.expandFunctionName :=
    Registry.hasBody_of_toldApart hapart hcandidates List.mem_cons_self ⟨_, rfl, rfl⟩
  have hhere : placeWorkspace.registry.HasBody placeExpander.rules (StandardMacros.here ⟨1⟩)
      StandardMacros.expandHere :=
    Registry.hasBody_of_toldApart hapart hcandidates (List.mem_cons_of_mem _ List.mem_cons_self)
      ⟨_, rfl, rfl⟩
  cases hrun : (placeExpander.expandWithin 3 before placeWorkspace).1 with
  | error stop =>
    rw [hrun] at hafter
    cases hafter
  | ok expansion =>
    obtain ⟨calls, hplaces, -, hnames, -⟩ := place_macros_name_the_place placeExpander 3 before
      placeWorkspace expansion ⟨0⟩ ⟨1⟩ hfunctionName hhere hrun
    rw [hrun] at hafter htrace
    refine ⟨expansion, calls, rfl, Except.ok.inj hafter, hplaces, ?_, hnames⟩
    -- the steps of the trace are those of the calls
    have hsteps : (placeExpander.expandWithin 3 before placeWorkspace).1.map Expansion.trace =
        .ok (calls.map PlacedCall.step) := hplaces.trace
    rw [hrun] at hsteps
    have hfragments : expansion.trace.map (·.fragments) = [["\"Main\""], ["\"<lambda>\""]] :=
      Except.ok.inj htrace
    rw [← hfragments, Except.ok.inj hsteps, List.map_map]
    rfl

end MacroExpansion
