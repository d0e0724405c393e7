import MacroExpansion.Proofs.OrdinaryStatements
import MacroExpansion.Proofs.Recording

/-! # Macros that replace the function, and others

A macro that replaces the function writes the function around its call, under another header and without
the statement of the call. All other macros are ordinary: they go by their call alone and write plain
code. Two expansions are beside each other when the first one makes further calls of macros that replace
the function, and nothing else differs that an ordinary macro could tell (`Workspace.Beside`). An ordinary
macro then comes to the same in both (`Expander.expandsAlike_beside`), and a call that replaces the
function leaves the first one beside the second (`Expander.CallOutcome.replaces`). -/

namespace MacroExpansion

variable {σ : Type}

/-! ## Headers -/

/-- What a declaration tells of a function besides its parameters and its code. -/
structure FunctionHeader where
  /-- The declared name. -/
  name : String
  /-- Names of the attributes. -/
  attributes : List String
  /-- The result type. -/
  returnType : TypeRef

namespace FunctionDecl

/-- The header of a function. -/
def header (decl : FunctionDecl) : FunctionHeader :=
  ⟨decl.name, decl.attributes, decl.returnType⟩

/-- The function under another header. -/
def withHeader (decl : FunctionDecl) (header : FunctionHeader) : FunctionDecl :=
  { decl with
    name := header.name
    attributes := header.attributes
    returnType := header.returnType }

/-- The function with other statements in its body. -/
def withStatements (decl : FunctionDecl) (statements : List Stmt) : FunctionDecl :=
  { decl with body := { decl.body with statements } }

end FunctionDecl

/-! ## Kinds of macros -/

/-- The quotes of an invocation show its place and write to its buffer. -/
def Invocation.WritesTo (invocation : Invocation) (buffer : BufferId) : Prop :=
  ∀ quote, .quote quote ∈ invocation.args → quote.site = invocation.site ∧ quote.buffer = buffer

namespace Implementation

/-- A macro that writes the function around its call, under a header that the call may change it to and
without the statement of the call, and nothing else. -/
def ReplacesFunction (changes : Call → FunctionHeader → FunctionHeader → Prop)
    (implementation : Implementation σ) : Prop :=
  ∀ (invocation : Invocation) (function : FunctionDecl), invocation.site.function = some function →
    invocation.WritesTo (Buffers.create {}).1 → ∀ config source session requested,
    let invoked := invoke implementation invocation config source (Buffers.create {}).2 session
    invoked.outcome = .ok requested →
    ∃ header, changes invocation.site.call function.header header ∧
      requested ++ invoked.buffers.fragments (Buffers.create {}).1 =
        [.function ((function.withHeader header).withStatements
          (function.body.statements.eraseIdx invocation.site.index))]

/-- A macro that goes by its call and its arguments alone: wherever it is called and whatever the host
keeps, it comes to the same, and asks the host to stop or does not. -/
def GoesByCall (implementation : Implementation σ) : Prop :=
  ∀ (invocation : Invocation) (site : Site), invocation.seenAt invocation.site = invocation →
    site.call = invocation.site.call → ∀ config source buffers (session session' : Session σ),
    session.binding.active = none → session'.binding.active = none →
    let invoked := invoke implementation invocation config source buffers session
    let invoked' := invoke implementation (invocation.seenAt site) config source buffers session'
    invoked'.outcome = invoked.outcome ∧ invoked'.buffers = invoked.buffers ∧
      ∃ asks, invoked.session.cancelled = (session.cancelled || asks) ∧
        invoked'.session.cancelled = (session'.cancelled || asks)

end Implementation

/-- A body that only writes, and does the same for the same call, makes a macro that goes by its call. -/
theorem Implementation.goesByCall_of_writesOnly {implementation : Implementation σ}
    (hwrites : ∀ invocation, (implementation.body invocation).WritesOnly)
    (hsame : ∀ (invocation : Invocation) (site : Site),
      invocation.seenAt invocation.site = invocation → site.call = invocation.site.call →
      implementation.body (invocation.seenAt site) = implementation.body invocation) :
    implementation.GoesByCall := by
  intro invocation site hquotes hcall config source buffers session session' hidle hidle'
  obtain ⟨houtcome, hbuffers, hcancelled, hcancelled'⟩ := (hwrites invocation).invoke_same
    (hsame invocation site hquotes hcall) hcall config source buffers hidle hidle'
  refine ⟨houtcome, hbuffers, false, ?_, ?_⟩
  · rw [Bool.or_false, hcancelled]
  · rw [Bool.or_false, hcancelled']

/-- Which macros replace the function around their calls, and how their calls may change its header. -/
structure MacroRoles where
  /-- The macros that replace the function; the others are ordinary. -/
  replaces : SymbolId → Bool
  /-- What a call may make of a header. -/
  changes : Call → FunctionHeader → FunctionHeader → Prop

namespace MacroRoles

variable (roles : MacroRoles) (rules : BindingRules)

/-- An implementation does what a macro of that identity has to do. -/
def Serves (id : SymbolId) (implementation : Implementation σ) : Prop :=
  if roles.replaces id then implementation.ReplacesFunction roles.changes
  else implementation.WritesPlain rules ∧ implementation.GoesByCall

/-- The implementation that a macro leads to does what the macro has to do. -/
def Knows (registry : Registry σ) (symbol : MethodSymbol) : Prop :=
  ∀ implementation, (registry.discover symbol).1 = some implementation →
    roles.Serves rules symbol.id implementation

/-- An ordinary macro of which that is known. -/
def IsOrdinary (registry : Registry σ) (symbol : MethodSymbol) : Prop :=
  roles.replaces symbol.id = false ∧ roles.Knows rules registry symbol

/-- The call is one of a macro that replaces the function. -/
def isReplacing (call : Call) : Bool :=
  (rules.candidate? call).any (roles.replaces ·.id)

/-- The calls of ordinary macros on record, each with the name of the macro. -/
def ordinaryCalls (invocations : List (String × Invocation)) : List (String × Call) :=
  (invocations.filter fun entry => !roles.isReplacing rules entry.2.site.call).map fun entry =>
    (entry.1, entry.2.site.call)

/-- What is known of macros from the start holds of the recording implementations that they lead to. -/
def AreServed (start : Registry σ) (registry : Registry (Recording σ)) : Prop :=
  ∀ symbol, roles.Knows rules start symbol → ∀ found, (registry.discover symbol).1 = some found →
    ∃ implementation, found = implementation.recorded ∧ roles.Serves rules symbol.id implementation

end MacroRoles

section

variable {roles : MacroRoles} {rules : BindingRules}

namespace MacroRoles

/-- The ordinary calls of two records are those of each of them. -/
theorem ordinaryCalls_append (first second : List (String × Invocation)) :
    roles.ordinaryCalls rules (first ++ second) =
      roles.ordinaryCalls rules first ++ roles.ordinaryCalls rules second := by
  unfold ordinaryCalls
  rw [List.filter_append, List.map_append]

/-- An invocation of an ordinary macro counts wherever it takes place. -/
theorem ordinaryCalls_singleton {name : String} {invocation : Invocation}
    (h : roles.isReplacing rules invocation.site.call = false) :
    roles.ordinaryCalls rules [(name, invocation)] = [(name, invocation.site.call)] := by
  unfold ordinaryCalls
  rw [List.filter_cons_of_pos (by rw [h]; rfl), List.filter_nil]
  rfl

/-- An invocation of a macro that replaces the function does not count. -/
theorem ordinaryCalls_singleton_of_replacing {name : String} {invocation : Invocation}
    (h : roles.isReplacing rules invocation.site.call = true) :
    roles.ordinaryCalls rules [(name, invocation)] = [] := by
  unfold ordinaryCalls
  rw [List.filter_cons_of_neg (by rw [h]; exact Bool.false_ne_true), List.filter_nil]
  rfl

/-- Whether a call replaces the function is up to the macro that it leads to. -/
theorem isReplacing_eq {call : Call} {symbol : MethodSymbol} (h : rules.candidate? call = some symbol) :
    roles.isReplacing rules call = roles.replaces symbol.id := by
  rw [isReplacing, h, Option.any_some]

/-- A call that replaces the function leads to a macro that does. -/
theorem exists_of_isReplacing {call : Call} (h : roles.isReplacing rules call = true) :
    ∃ symbol, rules.candidate? call = some symbol ∧ roles.replaces symbol.id = true := by
  unfold isReplacing at h
  cases hsymbol : rules.candidate? call with
  | none =>
    rw [hsymbol] at h
    cases h
  | some symbol =>
    rw [hsymbol] at h
    exact ⟨symbol, rfl, h⟩

/-- The registry of a recording workspace serves what is known from the start. -/
theorem areServed_recorded (roles : MacroRoles) (rules : BindingRules) (registry : Registry σ) :
    roles.AreServed rules registry registry.recorded := by
  intro symbol hknown found hfound
  rw [Registry.discover_recorded] at hfound
  obtain ⟨implementation, himplementation, rfl⟩ := Option.map_eq_some_iff.mp hfound
  exact ⟨implementation, rfl, hknown implementation himplementation⟩

/-- Looking up a macro of which something is known leaves what is known. -/
theorem AreServed.discover {start : Registry σ} {registry : Registry (Recording σ)}
    {symbol : MethodSymbol} (h : roles.AreServed rules start registry)
    (hsymbol : roles.Knows rules start symbol) :
    roles.AreServed rules start (registry.discover symbol).2 := by
  intro other hother found hfound
  rw [Registry.discover_discover] at hfound
  split at hfound
  · rcases Option.or_eq_some_iff.mp hfound with hsame | ⟨-, hown⟩
    · -- what is remembered for the identity was found for a macro of the same role
      rw [← show symbol.id = other.id from ‹_›]
      exact h symbol hsymbol found hsame
    · exact h other hother found hown
  · exact h other hother found hfound

end MacroRoles

/-! ## Expansions beside each other -/

/-- Two recording workspaces from which ordinary macros come to the same. The first one may have seen
further calls of macros that replace the function. -/
structure Workspace.Beside (roles : MacroRoles) (rules : BindingRules) (start : Registry σ)
    (workspace other : Workspace (Recording σ)) : Prop where
  /-- The same call is published. -/
  binding : other.session.binding = workspace.session.binding
  /-- The first one is cancelled if the second one is. -/
  cancelled : other.session.cancelled = true → workspace.session.cancelled = true
  /-- The same calls of ordinary macros are on record. -/
  calls : roles.ordinaryCalls rules other.session.host.invocations =
    roles.ordinaryCalls rules workspace.session.host.invocations
  /-- Ordinary macros lead to the same implementations. -/
  leads (symbol : MethodSymbol) (h : roles.replaces symbol.id = false) :
    (other.registry.discover symbol).1 = (workspace.registry.discover symbol).1
  /-- What is known from the start still holds. -/
  served : roles.AreServed rules start workspace.registry

/-- Two progresses with workspaces beside each other. -/
def Progress.Beside (roles : MacroRoles) (rules : BindingRules) (start : Registry σ)
    (progress other : Progress (Recording σ)) : Prop :=
  progress.toWorkspace.Beside roles rules start other.toWorkspace

/-- A recording progress is beside itself. -/
theorem Progress.Beside.refl (roles : MacroRoles) (rules : BindingRules) (progress : Progress σ)
    (earlier : List (String × Invocation)) :
    (progress.recorded earlier).Beside roles rules progress.registry (progress.recorded earlier) where
  binding := rfl
  cancelled := id
  calls := rfl
  leads _ _ := rfl
  served := MacroRoles.areServed_recorded roles rules progress.registry

namespace Workspace.Beside

variable {start : Registry σ} {workspace other : Workspace (Recording σ)} {symbol : MethodSymbol}

/-- Looking up an ordinary macro in both. -/
theorem discover (h : workspace.Beside roles rules start other)
    (hsymbol : roles.IsOrdinary rules start symbol) :
    Beside roles rules start
      { workspace with registry := (workspace.registry.discover symbol).2 }
      { other with registry := (other.registry.discover symbol).2 } where
  binding := h.binding
  cancelled := h.cancelled
  calls := h.calls
  served := h.served.discover hsymbol.2
  leads next hnext := by
    rw [Registry.discover_discover, Registry.discover_discover, h.leads symbol hsymbol.1,
      h.leads next hnext]

/-- Looking up a macro that replaces the function in the first one only. -/
theorem discover_of_replacing (h : workspace.Beside roles rules start other)
    (hreplaces : roles.replaces symbol.id = true) (hknown : roles.Knows rules start symbol) :
    Beside roles rules start { workspace with registry := (workspace.registry.discover symbol).2 }
      other where
  binding := h.binding
  cancelled := h.cancelled
  calls := h.calls
  served := h.served.discover hknown
  leads next hnext := by
    have hid : symbol.id ≠ next.id := by
      intro hid
      rw [hid, hnext] at hreplaces
      cases hreplaces
    rw [Registry.discover_discover_of_ne _ hid]
    exact h.leads next hnext

end Workspace.Beside

/-! ## Steps of an expansion -/

/-- A body comes to a result only while no call is published. -/
theorem active_eq_none_of_invoke {implementation : Implementation σ} {invocation : Invocation}
    {config : ExpansionConfig} {source : Option SourceText} {buffers : Buffers} {session : Session σ}
    {requested : List Fragment}
    (h : (invoke implementation invocation config source buffers session).outcome = .ok requested) :
    session.binding.active = none := by
  refine Option.not_isSome_iff_eq_none.mp fun hactive => ?_
  rw [invoke_of_active _ _ _ _ _ hactive] at h
  cases h

namespace ExpandM.Simulates

variable {start : Registry σ}

/-- The first expansion goes on only if the second one does. -/
theorem checkCancelled_beside (roles : MacroRoles) (rules : BindingRules) (start : Registry σ) :
    Simulates (Progress.Beside roles rules start) True Eq checkCancelled checkCancelled := by
  intro progress other h
  rw [runFrom_checkCancelled, runFrom_checkCancelled]
  cases hcancelled : progress.session.cancelled with
  | true => exact .inl True.intro
  | false =>
    have hother : other.session.cancelled = false := by
      refine Bool.eq_false_iff.mpr fun hother => ?_
      rw [h.cancelled hother] at hcancelled
      cases hcancelled
    rw [hother]
    exact ⟨(), other, rfl, rfl, h⟩

/-- An ordinary macro has the same implementation, which is an ordinary one. -/
theorem resolve_beside {symbol : MethodSymbol} (hsymbol : roles.IsOrdinary rules start symbol)
    (site site' : Site) (source : Option SourceText) :
    Simulates (Progress.Beside roles rules start) True
      (fun found found' => found' = found ∧ ∃ implementation : Implementation σ,
        found = implementation.recorded ∧ implementation.WritesPlain rules ∧
          implementation.GoesByCall)
      (resolve symbol site source) (resolve symbol site' source) := by
  intro progress other h
  have hkept := Workspace.Beside.discover h hsymbol
  rw [runFrom_resolve, runFrom_resolve]
  simp only [Registry.resolve_eq, h.leads symbol hsymbol.1]
  cases hfound : (progress.registry.discover symbol).1 with
  | none => exact .inl True.intro
  | some found =>
    obtain ⟨implementation, hrecorded, hserves⟩ := h.served symbol hsymbol.2 found hfound
    rw [MacroRoles.Serves, hsymbol.1, if_neg Bool.false_ne_true] at hserves
    exact ⟨found, _, rfl, ⟨rfl, implementation, hrecorded, hserves⟩, hkept⟩

/-- The body of an ordinary macro writes the same plain code. -/
theorem runBody_beside {implementation : Implementation σ} (hplain : implementation.WritesPlain rules)
    (hbyCall : implementation.GoesByCall) (invocation : Invocation) {site : Site}
    (hquotes : invocation.seenAt invocation.site = invocation)
    (hsite : site.call = invocation.site.call)
    (hordinary : roles.isReplacing rules invocation.site.call = false) (config : ExpansionConfig)
    (source : Option SourceText) (buffer : BufferId) :
    Simulates (Progress.Beside roles rules start) True
      (fun output output' => output' = output ∧
        ∀ fragment ∈ output.2 ++ output.1, fragment.IsPlain rules)
      (runBody implementation.recorded invocation config source (Buffers.create {}).2 buffer)
      (runBody implementation.recorded (invocation.seenAt site) config source (Buffers.create {}).2
        buffer) := by
  intro progress other h
  rw [runFrom_runBody, runFrom_runBody]
  have hsame := outcome_invoke_recorded implementation invocation config source
    (Buffers.create {}).2 progress.session
  cases houtcome : (invoke implementation invocation config source (Buffers.create {}).2
    progress.session.unrecorded).outcome with
  | error stop =>
    rw [houtcome] at hsame
    simp only [hsame]
    exact .inl True.intro
  | ok requested =>
    have hidle : progress.session.unrecorded.binding.active = none :=
      active_eq_none_of_invoke houtcome
    have hidle' : other.session.unrecorded.binding.active = none :=
      (congrArg CallBinding.active h.binding).trans hidle
    obtain ⟨houtcome', hbuffers, asks, hcancelled, hcancelled'⟩ := hbyCall invocation site hquotes
      hsite config source (Buffers.create {}).2 progress.session.unrecorded other.session.unrecorded
      hidle hidle'
    obtain ⟨hrequested, hwritten⟩ := hplain _ _ _ _ _ houtcome
    simp only [invoke_recorded_of_ok houtcome, invoke_recorded_of_ok (houtcome'.trans houtcome)]
    refine ⟨_, _, rfl, ⟨?_, ?_⟩, ?_⟩
    · rw [hbuffers]
    · exact List.forall_mem_append.mpr ⟨hrequested, hwritten buffer⟩
    · have hcall : roles.isReplacing rules (invocation.seenAt site).site.call = false :=
        (congrArg (roles.isReplacing rules) hsite).trans hordinary
      refine ⟨?_, fun hother => ?_, ?_, h.leads, h.served⟩
      · have hbinding := binding_invoke implementation invocation config source (Buffers.create {}).2
          progress.session.unrecorded
        have hbinding' := binding_invoke implementation (invocation.seenAt site) config source
          (Buffers.create {}).2 other.session.unrecorded
        exact hbinding'.trans (h.binding.trans hbinding.symm)
      · -- the macro asks in both expansions, or in none of them
        have hasked : (other.session.cancelled || asks) = true := hcancelled'.symm.trans hother
        refine hcancelled.trans (Bool.or_eq_true_iff.mpr ?_)
        exact (Bool.or_eq_true_iff.mp hasked).imp_left h.cancelled
      · change roles.ordinaryCalls rules (other.session.host.invocations ++ _) =
          roles.ordinaryCalls rules (progress.session.host.invocations ++ _)
        rw [MacroRoles.ordinaryCalls_append, MacroRoles.ordinaryCalls_append, h.calls,
          MacroRoles.ordinaryCalls_singleton hordinary, MacroRoles.ordinaryCalls_singleton hcall,
          show (invocation.seenAt site).site.call = invocation.site.call from hsite]

end ExpandM.Simulates

/-! ## Ordinary macros -/

/-- Plain fragments have the same place wherever the call stands. -/
theorem Placement.ofFragments_eq {symbol : MethodSymbol} {site other : Site} {fragments : List Fragment}
    (hcall : other.call = site.call) (hstatement : other.statement = site.statement)
    (hplain : ∀ fragment ∈ fragments, fragment.IsPlain rules) :
    ofFragments symbol other fragments = ofFragments symbol site fragments := by
  unfold ofFragments
  rw [hcall, hstatement]
  rcases fragments with - | ⟨first, rest⟩
  · rfl
  · have hfirst := hplain first List.mem_cons_self
    cases first with
    | function decl => exact hfirst.elim
    | expr expr => cases rest <;> rfl
    | stmt stmt => cases rest <;> rfl

namespace BoundCall.Alike

variable {ordinary : MethodSymbol → Prop} {bound other : BoundCall}

/-- Output of ordinary macros has the same place, and is plain code there. -/
theorem place_mirrors (h : bound.Alike rules ordinary other) {fragments : List Fragment}
    (hplain : ∀ fragment ∈ fragments, fragment.IsPlain rules) (source : Option SourceText) :
    Mirrors True (fun placement placement' => placement' = placement ∧ placement.IsPlain rules)
      (bound.atCall source (bound.place fragments)) (other.atCall source (other.place fragments)) := by
  have hsymbol : other.symbol = bound.symbol := by
    rw [h.seen]
    rfl
  have hcaptured : other.captured = 0 := by
    rw [h.seen]
    exact h.captured
  have hfragments : Placement.ofFragments bound.symbol other.site fragments =
      Placement.ofFragments bound.symbol bound.site fragments :=
    Placement.ofFragments_eq h.site.call h.site.statement hplain
  simp only [atCall, place, hsymbol, hfragments, h.captured, hcaptured, if_true]
  cases hplace : Placement.ofFragments bound.symbol bound.site fragments with
  | error fault => exact .ignored True.intro _ _
  | ok placement => exact .ok ⟨rfl, Placement.isPlain_ofFragments hplain hplace⟩

end BoundCall.Alike

/-- Calls of ordinary macros come to the same plain code in expansions beside each other. -/
theorem Expander.expandsAlike_beside (expander : Expander) (file : FileOrigin) (roles : MacroRoles)
    (start : Registry σ) :
    expander.ExpandsAlike (Progress.Beside roles expander.rules start) file
      (roles.IsOrdinary expander.rules start) where
  poll := .checkCancelled_beside roles expander.rules start
  expandCall {bound other} hbound := by
    have hseen := hbound.seen
    have hsite := hbound.site
    generalize other.site = site at hseen hsite
    subst hseen
    have hordinary : roles.isReplacing expander.rules bound.site.call = false :=
      (MacroRoles.isReplacing_eq hbound.leads).trans hbound.ordinary.1
    unfold expandCall
    -- the warnings make no difference
    have hwarn : ExpandM.Simulates (Progress.Beside roles expander.rules start) True Eq
        (ExpandM.warn bound.placeholderWarnings)
        (ExpandM.warn (bound.seenAt site).placeholderWarnings) :=
      fun _ _ h => ⟨(), _, rfl, rfl, h⟩
    refine hwarn.bind fun _ _ _ => ?_
    refine .bind (.resolve_beside hbound.ordinary _ _ file.source) ?_
    rintro _ _ ⟨rfl, implementation, rfl, hplain, hbyCall⟩
    rw [BoundCall.resolveTypeArgs_seenAt hsite.call]
    refine .bind (.require (.of_eq rfl)) ?_
    rintro typeArgs _ rfl
    -- the body writes to a new buffer
    have hquotes : Invocation.seenAt bound.site { site := bound.site, args := bound.args, typeArgs } =
        { site := bound.site, args := bound.args, typeArgs } := by
      rw [Invocation.seenAt, show bound.args.map _ = bound.args from
        congrArg BoundCall.args hbound.own]
    have hbody : ExpandM.Simulates (Progress.Beside roles expander.rules start) True _ _ _ :=
      .runBody_beside hplain hbyCall { site := bound.site, args := bound.args, typeArgs } hquotes
        hsite.call hordinary expander.config file.source bound.buffer
    rw [← hbound.buffers] at hbody
    refine .bind hbody ?_
    rintro ⟨written, requested⟩ _ ⟨rfl, hfragments⟩
    have houtput : Mirrors True (fun fragments fragments' => fragments' = fragments ∧
          ∀ fragment ∈ fragments, fragment.IsPlain expander.rules)
        (bound.atCall file.source (bound.output written requested))
        ((bound.seenAt site).atCall file.source ((bound.seenAt site).output written requested)) := by
      rw [BoundCall.atCall_seenAt hsite.call]
      change Mirrors True _ _ (bound.atCall file.source (bound.output written requested))
      cases hwrites : bound.output written requested with
      | error fault => exact .error _
      | ok fragments =>
        rw [BoundCall.output_eq hwrites]
        exact .ok ⟨rfl, hfragments⟩
    refine .bind (.require houtput) ?_
    rintro fragments _ ⟨rfl, hfragments⟩
    refine .bind (.require (hbound.place_mirrors hfragments file.source)) ?_
    rintro placement _ ⟨rfl, hplacement⟩
    split
    · have hrecord (step step' : ExpansionStep) :
          ExpandM.Simulates (Progress.Beside roles expander.rules start) True Eq
            (ExpandM.record step) (ExpandM.record step') :=
        fun _ _ h => ⟨(), _, rfl, rfl, h⟩
      exact (hrecord _ _).bind fun _ _ _ => .pure ⟨rfl, hplacement⟩
    · exact .pure ⟨rfl, hplacement⟩

/-! ## Macros that replace the function -/

/-- One function as output stands for the function around the call, whatever the call captured. -/
theorem BoundCall.place_function {bound : BoundCall} {function decl : FunctionDecl}
    {placement : Placement} (hfunction : bound.site.function = some function)
    (h : bound.place [.function decl] = .ok placement) : placement = .function decl := by
  obtain ⟨output, houtput, rfl⟩ := place_eq h
  unfold Placement.ofFragments at houtput
  rw [hfunction] at houtput
  cases houtput
  split <;> rfl

/-- A call of a macro that replaces the function puts the function under another header and without the
statement of the call in its place. The expansion is then still beside one without the call that goes
on. -/
theorem Expander.CallOutcome.replaces {expander : Expander} {source : Option SourceText}
    {start : Registry σ} {symbol : MethodSymbol} {site : Site} {bound : BoundCall}
    {progress ended other : Progress (Recording σ)} {placement : Placement} {function : FunctionDecl}
    (h : CallOutcome expander source bound progress (.ok placement) ended)
    (hbind : expander.rules.bind symbol site source = .ok (some bound))
    (hsymbol : expander.rules.candidate? site.call = some symbol)
    (hreplaces : roles.replaces symbol.id = true) (hknown : roles.Knows expander.rules start symbol)
    (hfunction : site.function = some function)
    (hbeside : progress.Beside roles expander.rules start other)
    (hgoesOn : other.session.cancelled = false) :
    ended.Beside roles expander.rules start other ∧
      ∃ header, roles.changes site.call function.header header ∧
        placement = .function ((function.withHeader header).withStatements
          (function.body.statements.eraseIdx site.index)) := by
  obtain ⟨-, rfl, rfl, hbuffers, -⟩ := BindingRules.bind_some_cases hbind
  have hbuffer : bound.buffer = (Buffers.create {}).1 := by
    rw [BindingRules.eq_boundWith_of_bind hbind]
    rfl
  cases h with
  | placed hruns houtcome houtput hplace =>
    rename_i found registry invoked requested fragments
    have hdiscover := Registry.discover_of_resolve hruns.resolved
    obtain ⟨implementation, rfl, hserves⟩ :=
      hbeside.served bound.symbol hknown found (congrArg Prod.fst hdiscover)
    rw [MacroRoles.Serves, if_pos hreplaces] at hserves
    obtain ⟨typeArgs, -, rfl⟩ := hruns.invoked
    rw [hbuffers, outcome_invoke_recorded] at houtcome
    rw [hbuffers, invoke_recorded_of_ok houtcome] at houtput ⊢
    have hwritesTo : Invocation.WritesTo { site := bound.site, args := bound.args, typeArgs }
        (Buffers.create {}).1 := by
      intro quote hquote
      rw [← hbuffer]
      exact BindingRules.quote_of_bind hbind hquote
    obtain ⟨header, hchanges, hwritten⟩ := hserves { site := bound.site, args := bound.args, typeArgs }
      function hfunction hwritesTo _ _ _ _ houtcome
    have hkept := Workspace.Beside.discover_of_replacing hbeside hreplaces hknown
    rw [hdiscover] at hkept
    refine ⟨⟨?_, ?_, ?_, hkept.leads, hkept.served⟩, header, hchanges, ?_⟩
    · have hbinding := binding_invoke implementation
        { site := bound.site, args := bound.args, typeArgs } expander.config source
        (Buffers.create {}).2 progress.session.unrecorded
      exact hbeside.binding.trans hbinding.symm
    · intro hother
      rw [hgoesOn] at hother
      cases hother
    · -- the record of this call does not count
      change roles.ordinaryCalls expander.rules other.session.host.invocations =
        roles.ordinaryCalls expander.rules (progress.session.host.invocations ++ _)
      have hcall := (MacroRoles.isReplacing_eq hsymbol).trans hreplaces
      rw [MacroRoles.ordinaryCalls_append, MacroRoles.ordinaryCalls_singleton_of_replacing hcall,
        List.append_nil, hbeside.calls]
    · refine BoundCall.place_function hfunction ?_
      rw [← hwritten, ← hplace, BoundCall.output_eq houtput, hbuffer]

end

end MacroExpansion
