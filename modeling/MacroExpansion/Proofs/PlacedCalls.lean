import MacroExpansion.Proofs.CallOutcome
import MacroExpansion.Proofs.Recording

/-! # The calls that an expansion places

Every call that an expansion goes through with leaves three things behind: the invocation of its macro,
the warnings about its placeholders, and a step of the trace. `PlacedCall` keeps what all of them are
made from, and `Progress.Gains` says that a list of placed calls accounts for what became of a
progress. `ExpandM.Accounts` says so of all runs of a program that come to a result, with something
about the calls and the result together; it composes along `bind`. -/

namespace MacroExpansion

variable {σ : Type}

/-- A call whose output was placed. -/
structure PlacedCall where
  /-- The call with its arguments. -/
  bound : BoundCall
  /-- The name of the implementation. -/
  name : String
  /-- The runtime types of its type arguments. -/
  typeArgs : List String
  /-- The output of the macro. -/
  fragments : List Fragment
  /-- Where the output went. -/
  placement : Placement

namespace PlacedCall

/-- What the body of the macro received. -/
def invocation (call : PlacedCall) : Invocation where
  site := call.bound.site
  args := call.bound.args
  typeArgs := call.typeArgs

/-- The record of the invocation. -/
def entry (call : PlacedCall) : String × Invocation :=
  (call.name, call.invocation)

/-- The step of the trace. -/
def step (call : PlacedCall) : ExpansionStep where
  macroName := call.bound.symbol.qualifiedName
  span := call.bound.site.call.span
  call := call.bound.site.call.text
  fragments := call.fragments.map Fragment.text
  splice := call.placement.kind

/-- The call was bound, and its output placed, by an expansion of a file. -/
structure IsOf (expander : Expander) (file : FileOrigin) (call : PlacedCall) : Prop where
  /-- The call leads to the macro. -/
  leads : expander.rules.candidate? call.bound.site.call = some call.bound.symbol
  /-- Its arguments are bound. -/
  binds : expander.rules.bind call.bound.symbol call.bound.site file.source = .ok (some call.bound)
  /-- Its type arguments are known at run time. -/
  types : resolveTypeArgs call.bound.symbol call.bound.site expander.metadata file.source =
    .ok call.typeArgs
  /-- The output of the macro has its place. -/
  placed : call.bound.place call.fragments = .ok call.placement

end PlacedCall

/-! ## Implementations of placed calls -/

/-- A registry in which some macros of calls were looked up, one after the other. -/
inductive Registry.LookedUp (rules : BindingRules) (start : Registry σ) : Registry σ → Prop where
  /-- Nothing was looked up. -/
  | none : LookedUp rules start start
  /-- One macro more was looked up. -/
  | next {registry : Registry σ} {call : Call} {symbol : MethodSymbol}
      (h : LookedUp rules start registry) (hsymbol : rules.candidate? call = some symbol) :
      LookedUp rules start (registry.discover symbol).2

/-- One registry after the other. -/
theorem Registry.LookedUp.trans {rules : BindingRules} {start middle registry : Registry σ}
    (h : start.LookedUp rules middle) (h' : middle.LookedUp rules registry) :
    start.LookedUp rules registry := by
  induction h' with
  | none => exact h
  | next _ hsymbol ih => exact ih.next hsymbol

/-- The output of the call is that of the implementation which a registry has for its macro. -/
def PlacedCall.IsServedBy (expander : Expander) (file : FileOrigin) (registry : Registry σ)
    (call : PlacedCall) : Prop :=
  ∃ implementation, (registry.discover call.bound.symbol).1 = some implementation ∧
    ∃ session requested,
      let invoked := invoke implementation call.invocation expander.config file.source
        call.bound.buffers session
      invoked.outcome = .ok requested ∧
        call.bound.output (invoked.buffers.fragments call.bound.buffer) requested =
          .ok call.fragments

/-- The calls have their implementations in the registry, from which macros were looked up one after
the other until some recorded registry was left. -/
def Registry.ServesUntil (expander : Expander) (file : FileOrigin) (calls : List PlacedCall)
    (start : Registry σ) (left : Registry (Recording σ)) : Prop :=
  ∃ plain : Registry σ, left = plain.recorded ∧ start.LookedUp expander.rules plain ∧
    ∀ call ∈ calls, ∃ registry, start.LookedUp expander.rules registry ∧
      call.IsServedBy expander file registry

/-! ## Recording implementations -/

/-- All implementations record their invocations. -/
def Progress.IsRecording (progress : Progress (Recording σ)) : Prop :=
  ∀ implementation, progress.registry.Has implementation →
    ∃ plain : Implementation σ, implementation = plain.recorded

/-- The implementations of a recording registry are recording ones. -/
theorem Registry.exists_of_has_recorded {registry : Registry σ}
    {implementation : Implementation (Recording σ)} (h : registry.recorded.Has implementation) :
    ∃ plain, registry.Has plain ∧ implementation = plain.recorded := by
  rcases h with ⟨signature, hfound⟩ | ⟨id, hfound⟩
  · rw [recorded, Keyed.lookup_changed] at hfound
    obtain ⟨plain, hplain, rfl⟩ := Option.map_eq_some_iff.mp hfound
    exact ⟨plain, .inl ⟨signature, hplain⟩, rfl⟩
  · rw [recorded, Keyed.lookup_changed] at hfound
    obtain ⟨plain, hplain, rfl⟩ := Option.map_eq_some_iff.mp hfound
    exact ⟨plain, .inr ⟨id, hplain⟩, rfl⟩

/-- A recording workspace is one to start from. -/
theorem Workspace.isRecording_recorded (workspace : Workspace σ)
    (earlier : List (String × Invocation)) :
    Progress.IsRecording { toWorkspace := workspace.recorded earlier } := fun _ hhas =>
  (Registry.exists_of_has_recorded hhas).imp fun _ => And.right

/-- A body that is run puts its invocation on record, also when it comes to nothing. -/
theorem invocations_invoke_recorded (plain : Implementation σ) (invocation : Invocation)
    (config : ExpansionConfig) (source : Option SourceText) (buffers : Buffers)
    (session : Session (Recording σ)) :
    let invoked := invoke plain.recorded invocation config source buffers session
    (∃ error, invoked.outcome = .error (.error error)) ∨
      invoked.session.host.invocations = session.host.invocations ++ [(plain.name, invocation)] := by
  unfold invoke
  cases session.binding.enter invocation.site with
  | error error => exact .inl ⟨error, rfl⟩
  | ok binding => exact .inr rfl

/-! ## Accounting for progress -/

/-- The calls account for what became of a progress: for the invocations, the warnings and the steps
that were added to it. -/
structure Progress.Gains (expander : Expander) (file : FileOrigin)
    (progress : Progress (Recording σ)) (calls : List PlacedCall)
    (ended : Progress (Recording σ)) : Prop where
  /-- The calls were placed by the expansion. -/
  isOf : ∀ call ∈ calls, call.IsOf expander file
  /-- One invocation per call. -/
  invocations : ended.invocations = progress.invocations ++ calls.map PlacedCall.entry
  /-- The warnings of the calls. -/
  warnings : ended.warnings.toList =
    progress.warnings.toList ++ calls.flatMap (·.bound.placeholderWarnings)
  /-- One step per call, if steps are recorded. -/
  trace : ended.trace.toList = progress.trace.toList ++
    if expander.config.recordTrace then calls.map PlacedCall.step else []
  /-- The implementations are still recording ones. -/
  recording : ended.IsRecording
  /-- The calls have their implementations. -/
  serves : ∀ start : Registry σ, progress.registry = start.recorded →
    start.ServesUntil expander file calls ended.registry

namespace Progress.Gains

variable {expander : Expander} {file : FileOrigin} {progress middle ended : Progress (Recording σ)}
  {calls later : List PlacedCall}

/-- Nothing becomes of a progress without calls. -/
theorem nil (h : progress.IsRecording) : progress.Gains expander file [] progress where
  isOf _ hmem := absurd hmem List.not_mem_nil
  invocations := (List.append_nil _).symm
  warnings := (List.append_nil _).symm
  trace := by split <;> exact (List.append_nil _).symm
  recording := h
  serves start hstart := ⟨start, hstart, .none, fun _ hmem => absurd hmem List.not_mem_nil⟩

/-- Later calls come behind the earlier ones. -/
theorem append (h : progress.Gains expander file calls middle)
    (h' : middle.Gains expander file later ended) :
    progress.Gains expander file (calls ++ later) ended where
  isOf := List.forall_mem_append.mpr ⟨h.isOf, h'.isOf⟩
  invocations := by rw [h'.invocations, h.invocations, List.map_append, List.append_assoc]
  warnings := by rw [h'.warnings, h.warnings, List.flatMap_append, List.append_assoc]
  trace := by
    rw [h'.trace, h.trace]
    split
    · rw [List.map_append, List.append_assoc]
    · rw [List.append_nil, List.append_nil]
  recording := h'.recording
  serves start hstart := by
    obtain ⟨between, hbetween, hlooked, hserved⟩ := h.serves start hstart
    obtain ⟨plain, hplain, hlooked', hserved'⟩ := h'.serves between hbetween
    refine ⟨plain, hplain, hlooked.trans hlooked', List.forall_mem_append.mpr ⟨hserved, ?_⟩⟩
    intro call hcall
    obtain ⟨registry, hregistry, hserves⟩ := hserved' call hcall
    exact ⟨registry, hlooked.trans hregistry, hserves⟩

end Progress.Gains

namespace ExpandM

variable {expander : Expander} {file : FileOrigin} {α β : Type}

/-- In every run that comes to a result, calls account for what became of the progress, and they have
to do with the result in some way. -/
def Accounts (expander : Expander) (file : FileOrigin) (P : List PlacedCall → α → Prop)
    (program : ExpandM (Recording σ) α) : Prop :=
  ∀ progress value ended, progress.IsRecording → program.runFrom progress = (.ok value, ended) →
    ∃ calls, progress.Gains expander file calls ended ∧ P calls value

namespace Accounts

variable {P : List PlacedCall → α → Prop} {Q : List PlacedCall → β → Prop}
  {program : ExpandM (Recording σ) α}

/-- No call is placed without a step. -/
theorem pure {value : α} (h : P [] value) :
    Accounts expander file P (Pure.pure value : ExpandM (Recording σ) α) := by
  intro progress result ended hrecording hrun
  cases hrun
  exact ⟨[], .nil hrecording, h⟩

/-- Early ends have no results. -/
theorem throw (stop : Stop) :
    Accounts expander file P (MonadExcept.throw stop : ExpandM (Recording σ) α) := by
  intro progress result ended _ hrun
  cases hrun

/-- The calls of two parts are placed one after the other. -/
theorem bind {next : α → ExpandM (Recording σ) β} (h : program.Accounts expander file P)
    (hnext : ∀ calls value, P calls value →
      (next value).Accounts expander file fun later result => Q (calls ++ later) result) :
    (program >>= next).Accounts expander file Q := by
  intro progress result ended hrecording hrun
  obtain ⟨value, middle, hfirst, hsecond⟩ := bind_ok hrun
  obtain ⟨calls, hgains, hcalls⟩ := h progress value middle hrecording hfirst
  obtain ⟨later, hgains', hlater⟩ :=
    hnext calls value hcalls middle result ended hgains.recording hsecond
  exact ⟨calls ++ later, hgains.append hgains', hlater⟩

/-- A result may be put into another form at the end. -/
theorem bind_pure {f : α → β} (h : program.Accounts expander file P)
    (hf : ∀ calls value, P calls value → Q calls (f value)) :
    (program >>= fun value => Pure.pure (f value)).Accounts expander file Q := by
  refine h.bind fun calls value hcalls => .pure ?_
  rw [List.append_nil]
  exact hf calls value hcalls

/-- A weaker property will do. -/
theorem mono {P' : List PlacedCall → α → Prop} (h : program.Accounts expander file P)
    (hP : ∀ calls value, P calls value → P' calls value) : program.Accounts expander file P' := by
  intro progress value ended hrecording hrun
  obtain ⟨calls, hgains, hcalls⟩ := h progress value ended hrecording hrun
  exact ⟨calls, hgains, hP calls value hcalls⟩

/-- What is ensured of all results is known besides. -/
theorem and_ensures {R : α → Prop} (h : program.Accounts expander file P) (hR : program.Ensures R) :
    program.Accounts expander file fun calls value => P calls value ∧ R value := by
  intro progress value ended hrecording hrun
  obtain ⟨calls, hgains, hcalls⟩ := h progress value ended hrecording hrun
  exact ⟨calls, hgains, hcalls, hR progress value ended hrun⟩

/-- Asking the host places no call. -/
theorem checkCancelled : Accounts expander file (fun calls _ => calls = [])
    (ExpandM.checkCancelled : ExpandM (Recording σ) Unit) := by
  intro progress value ended hrecording hrun
  rw [runFrom_checkCancelled] at hrun
  split at hrun
  · cases hrun
  · cases hrun
    exact ⟨[], .nil hrecording, rfl⟩

end Accounts

end ExpandM

/-! ## One call -/

/-- A call whose macro is looked up in a recorded registry has its implementation there. -/
theorem Registry.servesUntil_of_resolve {expander : Expander} {file : FileOrigin} {call : PlacedCall}
    {progress : Progress (Recording σ)} {implementation : Implementation (Recording σ)}
    {registry : Registry (Recording σ)} {requested : List Fragment} {start : Registry σ}
    (hresolved : progress.registry.resolve call.bound.symbol call.bound.site file.source =
      (.ok implementation, registry))
    (hleads : expander.rules.candidate? call.bound.site.call = some call.bound.symbol)
    (houtcome : (invoke implementation call.invocation expander.config file.source call.bound.buffers
      progress.session).outcome = .ok requested)
    (houtput : call.bound.output ((invoke implementation call.invocation expander.config file.source
      call.bound.buffers progress.session).buffers.fragments call.bound.buffer) requested =
        .ok call.fragments)
    (hstart : progress.registry = start.recorded) :
    start.ServesUntil expander file [call] registry := by
  have hdiscover := Registry.discover_of_resolve hresolved
  rw [hstart, Registry.discover_recorded] at hdiscover
  obtain ⟨plain, hplain, rfl⟩ := Option.map_eq_some_iff.mp (congrArg Prod.fst hdiscover)
  -- recorded or not, the implementation comes to the same
  obtain ⟨later, -, hinvoke⟩ := invoke_recorded plain call.invocation expander.config file.source
    call.bound.buffers progress.session.unrecorded progress.session.host.invocations
  have hinvoked : invoke plain.recorded call.invocation expander.config file.source
      call.bound.buffers progress.session = _ := hinvoke
  rw [hinvoked] at houtcome houtput
  refine ⟨_, (congrArg Prod.snd hdiscover).symm, .next .none hleads,
    List.forall_mem_singleton.mpr ⟨start, .none, plain, hplain, ?_⟩⟩
  exact ⟨progress.session.unrecorded, requested, houtcome, houtput⟩

/-- A call that is expanded accounts for what becomes of the progress. -/
theorem Expander.CallOutcome.gains {expander : Expander} {file : FileOrigin} {bound : BoundCall}
    {progress ended : Progress (Recording σ)} {placement : Placement}
    (h : expander.CallOutcome file.source bound progress (.ok placement) ended)
    (hrecording : progress.IsRecording)
    (hleads : expander.rules.candidate? bound.site.call = some bound.symbol)
    (hbinds : expander.rules.bind bound.symbol bound.site file.source = .ok (some bound)) :
    ∃ call : PlacedCall, progress.Gains expander file [call] ended ∧
      call.bound = bound ∧ call.placement = placement := by
  have hstill : ended.IsRecording := fun implementation hhas => hrecording _ (h.has hhas)
  have hwarnings := h.warnings_eq
  cases h with
  | @placed implementation registry invoked requested fragments _ hruns houtcome houtput hplace =>
    obtain ⟨plain, rfl⟩ := hrecording _ (Registry.has_of_resolve (congrArg Prod.fst hruns.resolved))
    obtain ⟨typeArgs, htypes, rfl⟩ := hruns.invoked
    -- the body was run, for it came to a result
    have hentry := (invocations_invoke_recorded plain { site := bound.site, args := bound.args, typeArgs }
      expander.config file.source bound.buffers progress.session).resolve_left <| by
        rintro ⟨error, herror⟩
        rw [houtcome] at herror
        cases herror
    refine ⟨⟨bound, plain.name, typeArgs, fragments, placement⟩,
      ⟨?_, hentry, ?_, ?_, hstill, ?_⟩, rfl, rfl⟩
    · exact List.forall_mem_singleton.mpr ⟨hleads, hbinds, htypes, hplace⟩
    · rw [hwarnings]
      simp
    · dsimp only
      split
      · rw [Array.toList_push]
        rfl
      · exact (List.append_nil _).symm
    · exact fun start hstart =>
        Registry.servesUntil_of_resolve hruns.resolved hleads houtcome houtput hstart

/-- The expansion of a call that was found places this call. -/
theorem Expander.accounts_expandCall {expander : Expander} {file : FileOrigin} {bound : BoundCall}
    (hleads : expander.rules.candidate? bound.site.call = some bound.symbol)
    (hbinds : expander.rules.bind bound.symbol bound.site file.source = .ok (some bound))
    (span : Span) :
    ExpandM.Accounts (σ := σ) expander file
      (fun calls placement => ∃ call : PlacedCall, calls = [call] ∧ call.IsOf expander file ∧
        call.bound = bound ∧ call.placement = placement)
      (ExpandM.located span file.source (expander.expandCall file.source bound)) := by
  intro progress placement ended hrecording hrun
  obtain ⟨call, hgains, hbound, hplacement⟩ :=
    (placed_of_expandCall hrun).gains hrecording hleads hbinds
  exact ⟨[call], hgains, call, rfl, hgains.isOf call (List.mem_singleton_self call), hbound, hplacement⟩

end MacroExpansion
