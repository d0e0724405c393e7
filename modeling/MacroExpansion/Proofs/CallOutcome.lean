import MacroExpansion.Proofs.Binding
import MacroExpansion.Proofs.Program

/-! # Outcomes of calls

`CallOutcome` lists everything that can come of a bound call, each with the progress that it leaves
behind. From it follows where the errors of a call come from: they have a cause in the call itself,
never one of those that the walk reports, and once they are located they stand at a place of the
file with its text. -/

namespace MacroExpansion

/-- Two parts come to an error when the first one does, or the second one does from there. -/
theorem except_bind_error {ε α β : Type} {first : Except ε α} {next : α → Except ε β} {error : ε}
    (h : (first >>= next) = .error error) :
    first = .error error ∨ ∃ value, first = .ok value ∧ next value = .error error := by
  cases first with
  | error other =>
    cases h
    exact .inl rfl
  | ok value => exact .inr ⟨value, rfl, h⟩

/-- A changed value is an error where the value is. -/
theorem except_map_error {ε α β : Type} {value : Except ε α} {change : α → β} {error : ε} :
    value.map change = .error error ↔ value = .error error := by
  cases value <;> simp [Except.map]

/-- Going through a list comes to an error only where one of its members does. -/
theorem except_mapM_error {ε α β : Type} {next : α → Except ε β} {values : List α} {error : ε}
    (h : values.mapM next = .error error) : ∃ value ∈ values, next value = .error error := by
  induction values with
  | nil => cases h
  | cons value rest ih =>
    rw [List.mapM_cons] at h
    rcases except_bind_error h with hvalue | ⟨first, -, hrest⟩
    · exact ⟨value, List.mem_cons_self, hvalue⟩
    · rcases except_bind_error hrest with hothers | ⟨others, -, hpure⟩
      · obtain ⟨other, hmem, hother⟩ := ih hothers
        exact ⟨other, List.mem_cons_of_mem value hmem, hother⟩
      · cases hpure

/-! ## Causes of errors -/

/-- The causes that the walk reports itself. -/
def Fault.IsOfWalk : Fault → Prop
  | .depthLimit .. | .callVanished _ | .functionEscaped _ | .replacementLimit .. => True
  | _ => False

namespace ExpansionError

/-- The error stands at a place of the file and has a cause that the walk does not report. -/
def IsOfCall (source : Option SourceText) (error : ExpansionError) : Prop :=
  ∃ fault span, error = .atSpan fault span source ∧ ¬fault.IsOfWalk

/-- An error at a place of the file stays what it is when it is located there again. -/
theorem located_atSpan (fault : Fault) (span span' : Span) (source : Option SourceText) :
    (atSpan fault span source).located span' source = atSpan fault span source := by
  cases source <;> rfl

/-- Locating an error of a call in its file changes nothing. -/
theorem IsOfCall.located_eq {source : Option SourceText} {error : ExpansionError}
    (h : error.IsOfCall source) (span : Span) : error.located span source = error := by
  obtain ⟨fault, span', rfl, -⟩ := h
  exact located_atSpan fault span' span source

end ExpansionError

namespace BindingRules

variable {rules : BindingRules} {symbol : MethodSymbol} {site : Site} {source : Option SourceText}
  {error : ExpansionError}

/-- Where a call cannot capture what it should, the error is one of the call. -/
theorem isOfCall_of_capture {param : ParameterSymbol} {captured : Nat}
    (h : capture symbol param site captured source = .error error) : error.IsOfCall source := by
  unfold capture at h
  split at h
  · cases h
    exact ⟨_, _, rfl, id⟩
  · split at h
    · cases h
    · cases h
      exact ⟨_, _, rfl, id⟩
    · cases h

/-- Where a parameter cannot be supplied, the error is one of the call. -/
theorem isOfCall_of_supplied {param : ParameterSymbol} {index : Nat}
    (h : rules.supplied symbol index param site source = .error error) : error.IsOfCall source := by
  unfold supplied at h
  split at h
  · split at h <;> cases h
  · split at h
    · cases h
      exact ⟨_, _, rfl, id⟩
    · cases h

/-- Where a parameter cannot be bound, the error is one of the call. -/
theorem isOfCall_of_bindParam {root : Quote} {param : ParameterSymbol} {index captured : Nat}
    (h : rules.bindParam symbol root source param index captured = .error error) :
    error.IsOfCall source := by
  unfold bindParam at h
  cases hrole : rules.role symbol index param with
  | quote =>
    rw [hrole] at h
    cases h
  | default value =>
    rw [hrole] at h
    cases h
  | capture =>
    rw [hrole] at h
    exact isOfCall_of_capture (except_map_error.mp h)
  | argument =>
    rw [hrole] at h
    exact isOfCall_of_supplied (except_map_error.mp h)

/-- Where one of the parameters cannot be bound, the error is one of the call. -/
theorem isOfCall_of_bindParams {root : Quote} {params : List ParameterSymbol} {index captured : Nat}
    (h : rules.bindParams symbol root source params index captured = .error error) :
    error.IsOfCall source := by
  induction params generalizing index captured with
  | nil => cases h
  | cons param rest ih =>
    rw [bindParams_cons] at h
    rcases except_bind_error h with hfirst | ⟨first, -, h⟩
    · exact isOfCall_of_bindParam hfirst
    · rcases except_bind_error h with hrest | ⟨others, -, hpure⟩
      · exact ih hrest
      · cases hpure

/-- A call that cannot be bound is reported with a cause in the call. -/
theorem isOfCall_of_bind (h : rules.bind symbol site source = .error error) :
    error.IsOfCall source := by
  unfold bind at h
  cases hf : rules.forwardsAmbientQuote symbol site with
  | true =>
    rw [hf] at h
    cases h
  | false =>
    rw [hf] at h
    rcases except_bind_error h with hparams | ⟨_, -, hpure⟩
    · exact isOfCall_of_bindParams hparams
    · cases hpure

end BindingRules

/-- The search for a call fails only where a call cannot be bound. -/
theorem Expander.isOfCall_of_firstBound? {expander : Expander} {source : Option SourceText}
    {site : Call → Site} {calls : List Call} {error : ExpansionError}
    (h : expander.firstBound? source site calls = .error error) : error.IsOfCall source := by
  induction calls with
  | nil => cases h
  | cons call rest ih =>
    rcases expander.firstBound?_cons source site call rest with
      ⟨-, hrest⟩ | ⟨symbol, -, ⟨other, hbind, hfirst⟩ | ⟨bound, -, hfirst⟩⟩
    · exact ih (hrest ▸ h)
    · rw [hfirst] at h
      cases h
      exact BindingRules.isOfCall_of_bind hbind
    · rw [hfirst] at h
      cases h

/-- Type arguments that are not known at run time are reported with a cause in the call. -/
theorem isOfCall_of_resolveTypeArgs {symbol : MethodSymbol} {site : Site} {metadata : TypeMetadata}
    {source : Option SourceText} {error : ExpansionError}
    (h : resolveTypeArgs symbol site metadata source = .error error) : error.IsOfCall source := by
  unfold resolveTypeArgs at h
  dsimp only at h
  split at h
  · cases h
    exact ⟨_, _, rfl, id⟩
  · obtain ⟨type, -, htype⟩ := except_mapM_error h
    split at htype
    · cases htype
    · cases htype
      exact ⟨_, _, rfl, id⟩

variable {σ : Type}

/-! ## Implementations -/

/-- An implementation is registered or was matched with a symbol before. -/
def Registry.Has (registry : Registry σ) (implementation : Implementation σ) : Prop :=
  (∃ signature, registry.implementations.lookup signature = some implementation) ∨
    ∃ id, registry.discovered.lookup id = some implementation

namespace Registry

variable {registry : Registry σ} {symbol : MethodSymbol} {site : Site} {source : Option SourceText}
  {implementation : Implementation σ}

/-- What is found for a symbol is there. -/
theorem has_of_discover (h : (registry.discover symbol).1 = some implementation) :
    registry.Has implementation := by
  unfold discover at h
  cases hdiscovered : registry.discovered.lookup symbol.id with
  | some found =>
    rw [hdiscovered] at h
    cases h
    exact .inr ⟨_, hdiscovered⟩
  | none =>
    rw [hdiscovered] at h
    cases hfound : registry.find? (.of symbol) with
    | some found =>
      rw [hfound] at h
      cases h
      exact .inl ⟨_, hfound⟩
    | none =>
      rw [hfound] at h
      cases h

/-- A symbol leads to an implementation that is there. -/
theorem has_of_resolve (h : (registry.resolve symbol site source).1 = .ok implementation) :
    registry.Has implementation := by
  unfold resolve at h
  rcases hfound : registry.discover symbol with ⟨- | found, after⟩
  all_goals rw [hfound] at h
  all_goals cases h
  exact has_of_discover (congrArg Prod.fst hfound)

/-- What is looked up is what is discovered. -/
theorem discover_of_resolve {registry' : Registry σ}
    (h : registry.resolve symbol site source = (.ok implementation, registry')) :
    registry.discover symbol = (some implementation, registry') := by
  unfold resolve at h
  rcases hfound : registry.discover symbol with ⟨- | found, registry''⟩
  all_goals
    rw [hfound] at h
    cases h
  rfl

/-- Looking a symbol up brings no implementation in. -/
theorem has_resolve (h : (registry.resolve symbol site source).2.Has implementation) :
    registry.Has implementation := by
  unfold resolve discover at h
  cases hdiscovered : registry.discovered.lookup symbol.id with
  | some found =>
    rw [hdiscovered] at h
    exact h
  | none =>
    rw [hdiscovered] at h
    cases hfound : registry.find? (.of symbol) with
    | none =>
      rw [hfound] at h
      exact h
    | some found =>
      rw [hfound] at h
      rcases h with hregistered | ⟨id, hid⟩
      · exact .inl hregistered
      · by_cases hsymbol : id = symbol.id
        · -- what the symbol is matched with was registered
          rw [hsymbol, Keyed.lookup_put_self] at hid
          exact .inl ⟨_, hid ▸ hfound⟩
        · rw [Keyed.lookup_put_of_ne _ hsymbol] at hid
          exact .inr ⟨id, hid⟩

/-- Where no implementation is found, the error is one of the call. -/
theorem isOfCall_of_resolve {error : ExpansionError}
    (h : (registry.resolve symbol site source).1 = .error error) : error.IsOfCall source := by
  unfold resolve at h
  split at h
  · cases h
  · cases h
    exact ⟨_, _, rfl, id⟩

end Registry

/-- A macro body can end by a panic. -/
def Implementation.Panics (implementation : Implementation σ) (payload : Option String) : Prop :=
  ∃ invocation state, ((implementation.body invocation).run.run state).1 = .error (.panic payload)

/-- A run of a macro body that comes to nothing was in error, or it panicked and the panic is not
caught. -/
theorem invoke_error {implementation : Implementation σ} {invocation : Invocation}
    {config : ExpansionConfig} {source : Option SourceText} {buffers : Buffers}
    {session : Session σ} {stop : Stop}
    (h : (invoke implementation invocation config source buffers session).outcome = .error stop) :
    (∃ error, stop = .error error ∧ ∀ span, (error.located span source).IsOfCall source) ∨
      ∃ payload, stop = .panic payload ∧ config.catchPanics = false ∧
        implementation.Panics payload := by
  unfold invoke at h
  cases hentered : session.binding.enter invocation.site with
  | error error =>
    rw [hentered] at h
    cases h
    unfold CallBinding.enter at hentered
    split at hentered
    · cases hentered
      -- another call is published, so the body is not run at all
      exact .inl ⟨_, rfl, fun span => ⟨_, span, rfl, id⟩⟩
    · cases hentered
  | ok binding =>
    have hlocated (fault : Fault) (hfault : ¬fault.IsOfWalk) (span : Span) :
        ((ExpansionError.atSpan fault invocation.site.call.span source).located span
          source).IsOfCall source :=
      ⟨fault, _, ExpansionError.located_atSpan _ _ _ _, hfault⟩
    rw [hentered] at h
    rcases hended : (implementation.body invocation).run.run
      { buffers, session := { session with binding } } with ⟨ended, state⟩
    simp only [hended] at h
    cases ended with
    | ok => cases h
    | error halt =>
      cases halt with
      | failure text =>
        cases h
        exact .inl ⟨_, rfl, hlocated _ id⟩
      | panic payload =>
        by_cases hcatch : config.catchPanics = true
        · simp only [hcatch, if_true] at h
          cases h
          exact .inl ⟨_, rfl, hlocated _ id⟩
        · simp only [hcatch] at h
          cases h
          exact .inr ⟨payload, rfl, Bool.eq_false_iff.mpr hcatch, invocation, _,
            congrArg Prod.fst hended⟩

/-! ## Output -/

/-- Fragments that have no place are reported with a cause in the call. -/
theorem Placement.not_isOfWalk_of_fragments {symbol : MethodSymbol} {site : Site}
    {fragments : List Fragment} {fault : Fault}
    (h : Placement.ofFragments symbol site fragments = .error fault) : ¬fault.IsOfWalk := by
  unfold Placement.ofFragments at h
  split at h
  · split at h
    · cases h
      exact id
    · split at h
      · cases h
      · cases h
        exact id
  · cases h
  · cases h
  · split at h
    · cases h
    · cases h
      exact id
  · split at h
    · cases h
    · cases h
      exact id

namespace BoundCall

variable {bound : BoundCall}

/-- Output that cannot be placed is reported with a cause in the call. -/
theorem not_isOfWalk_of_place {written requested : List Fragment} {fault : Fault}
    (h : (bound.output written requested >>= bound.place) = .error fault) : ¬fault.IsOfWalk := by
  rcases except_bind_error h with houtput | ⟨fragments, -, hplace⟩
  · unfold output at houtput
    split at houtput
    · cases houtput
    · split at houtput
      · cases houtput
      · cases houtput
        exact id
  · unfold place at hplace
    cases hfragments : Placement.ofFragments bound.symbol bound.site fragments with
    | error found =>
      rw [hfragments] at hplace
      cases hplace
      exact Placement.not_isOfWalk_of_fragments hfragments
    | ok placement =>
      rw [hfragments] at hplace
      cases hplace

/-- What is in order at a call is handed on. -/
@[simp] theorem atCall_ok {α : Type} (bound : BoundCall) (source : Option SourceText) (value : α) :
    bound.atCall source (.ok value) = .ok value := rfl

end BoundCall

/-! ## Everything that can come of a call -/

/-- The progress after a call was prepared: its warnings are there, and its implementation was looked
up. -/
def Progress.called (progress : Progress σ) (bound : BoundCall) (registry : Registry σ) :
    Progress σ :=
  { progress with registry, warnings := progress.warnings ++ bound.placeholderWarnings }

namespace Expander

/-- The body of an implementation is run for a call. -/
structure Runs (expander : Expander) (source : Option SourceText) (bound : BoundCall)
    (progress : Progress σ) (implementation : Implementation σ) (registry : Registry σ)
    (invoked : Invoked σ) : Prop where
  /-- The implementation is that of the macro. -/
  resolved : progress.registry.resolve bound.symbol bound.site source = (.ok implementation, registry)
  /-- The body receives the place and the arguments of the call. -/
  invoked : ∃ typeArgs,
    resolveTypeArgs bound.symbol bound.site expander.metadata source = .ok typeArgs ∧
    invoke implementation { site := bound.site, args := bound.args, typeArgs } expander.config source
      bound.buffers progress.session = invoked

/-- What comes of a bound call from a progress, with the progress that it leaves behind. -/
inductive CallOutcome (expander : Expander) (source : Option SourceText) (bound : BoundCall)
    (progress : Progress σ) : Except Stop Placement → Progress σ → Prop where
  /-- Nothing implements the macro. -/
  | unresolved {error : ExpansionError} {registry : Registry σ}
      (h : progress.registry.resolve bound.symbol bound.site source = (.error error, registry)) :
      CallOutcome expander source bound progress (.error (.error error))
        (progress.called bound registry)
  /-- The type arguments are not known at run time. -/
  | untyped {implementation : Implementation σ} {registry : Registry σ} {error : ExpansionError}
      (hresolved : progress.registry.resolve bound.symbol bound.site source =
        (.ok implementation, registry))
      (h : resolveTypeArgs bound.symbol bound.site expander.metadata source = .error error) :
      CallOutcome expander source bound progress (.error (.error error))
        (progress.called bound registry)
  /-- The macro body comes to nothing. -/
  | stopped {implementation : Implementation σ} {registry : Registry σ} {invoked : Invoked σ}
      {stop : Stop} (hruns : expander.Runs source bound progress implementation registry invoked)
      (h : invoked.outcome = .error stop) :
      CallOutcome expander source bound progress (.error stop)
        { progress.called bound registry with session := invoked.session }
  /-- The output of the macro cannot be placed. -/
  | unplaced {implementation : Implementation σ} {registry : Registry σ} {invoked : Invoked σ}
      {requested : List Fragment} {fault : Fault}
      (hruns : expander.Runs source bound progress implementation registry invoked)
      (houtcome : invoked.outcome = .ok requested)
      (h : (bound.output (invoked.buffers.fragments bound.buffer) requested >>= bound.place) =
        .error fault) :
      CallOutcome expander source bound progress
        (.error (.error (.atSpan fault bound.site.call.span source)))
        { progress.called bound registry with session := invoked.session }
  /-- The output of the macro has a place. -/
  | placed {implementation : Implementation σ} {registry : Registry σ} {invoked : Invoked σ}
      {requested fragments : List Fragment} {placement : Placement}
      (hruns : expander.Runs source bound progress implementation registry invoked)
      (houtcome : invoked.outcome = .ok requested)
      (houtput : bound.output (invoked.buffers.fragments bound.buffer) requested = .ok fragments)
      (h : bound.place fragments = .ok placement) :
      CallOutcome expander source bound progress (.ok placement)
        { progress.called bound registry with
          session := invoked.session
          trace :=
            if expander.config.recordTrace then
              progress.trace.push
                { macroName := bound.symbol.qualifiedName
                  span := bound.site.call.span
                  call := bound.site.call.text
                  fragments := fragments.map Fragment.text
                  splice := placement.kind }
            else progress.trace }

variable {expander : Expander} {source : Option SourceText} {bound : BoundCall}
  {progress ended : Progress σ} {outcome : Except Stop Placement}

/-- A bound call comes to one of these outcomes. -/
theorem callOutcome (expander : Expander) (source : Option SourceText) (bound : BoundCall)
    (progress : Progress σ) :
    CallOutcome expander source bound progress
      ((expander.expandCall source bound).runFrom progress).1
      ((expander.expandCall source bound).runFrom progress).2 := by
  let warned : Progress σ :=
    { progress with warnings := progress.warnings ++ bound.placeholderWarnings }
  have hwarn : (ExpandM.warn bound.placeholderWarnings).runFrom progress = (.ok (), warned) := rfl
  have hlooked := ExpandM.runFrom_resolve bound.symbol bound.site source warned
  rw [show warned.registry = progress.registry from rfl] at hlooked
  unfold expandCall
  rw [ExpandM.runFrom_bind_of_ok hwarn]
  -- the steps of the expansion in turn; each of them may end it
  rcases hresolved : progress.registry.resolve bound.symbol bound.site source with
    ⟨error | implementation, registry⟩
  all_goals rw [hresolved] at hlooked
  · rw [ExpandM.runFrom_bind_of_error hlooked]
    exact .unresolved hresolved
  change (ExpandM.resolve bound.symbol bound.site source).runFrom warned =
    (.ok implementation, progress.called bound registry) at hlooked
  rw [ExpandM.runFrom_bind_of_ok hlooked]
  cases htypes : resolveTypeArgs bound.symbol bound.site expander.metadata source with
  | error error => exact .untyped hresolved htypes
  | ok typeArgs =>
    have hbody := ExpandM.runFrom_runBody implementation
      { site := bound.site, args := bound.args, typeArgs } expander.config source bound.buffers
      bound.buffer (progress.called bound registry)
    rw [show (progress.called bound registry).session = progress.session from rfl] at hbody
    rw [ExpandM.require_ok, ExpandM.runFrom_pure_bind]
    rcases hinvoked : invoke implementation { site := bound.site, args := bound.args, typeArgs }
      expander.config source bound.buffers progress.session with ⟨stop | requested, buffers, session⟩
    all_goals
      rw [hinvoked] at hbody
      have hruns : expander.Runs source bound progress implementation registry _ :=
        ⟨hresolved, typeArgs, htypes, hinvoked⟩
    · rw [ExpandM.runFrom_bind_of_error hbody]
      exact .stopped hruns rfl
    rw [ExpandM.runFrom_bind_of_ok hbody]
    dsimp only
    cases houtput : bound.output (buffers.fragments bound.buffer) requested with
    | error fault =>
      refine .unplaced hruns rfl ?_
      rw [houtput]
      rfl
    | ok fragments =>
      rw [BoundCall.atCall_ok, ExpandM.require_ok, ExpandM.runFrom_pure_bind]
      cases hplace : bound.place fragments with
      | error fault =>
        refine .unplaced hruns rfl ?_
        rw [houtput]
        exact hplace
      | ok placement =>
        have hplaced := CallOutcome.placed hruns rfl houtput hplace
        rw [BoundCall.atCall_ok, ExpandM.require_ok, ExpandM.runFrom_pure_bind]
        cases hrecord : expander.config.recordTrace with
        | true =>
          rw [hrecord] at hplaced
          exact hplaced
        | false =>
          rw [hrecord] at hplaced
          exact hplaced

namespace CallOutcome

/-- Whatever comes of a call, its warnings are added and no others. -/
theorem warnings_eq (h : CallOutcome expander source bound progress outcome ended) :
    ended.warnings.toList = progress.warnings.toList ++ bound.placeholderWarnings := by
  cases h <;> exact Array.toList_appendList

/-- Whatever comes of a call, it brings no implementation in. -/
theorem has {implementation : Implementation σ}
    (h : CallOutcome expander source bound progress outcome ended)
    (hhas : ended.registry.Has implementation) : progress.registry.Has implementation := by
  have hlooked {found : Except ExpansionError (Implementation σ)} {registry : Registry σ}
      (hresolve : progress.registry.resolve bound.symbol bound.site source = (found, registry))
      (hhas : registry.Has implementation) : progress.registry.Has implementation := by
    have hresolved :
        (progress.registry.resolve bound.symbol bound.site source).2.Has implementation := by
      rw [hresolve]
      exact hhas
    exact Registry.has_resolve hresolved
  cases h with
  | unresolved hresolve => exact hlooked hresolve hhas
  | untyped hresolve _ => exact hlooked hresolve hhas
  | stopped hruns _ => exact hlooked hruns.resolved hhas
  | unplaced hruns _ _ => exact hlooked hruns.resolved hhas
  | placed hruns _ _ _ => exact hlooked hruns.resolved hhas

end CallOutcome

end Expander

/-- The ways in which the expansion of a call may end early, once its errors are located. -/
inductive Stop.IsOfCall (config : ExpansionConfig) (source : Option SourceText)
    (registry : Registry σ) : Stop → Prop where
  /-- By an error of the call. -/
  | error {error : ExpansionError} (h : error.IsOfCall source) :
      IsOfCall config source registry (.error error)
  /-- By a panic of a macro body, when panics are not caught. -/
  | panic {implementation : Implementation σ} {payload : Option String}
      (hcatch : config.catchPanics = false) (hhas : registry.Has implementation)
      (h : implementation.Panics payload) : IsOfCall config source registry (.panic payload)

namespace Expander

variable {expander : Expander} {source : Option SourceText} {bound : BoundCall}
  {progress ended : Progress σ} {span : Span}

/-- The expansion of a call ends in no other way. -/
theorem isOfCall_of_expandCall {stop : Stop}
    (h : (ExpandM.located span source (expander.expandCall source bound)).runFrom progress =
      (.error stop, ended)) : stop.IsOfCall expander.config source progress.registry := by
  have houtcome := expander.callOutcome source bound progress
  rw [ExpandM.runFrom_located] at h
  rcases hrun : (expander.expandCall source bound).runFrom progress with ⟨first | placement, last⟩
  all_goals rw [hrun] at h houtcome
  · -- errors from before the body stand at the call already, and locating them changes nothing
    cases houtcome with
    | unresolved hresolved =>
      cases h
      have hcall := Registry.isOfCall_of_resolve (congrArg Prod.fst hresolved)
      rw [hcall.located_eq]
      exact .error hcall
    | untyped hresolved htypes =>
      cases h
      have hcall := isOfCall_of_resolveTypeArgs htypes
      rw [hcall.located_eq]
      exact .error hcall
    | stopped hruns hstopped =>
      obtain ⟨typeArgs, -, hinvoked⟩ := hruns.invoked
      rw [← hinvoked] at hstopped
      rcases invoke_error hstopped with ⟨error, rfl, hcall⟩ | ⟨payload, rfl, hcatch, hpanics⟩
      · cases h
        exact .error (hcall span)
      · cases h
        exact .panic hcatch (Registry.has_of_resolve (congrArg Prod.fst hruns.resolved)) hpanics
    | unplaced hruns houtcome hplace =>
      cases h
      rw [ExpansionError.located_atSpan]
      exact .error ⟨_, _, rfl, BoundCall.not_isOfWalk_of_place hplace⟩
  · cases h

/-- A call that is expanded has its output placed. -/
theorem placed_of_expandCall {placement : Placement}
    (h : (ExpandM.located span source (expander.expandCall source bound)).runFrom progress =
      (.ok placement, ended)) :
    CallOutcome expander source bound progress (.ok placement) ended := by
  have houtcome := expander.callOutcome source bound progress
  rw [ExpandM.runFrom_located] at h
  rcases hrun : (expander.expandCall source bound).runFrom progress with ⟨first | found, last⟩
  all_goals rw [hrun] at h houtcome
  · cases first <;> cases h
  · cases h
    exact houtcome

/-- What the outcomes of a call keep, the expansion of the call keeps. -/
theorem keeps_expandCall {inv : Progress σ → Prop} {stops : Stop → Prop} {P : Placement → Prop}
    (hstops : ∀ progress, inv progress → ∀ stop,
      stop.IsOfCall expander.config source progress.registry → stops stop)
    (hplaced : ∀ progress ended placement, inv progress →
      CallOutcome expander source bound progress (.ok placement) ended → P placement ∧ inv ended)
    (span : Span) :
    (ExpandM.located span source (expander.expandCall source bound)).Keeps inv stops P := by
  intro progress hinv
  rcases hrun : (ExpandM.located span source (expander.expandCall source bound)).runFrom progress
    with ⟨stop | placement, ended⟩
  · exact hstops progress hinv stop (isOfCall_of_expandCall hrun)
  · exact hplaced progress ended placement hinv (placed_of_expandCall hrun)

end Expander

end MacroExpansion
