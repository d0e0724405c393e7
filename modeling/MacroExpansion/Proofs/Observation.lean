import MacroExpansion.Proofs.Rewriting
import MacroExpansion.Proofs.SourceText

/-! # What only observes an expansion

Three settings tell how an expansion is observed: whether it records its trace, whether errors show the
text of the file, and whether panics are caught. None of them has a part in what is expanded.
Without panics caught an expansion goes the same way up to the first panic, and there both end: by the
panic, or by an error at the call of the body that panicked. -/

namespace MacroExpansion

variable {σ : Type}

/-- The same settings, with panics caught or not. -/
def Expander.withCatch (expander : Expander) (catchPanics : Bool) : Expander :=
  { expander with config := { expander.config with catchPanics } }

/-- The early end of a body when its panics are caught. -/
def Stop.caught (stop : Stop) (name : String) (span : Span) (source : Option SourceText) : Stop :=
  match stop with
  | .panic payload => .error (.atSpan (.bodyPanicked name payload) span source)
  | stop => stop

/-- A body whose panics are caught does the same, and its panic becomes an error at the call. -/
theorem invoke_catching (implementation : Implementation σ) (invocation : Invocation)
    (config : ExpansionConfig) (source : Option SourceText) (buffers : Buffers)
    (session : Session σ) :
    let invoked := invoke implementation invocation { config with catchPanics := false } source
      buffers session
    invoke implementation invocation { config with catchPanics := true } source buffers session =
      { invoked with
        outcome := invoked.outcome.mapError
          (·.caught implementation.name invocation.site.call.span source) } := by
  unfold invoke
  cases session.binding.enter invocation.site with
  | error error => rfl
  | ok binding =>
    dsimp only
    rcases (implementation.body invocation).run.run
      { buffers, session := { session with binding } } with ⟨halt | done, state⟩
    · cases halt <;> rfl
    · rfl

/-- The panic of a body of the registry ended an expansion, and caught it is an error at the call of
the body. -/
def Stop.IsCaughtAs (registry : Registry σ) (config : ExpansionConfig) (source : Option SourceText)
    (payload : Option String) (ended : Progress σ) (stop : Stop) : Prop :=
  ∃ implementation invocation buffers session, registry.Has implementation ∧
    (invoke implementation invocation config source buffers session).outcome =
      .error (.panic payload) ∧
    ended.session = (invoke implementation invocation config source buffers session).session ∧
    stop = .error (.atSpan (.bodyPanicked implementation.name payload) invocation.site.call.span source)

/-- The early ends with panics caught and without. -/
def Stop.Catching (registry : Registry σ) (config : ExpansionConfig) (source : Option SourceText)
    (stop : Stop) (ended : Progress σ) (stop' : Stop) (ended' : Progress σ) : Prop :=
  ended' = ended ∧ match stop with
    | .panic payload => IsCaughtAs registry config source payload ended stop'
    | stop => stop' = stop

/-- An early end that is no panic is the same with panics caught. -/
theorem Stop.Catching.same {registry : Registry σ} {config : ExpansionConfig}
    {source : Option SourceText} {stop : Stop} (h : ∀ payload, stop ≠ .panic payload)
    (ended : Progress σ) : Catching registry config source stop ended stop ended := by
  refine ⟨rfl, ?_⟩
  cases stop with
  | panic payload => exact absurd rfl (h payload)
  | _ => rfl

/-- An early end is located alike with panics caught and without. -/
theorem Stop.Catching.located {registry : Registry σ} {config : ExpansionConfig}
    {source : Option SourceText} {stop stop' : Stop} {ended ended' : Progress σ}
    (h : Catching registry config source stop ended stop' ended') (span : Span) :
    Catching registry config source (stop.located span source) ended (stop'.located span source)
      ended' := by
  refine ⟨h.1, ?_⟩
  cases stop with
  | panic payload =>
    obtain ⟨implementation, invocation, buffers, session, hhas, houtcome, hsession, rfl⟩ := h.2
    refine ⟨implementation, invocation, buffers, session, hhas, houtcome, hsession, ?_⟩
    exact congrArg Stop.error (ExpansionError.located_atSpan _ _ _ _)
  | error error => exact congrArg (Stop.located · span source) h.2
  | exhausted => exact congrArg (Stop.located · span source) h.2

/-- Both have come to the same progress, and its implementations are those of the registry. -/
def Progress.SameWithin (registry : Registry σ) (progress other : Progress σ) : Prop :=
  other = progress ∧ ∀ implementation, progress.registry.Has implementation →
    registry.Has implementation

/-- Programs without panics caught and those that do the same with panics caught. -/
def WalkRelation.catching (registry : Registry σ) (config : ExpansionConfig)
    (source : Option SourceText) : WalkRelation σ σ :=
  .inStep (Progress.SameWithin registry) (Stop.Catching registry config source)

namespace WalkRelation

variable {registry : Registry σ} {config : ExpansionConfig} {source : Option SourceText} {α : Type}

/-- A program that neither panics nor changes the registry does the same. -/
theorem catching_self {program : ExpandM σ α}
    (h : ∀ progress, (program.runFrom progress).2.registry = progress.registry ∧
      ∀ payload, (program.runFrom progress).1 ≠ .error (.panic payload)) :
    (catching registry config source).Rel program program := by
  rintro _ progress ⟨rfl, hregistry⟩
  obtain ⟨hsame, hpanic⟩ := h progress
  unfold ExpandM.InStepAt
  rcases hrun : program.runFrom progress with ⟨stop | value, ended⟩
  all_goals rw [hrun] at hsame hpanic
  · exact ⟨stop, ended, rfl, .same (fun payload hstop => hpanic payload (congrArg _ hstop)) ended⟩
  · refine ⟨ended, rfl, rfl, ?_⟩
    rw [hsame]
    exact hregistry

/-- What has to be there is asked for alike. -/
theorem catching_require (value : Except ExpansionError α) :
    (catching registry config source).Rel (ExpandM.require value) (ExpandM.require value) := by
  refine catching_self fun progress => ?_
  cases value with
  | ok value => exact ⟨rfl, fun _ => (nomatch ·)⟩
  | error error => exact ⟨rfl, fun _ => (nomatch ·)⟩

/-- An implementation is found alike, and is one of the registry. -/
theorem catching_resolve (symbol : MethodSymbol) (site : Site) :
    (catching registry config source).Rel (ExpandM.resolve symbol site source)
      (ExpandM.resolve symbol site source) := by
  rintro _ progress ⟨rfl, hregistry⟩
  have hkept (implementation : Implementation σ)
      (hhas : (progress.registry.resolve symbol site source).2.Has implementation) :
      registry.Has implementation := hregistry implementation (Registry.has_resolve hhas)
  unfold ExpandM.InStepAt
  rw [ExpandM.runFrom_resolve]
  rcases hresolve : progress.registry.resolve symbol site source with ⟨error | implementation, left⟩
  all_goals rw [hresolve] at hkept
  · refine ⟨_, _, rfl, .same ?_ _⟩
    rintro payload ⟨⟩
  · exact ⟨_, rfl, rfl, hkept⟩

/-- A body is run alike with panics caught, up to its panic. -/
theorem catching_runBody {implementation : Implementation σ} (hhas : registry.Has implementation)
    (invocation : Invocation) (buffers : Buffers) (buffer : BufferId) :
    (catching registry { config with catchPanics := false } source).Rel
      (ExpandM.runBody implementation invocation { config with catchPanics := false } source buffers
        buffer)
      (ExpandM.runBody implementation invocation { config with catchPanics := true } source buffers
        buffer) := by
  rintro _ progress ⟨rfl, hregistry⟩
  unfold ExpandM.InStepAt
  rw [ExpandM.runFrom_runBody, ExpandM.runFrom_runBody, invoke_catching]
  rcases hinvoked : invoke implementation invocation { config with catchPanics := false } source
    buffers progress.session with ⟨stop | requested, written, session⟩
  · refine ⟨_, _, rfl, rfl, ?_⟩
    cases stop with
    | panic payload =>
      refine ⟨implementation, invocation, buffers, progress.session, hhas, ?_, ?_, rfl⟩
      · rw [hinvoked]
      · rw [hinvoked]
    | _ => rfl
  · exact ⟨_, rfl, rfl, hregistry⟩

end WalkRelation

open WalkRelation

namespace Expander

/-- A call is expanded alike with panics caught, up to a panic. -/
theorem expandCall_catching (expander : Expander) (registry : Registry σ)
    (source : Option SourceText) (bound : BoundCall) :
    (catching registry (expander.withCatch false).config source).Rel
      ((expander.withCatch false).expandCall source bound)
      ((expander.withCatch true).expandCall source bound) := by
  let relation := catching registry (expander.withCatch false).config source
  unfold expandCall
  refine relation.bind (catching_self fun _ => ⟨rfl, fun _ => (nomatch ·)⟩) fun _ => ?_
  rintro progress other hframe
  refine (catching_resolve _ _ progress other hframe).bind ?_
  intro implementation ended ended' hrun _ hframe'
  refine relation.bind (catching_require _) (fun typeArgs => relation.bind (catching_runBody ?_ _ _ _)
    fun output => relation.bind (catching_require _) fun fragments =>
      relation.bind (catching_require _) fun placement => ?_) ended ended' hframe'
  · rw [ExpandM.runFrom_resolve] at hrun
    rcases hresolve : progress.registry.resolve bound.symbol bound.site source with
      ⟨error | found, left⟩
    all_goals
      rw [hresolve] at hrun
      cases hrun
    exact hframe.2 _ (Registry.has_of_resolve (congrArg Prod.fst hresolve))
  · refine catching_self fun progress => ?_
    split
    · exact ⟨rfl, fun _ => (nomatch ·)⟩
    · exact ⟨rfl, fun _ => (nomatch ·)⟩

/-- The steps of an expansion are the same with panics caught, up to a panic. -/
theorem covers_catching (expander : Expander) (registry : Registry σ) (file : FileOrigin) :
    (catching registry (expander.withCatch false).config file.source).Covers
      { expander := expander.withCatch false, file } { expander := expander.withCatch true, file } :=
  covers_inStep rfl rfl (fun _ _ hframe => by rw [hframe.1])
    (fun _ progress _ hstop hframe => by
      rw [hframe.1]
      exact .same hstop progress)
    fun _ => .located (expander.expandCall_catching registry file.source _)
      fun _ _ _ _ h => h.located _

/-- With panics caught an expansion goes as without, but for the error that a panic becomes. -/
theorem expandWithin_catching (expander : Expander) (nesting : Nat) (tree : SyntaxTree)
    (workspace : Workspace σ) :
    match (expander.withCatch false).expandWithin nesting tree workspace with
    | (.error (.panic payload), left) =>
        ∃ stop, (expander.withCatch true).expandWithin nesting tree workspace = (.error stop, left) ∧
          Stop.IsCaughtAs workspace.registry (expander.withCatch false).config tree.sourceText payload
            { toWorkspace := left } stop
    | ended => (expander.withCatch true).expandWithin nesting tree workspace = ended := by
  have hitems : (catching workspace.registry (expander.withCatch false).config tree.sourceText).Rel
      (itemsProgram (·.walk nesting) (expander.withCatch false) tree)
      (itemsProgram (·.walk nesting) (expander.withCatch true) tree) :=
    itemsProgram_sideBySide (expander.covers_catching workspace.registry ⟨tree.path, tree.source⟩)
      rfl nesting
  have hstep := hitems { toWorkspace := workspace } _ ⟨rfl, fun _ => id⟩
  unfold ExpandM.InStepAt at hstep
  unfold expandWithin
  rw [expandBy_eq, expandBy_eq]
  -- both runs end alike unless there is a panic, which only the second one catches
  rcases hrun : (itemsProgram (σ := σ) (·.walk nesting) (expander.withCatch false) tree).runFrom
    { toWorkspace := workspace } with ⟨stop | items, ended⟩
  all_goals rw [hrun] at hstep
  · obtain ⟨stop', _, hrun', rfl, hstops⟩ := hstep
    rw [hrun']
    cases stop with
    | panic payload => exact ⟨stop', rfl, hstops⟩
    | _ =>
      rw [show stop' = _ from hstops]
      rfl
  · obtain ⟨_, hrun', rfl, -⟩ := hstep
    rw [hrun']
    rfl

/-- An expansion that a panic ends was running the body that it invoked last. Caught, the panic is
reported at the call of this body. -/
theorem caught_last_invocation {expander : Expander} {nesting : Nat} {tree : SyntaxTree}
    {workspace left : Workspace σ} {payload : Option String}
    (h : (expander.withCatch false).expandWithin nesting tree workspace =
      (.error (.panic payload), left)) :
    ∃ earlier name invocation,
      ((expander.withCatch false).expandWithin nesting tree
          workspace.recorded).2.session.host.invocations = earlier ++ [(name, invocation)] ∧
        (expander.withCatch true).expandWithin nesting tree workspace =
          (.error (.error (.atSpan (.bodyPanicked name payload) invocation.site.call.span
            tree.sourceText)), left) := by
  obtain ⟨later, -, hoff⟩ :=
    (expander.withCatch false).expandWithin_recorded nesting tree workspace []
  obtain ⟨_, -, hon⟩ := (expander.withCatch true).expandWithin_recorded nesting tree workspace []
  have hplain := expander.expandWithin_catching nesting tree workspace
  have hrecorded := expander.expandWithin_catching nesting tree workspace.recorded
  rw [h] at hoff hplain
  rw [hoff] at hrecorded ⊢
  obtain ⟨stop, hstop, -⟩ := hplain
  obtain ⟨_, hcaught, implementation, invocation, buffers, session, hhas, houtcome, hsession, rfl⟩ :=
    hrecorded
  obtain ⟨plain, -, rfl⟩ := Registry.exists_of_has_recorded hhas
  have hentry := (invocations_invoke_recorded plain invocation (expander.withCatch false).config
    tree.sourceText buffers session).resolve_left <| by
      rintro ⟨error, herror⟩
      rw [houtcome] at herror
      cases herror
  refine ⟨session.host.invocations, plain.name, invocation, ?_, ?_⟩
  · rw [← hentry, ← hsession]
  · rw [hstop, hcaught] at hon
    rw [hstop]
    exact congrArg (·, left) (Prod.mk.inj hon).1.symm

end Expander

/-! ## All settings -/

/-- What only observes an expansion does not influence it.

Recorded or not, the trace is the only difference that it makes: without it the outcome is the same
one with an empty trace, for workspaces that record what is invoked as for all others, and the
trace of an expanded file has one step for every placed call, in the order of the invocations. With
another text the outcome is the same but for the text of the tree and of the error. With panics caught
everything is the same until a body panics; then the invocation of this body, the last one, is reported
at its call, and otherwise the panic goes through. -/
theorem observation_does_not_influence_expansion (expander : Expander) (nesting : Nat)
    (tree : SyntaxTree) (workspace : Workspace σ) :
    ((let traced := (expander.withTrace true).expandWithin nesting tree workspace;
        (expander.withTrace false).expandWithin nesting tree workspace =
          (traced.1.map fun expansion => { expansion with trace := [] }, traced.2)) ∧
        ((expander.withTrace false).expandWithin nesting tree workspace.recorded).2 =
          ((expander.withTrace true).expandWithin nesting tree workspace.recorded).2 ∧
        ∀ expansion,
          ((expander.withTrace true).expandWithin nesting tree workspace).1 = .ok expansion →
          ∃ calls, (expander.withTrace true).Places nesting tree workspace calls ∧
            expansion.trace = calls.map PlacedCall.step) ∧
      (∀ source : Option String,
        let ended := expander.expandWithin nesting tree workspace;
        expander.expandWithin nesting { tree with source } workspace =
          ((ended.1.mapError (·.withSource { tree with source }.sourceText)).map fun expansion =>
              { expansion with tree := { expansion.tree with source } },
            ended.2)) ∧
      match (expander.withCatch false).expandWithin nesting tree workspace with
      | (.error (.panic payload), left) => ∃ earlier name invocation,
          ((expander.withCatch false).expandWithin nesting tree
              workspace.recorded).2.session.host.invocations = earlier ++ [(name, invocation)] ∧
            (expander.withCatch true).expandWithin nesting tree workspace =
              (.error (.error (.atSpan (.bodyPanicked name payload) invocation.site.call.span
                tree.sourceText)), left)
      | ended => (expander.withCatch true).expandWithin nesting tree workspace = ended := by
  refine ⟨⟨?_, ?_, fun expansion h => ?_⟩, fun source => ?_, ?_⟩
  · exact expander.expandWithin_withTrace false nesting tree workspace
  · rw [expander.expandWithin_withTrace false]
  · obtain ⟨calls, hplaces, -⟩ := Expander.places_of_expandWithin h
    refine ⟨calls, hplaces, ?_⟩
    have htrace : ((expander.withTrace true).expandWithin nesting tree workspace).1.map
        Expansion.trace = .ok (calls.map PlacedCall.step) := hplaces.trace
    rw [h] at htrace
    exact Except.ok.inj htrace
  · exact expander.expandWithin_withSource nesting tree source workspace
  · have hcatching := expander.expandWithin_catching nesting tree workspace
    rcases hrun : (expander.withCatch false).expandWithin nesting tree workspace with
      ⟨(error | payload | -) | expansion, left⟩
    · rw [hrun] at hcatching
      exact hcatching
    · exact Expander.caught_last_invocation hrun
    · rw [hrun] at hcatching
      exact hcatching
    · rw [hrun] at hcatching
      exact hcatching

/-- A workspace in which the macro panics. -/
def panicWorkspace : Workspace Unit where
  session := { host := () }
  registry := ({} : Registry Unit).registerBody skipMacro fun _ => .panic (some "out of ideas")

/-- A panic goes through, or it is reported at the call of the macro that was invoked. -/
theorem observation_does_not_influence_expansion_panic :
    let expander : Expander := { model := (({} : SymbolTable).declare skipMacro).model }
    let file := blockFile [.evaluate (.callOf "Log" []), .evaluate (.callOf "Skip" [])]
    ((expander.withCatch false).expandWithin 3 file panicWorkspace).1 =
        .error (.panic (some "out of ideas")) ∧
      ∃ name invocation,
        ((expander.withCatch false).expandWithin 3 file
            panicWorkspace.recorded).2.session.host.invocations = [(name, invocation)] ∧
          ((expander.withCatch true).expandWithin 3 file panicWorkspace).1 =
            .error (.error (.atSpan (.bodyPanicked name (some "out of ideas"))
              invocation.site.call.span none)) := by
  intro expander file
  have hpanic : ((expander.withCatch false).expandWithin 3 file panicWorkspace).1 =
      .error (.panic (some "out of ideas")) := by cbv
  have hone : ((expander.withCatch false).expandWithin 3 file
      panicWorkspace.recorded).2.session.host.invocations.length = 1 := by cbv
  obtain ⟨-, -, hcatching⟩ :=
    observation_does_not_influence_expansion expander 3 file panicWorkspace
  refine ⟨hpanic, ?_⟩
  rcases hrun : (expander.withCatch false).expandWithin 3 file panicWorkspace with ⟨stop, left⟩
  rw [hrun] at hpanic hcatching
  rw [show stop = _ from hpanic] at hcatching
  obtain ⟨earlier, name, invocation, hinvocations, hcaught⟩ := hcatching
  rw [hinvocations] at hone
  obtain rfl : earlier = [] := by simpa using hone
  exact ⟨name, invocation, hinvocations, congrArg Prod.fst hcaught⟩

end MacroExpansion
