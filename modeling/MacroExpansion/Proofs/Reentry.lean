import MacroExpansion.Proofs.BindingSteps
import MacroExpansion.Proofs.DepthLimit
import MacroExpansion.Proofs.Recording
import MacroExpansion.Proofs.Unchanged

/-! # Expansions within macro bodies

A macro body can start an expansion of its own. Its call stays published meanwhile, so every macro
body of the inner expansion is refused. `ExpandM.Reenters` compares such a run with the same run once
nothing is published: as long as the latter invokes no macro both do the same, and where it invokes the
first one the former ends. -/

namespace MacroExpansion

variable {σ : Type}

/-- A session in which no call is published. -/
def Session.freed (session : Session σ) : Session σ :=
  { session with binding := {} }

/-- A workspace in which no call is published. -/
def Workspace.freed (workspace : Workspace σ) : Workspace σ :=
  { workspace with session := workspace.session.freed }

/-- A progress in which no call is published. -/
def Progress.freed (progress : Progress σ) : Progress σ :=
  { progress with session := progress.session.freed }

namespace ExpandM

variable {α β : Type} {refused : Invocation → Stop → Prop}

/-- While a call is published, a program leaves the session as it is. It ends as it does when nothing
is published, unless it invokes a macro then: where it would invoke the first one, it is refused. -/
def Reenters (refused : Invocation → Stop → Prop) (program : ExpandM σ α)
    (recording : ExpandM (Recording σ) α) : Prop :=
  ∀ progress, progress.session.binding.isActive = true →
    (program.runFrom progress).2.session = progress.session ∧
    match (recording.runFrom progress.freed.recorded).2.invocations with
    | [] => recording.runFrom progress.freed.recorded =
        ((program.runFrom progress).1, (program.runFrom progress).2.freed.recorded)
    | first :: _ => ∃ stop, (program.runFrom progress).1 = .error stop ∧ refused first.2 stop

/-- A program and its recording counterpart, of which the former is also run within macro bodies. -/
def ReentersOnRecord (refused : Invocation → Stop → Prop) (program : ExpandM σ α)
    (recording : ExpandM (Recording σ) α) : Prop :=
  RecordsOf (fun _ _ => True) program recording ∧ Reenters refused program recording

/-- A program that has nothing to do with the session does the same whatever is published. -/
theorem Silent.reenters {program : ExpandM σ α} {recording : ExpandM (Recording σ) α}
    (h : Silent program recording)
    (hsession : ∀ progress, (program.runFrom progress).2.session = progress.session)
    (hfreed : ∀ progress, program.runFrom progress.freed =
      ((program.runFrom progress).1, (program.runFrom progress).2.freed)) :
    ReentersOnRecord refused program recording := by
  refine ⟨h.mono fun _ _ _ => True.intro, fun progress _ => ⟨hsession progress, ?_⟩⟩
  obtain ⟨later, rfl, hrun⟩ := h progress.freed []
  rw [hfreed] at hrun
  rw [hrun]
  rfl

/-- A value is given within macro bodies as well. -/
theorem reenters_pure (value : α) :
    ReentersOnRecord (σ := σ) refused (pure value) (pure value) :=
  (silent_pure value).reenters (fun _ => rfl) fun _ => rfl

/-- A program ends early within macro bodies as well. -/
theorem reenters_throw (stop : Stop) :
    ReentersOnRecord (σ := σ) (α := α) refused (throw stop) (throw stop) :=
  (silent_throw stop).reenters (fun _ => rfl) fun _ => rfl

/-- Parts that are run within macro bodies make up a program that is. -/
theorem reenters_bind {program : ExpandM σ α} {recording : ExpandM (Recording σ) α}
    {next : α → ExpandM σ β} {next' : α → ExpandM (Recording σ) β}
    (h : ReentersOnRecord refused program recording)
    (hnext : ∀ value, ReentersOnRecord refused (next value) (next' value)) :
    ReentersOnRecord refused (program >>= next) (recording >>= next') := by
  have hrecords : RecordsOf (fun _ _ => True) (program >>= next) (recording >>= next') :=
    h.1.bind (fun value => (hnext value).1) (fun _ _ => True.intro) fun _ _ _ _ _ => True.intro
  refine ⟨hrecords, fun progress hactive => ?_⟩
  obtain ⟨hsession, hfirst⟩ := h.2 progress hactive
  obtain ⟨later, -, hrun⟩ := h.1 progress.freed []
  rw [List.nil_append] at hrun
  rw [hrun, Progress.invocations_recorded] at hfirst
  cases later with
  | nil =>
    -- the first part is the same, and the second one starts within the body as well
    obtain ⟨houtcome, hended⟩ := Prod.mk.inj hfirst
    rw [houtcome, hended] at hrun
    rcases hprogram : program.runFrom progress with ⟨stop | value, middle⟩
    all_goals rw [hprogram] at hsession hrun
    · rw [runFrom_bind_of_error hprogram, runFrom_bind_of_error hrun]
      exact ⟨hsession, rfl⟩
    · rw [runFrom_bind_of_ok hprogram, runFrom_bind_of_ok hrun]
      have hmiddle : middle.session.binding.isActive = true := hsession ▸ hactive
      obtain ⟨hsession', hsecond⟩ := (hnext value).2 middle hmiddle
      exact ⟨hsession'.trans hsession, hsecond⟩
  | cons first rest =>
    obtain ⟨stop, hstop, hrefused⟩ := hfirst
    have hprogram : program.runFrom progress = (.error stop, (program.runFrom progress).2) :=
      Prod.ext hstop rfl
    rw [runFrom_bind_of_error hprogram]
    refine ⟨hsession, ?_⟩
    -- whatever the second part records comes behind the records of the first one
    have hinvocations : ∃ others, ((recording >>= next').runFrom
        progress.freed.recorded).2.invocations = first :: others := by
      rcases hfreed : (program.runFrom progress.freed).1 with halted | value
      · rw [hfreed] at hrun
        exact ⟨rest, by rw [runFrom_bind_of_error hrun]; rfl⟩
      · rw [hfreed] at hrun
        obtain ⟨second, -, hsecond⟩ :=
          (hnext value).1 (program.runFrom progress.freed).2 (first :: rest)
        exact ⟨rest ++ second, by rw [runFrom_bind_of_ok hrun, hsecond]; rfl⟩
    obtain ⟨others, hothers⟩ := hinvocations
    rw [hothers]
    exact ⟨stop, rfl, hrefused⟩

end ExpandM

/-- Programs that may be run within macro bodies, and their recording counterparts. -/
def ProgramRelation.reentering (refused : Invocation → Stop → Prop) :
    ProgramRelation σ (Recording σ) where
  Rel := ExpandM.ReentersOnRecord refused
  pure := ExpandM.reenters_pure
  throw := ExpandM.reenters_throw
  bind := ExpandM.reenters_bind

namespace ExpandM

variable {α : Type} {refused : Invocation → Stop → Prop}

/-- Giving errors a place leaves the progress as it is. -/
theorem runFrom_located_snd (span : Span) (source : Option SourceText) (program : ExpandM σ α)
    (progress : Progress σ) :
    ((located span source program).runFrom progress).2 = (program.runFrom progress).2 := by
  rw [runFrom_located]
  rcases program.runFrom progress with ⟨stop | value, ended⟩
  · cases stop <;> rfl
  · rfl

/-- Programs whose errors are given a place are refused with errors that are given a place. -/
theorem ReentersOnRecord.located {refused' : Invocation → Stop → Prop} {program : ExpandM σ α}
    {recording : ExpandM (Recording σ) α} (h : ReentersOnRecord refused program recording)
    (span : Span) (source : Option SourceText)
    (hrefused : ∀ invocation stop, refused invocation stop →
      ∃ error, stop = .error error ∧ refused' invocation (.error (error.located span source))) :
    ReentersOnRecord refused' (ExpandM.located span source program)
      (ExpandM.located span source recording) := by
  refine ⟨h.1.located span source, fun progress hactive => ?_⟩
  obtain ⟨hsession, hfirst⟩ := h.2 progress hactive
  rw [runFrom_located_snd, runFrom_located_snd]
  refine ⟨hsession, ?_⟩
  cases hinvocations : (recording.runFrom progress.freed.recorded).2.invocations with
  | nil =>
    rw [hinvocations] at hfirst
    dsimp only at hfirst ⊢
    rw [runFrom_located, runFrom_located, hfirst]
    rcases program.runFrom progress with ⟨stop | value, ended⟩
    · cases stop <;> rfl
    · rfl
  | cons first rest =>
    rw [hinvocations] at hfirst
    obtain ⟨stop, hstop, hrefused'⟩ := hfirst
    obtain ⟨error, rfl, hlocated⟩ := hrefused _ stop hrefused'
    rcases hprogram : program.runFrom progress with ⟨outcome, ended⟩
    rw [hprogram] at hstop
    refine ⟨_, ?_, hlocated⟩
    rw [runFrom_located, hprogram, show outcome = _ from hstop]

/-- What is done with an implementation may be done within macro bodies, and so may looking it up. -/
theorem reenters_resolve_bind {symbol : MethodSymbol} {site : Site} {source : Option SourceText}
    {next : Implementation σ → ExpandM σ α}
    {next' : Implementation (Recording σ) → ExpandM (Recording σ) α}
    (h : ∀ implementation,
      ReentersOnRecord refused (next implementation) (next' implementation.recorded)) :
    ReentersOnRecord refused (resolve symbol site source >>= next)
      (resolve symbol site source >>= next') := by
  refine ⟨recordsOf_resolve_bind (fun implementation => (h implementation).1) True.intro,
    fun progress hactive => ?_⟩
  have hrun := runFrom_resolve symbol site source progress
  have hrun' := runFrom_resolve symbol site source progress.freed.recorded
  rw [show progress.freed.recorded.registry = progress.registry.recorded from rfl,
    Registry.resolve_recorded] at hrun'
  rcases hfound : progress.registry.resolve symbol site source with
    ⟨error | implementation, registry⟩
  all_goals rw [hfound] at hrun hrun'
  · rw [runFrom_bind_of_error hrun, runFrom_bind_of_error hrun']
    exact ⟨rfl, rfl⟩
  · rw [runFrom_bind_of_ok hrun, runFrom_bind_of_ok hrun']
    exact (h implementation).2 { progress with registry } hactive

/-- A macro body that is run within another one is refused. -/
theorem reenters_runBody (implementation : Implementation σ) (invocation : Invocation)
    (config : ExpansionConfig) (source : Option SourceText) (buffers : Buffers)
    (buffer : BufferId) :
    ReentersOnRecord (fun refused stop => refused.site = invocation.site ∧
        stop = .error (.unlocated (.reentered invocation.site.call.callee)))
      (runBody implementation invocation config source buffers buffer)
      (runBody implementation.recorded invocation config source buffers buffer) := by
  refine ⟨(recordsOf_runBody _ _ _ _ _ _).mono fun _ _ _ => True.intro, fun progress hactive => ?_⟩
  rw [runFrom_runBody, runFrom_runBody,
    invoke_of_active implementation invocation config source buffers hactive]
  exact ⟨rfl, _, rfl, rfl, rfl⟩

end ExpandM

/-! ## Expansions -/

/-- The error of an invocation that is refused, at its call. -/
def Invocation.reentryError (invocation : Invocation) (source : Option SourceText) :
    ExpansionError :=
  .atSpan (.reentered invocation.site.call.callee) invocation.site.call.span source

namespace Expander

variable {expander : Expander} {file : FileOrigin}

/-- The steps of an expansion can be run within macro bodies. -/
theorem covers_reentering (expander : Expander) (file : FileOrigin) :
    (ProgramRelation.reentering (σ := σ) fun invocation stop =>
      stop = .error (invocation.reentryError file.source)).Covers expander file where
  poll := by
    refine ExpandM.silent_checkCancelled.reenters ?_ ?_
    all_goals
      rintro ⟨⟨⟨binding, cancelled, host⟩, registry⟩, trace, warnings⟩
      cases cancelled <;> rfl
  expandCall {_ _ _ _ bound} _ := by
    have hrequire {α : Type} {refused : Invocation → Stop → Prop}
        (value : Except ExpansionError α) :
        ExpandM.ReentersOnRecord (σ := σ) refused (ExpandM.require value) (ExpandM.require value) :=
      (ProgramRelation.reentering refused).require value
    have hcall : ExpandM.ReentersOnRecord (σ := σ)
        (fun invocation stop => invocation.site = bound.site ∧
          stop = .error (.unlocated (.reentered bound.site.call.callee)))
        (expander.expandCall file.source bound) (expander.expandCall file.source bound) := by
      unfold expandCall
      refine ExpandM.reenters_bind ((ExpandM.silent_warn _).reenters (fun _ => rfl) fun _ => rfl)
        fun _ => ?_
      refine ExpandM.reenters_resolve_bind fun implementation => ?_
      refine ExpandM.reenters_bind (hrequire _) fun typeArgs => ?_
      -- the body is what the second run is refused
      refine ExpandM.reenters_bind (ExpandM.reenters_runBody _ _ _ _ _ _) fun output => ?_
      refine ExpandM.reenters_bind (hrequire _) fun fragments => ?_
      refine ExpandM.reenters_bind (hrequire _) fun placement => ?_
      split
      · exact ExpandM.reenters_bind ((ExpandM.silent_record _).reenters (fun _ => rfl) fun _ => rfl)
          fun _ => ExpandM.reenters_pure _
      · exact ExpandM.reenters_pure _
    refine hcall.located _ _ ?_
    rintro invocation _ ⟨hsite, rfl⟩
    refine ⟨_, rfl, ?_⟩
    rw [Invocation.reentryError, hsite]
    rfl

/-- While a call is published, no call can be expanded. -/
theorem bars_of_active (expander : Expander) (file : FileOrigin) {start : Progress σ}
    (hactive : start.session.binding.isActive = true) (bound : BoundCall) :
    FileWalk.Bars { expander, file } start (fun _ => True) bound where
  limit := True.intro
  expand := by
    rintro progress rfl
    have hcall := expander.callOutcome file.source bound progress
    rw [ExpandM.runFrom_located]
    rcases hrun : (expander.expandCall file.source bound).runFrom progress with
      ⟨stop | placement, ended⟩
    · cases stop <;> exact True.intro
    · rw [hrun] at hcall
      cases hcall with
      | placed hruns houtcome =>
        -- no body came to a result
        obtain ⟨typeArgs, -, hinvoked⟩ := hruns.invoked
        rw [invoke_of_active _ _ _ _ _ hactive] at hinvoked
        rw [← hinvoked] at houtcome
        cases houtcome

/-- While a call is published, all code is spared. -/
theorem spares_of_active (expander : Expander) (file : FileOrigin) {start : Progress σ}
    (hactive : start.session.binding.isActive = true) :
    FileWalk.Spares { expander, file } start (fun _ => True) fun _ _ _ => True where
  exhausted _ := True.intro
  poll _ := .checkCancelled True.intro
  next _ := by
    dsimp only
    cases expander.firstBound? _ _ _ with
    | error error => exact .throw True.intro
    | ok next => exact .pure fun bound _ => expander.bars_of_active file hactive bound
  nested _ _ := True.intro

variable {workspace : Workspace σ}

/-- An expansion that is started within a macro body leaves the session as it is. It comes to what it
comes to when nothing is published, unless it invokes a macro then: it fails at the first invocation. -/
theorem expandWithin_of_active (expander : Expander) (nesting : Nat) (tree : SyntaxTree)
    (hactive : workspace.session.binding.isActive = true) :
    (expander.expandWithin nesting tree workspace).2.session = workspace.session ∧
      (expander.expandWithin nesting tree workspace).1 =
        match (expander.expandWithin nesting tree workspace.freed.recorded).2.session.host.invocations
        with
        | [] => (expander.expandWithin nesting tree workspace.freed.recorded).1
        | first :: _ => .error (.error (first.2.reentryError tree.sourceText)) := by
  let start : Progress σ := { toWorkspace := workspace }
  obtain ⟨hsession, hfirst⟩ := (itemsProgram_related
    (expander.covers_reentering ⟨tree.path, tree.source⟩) nesting).2 start hactive
  have hfreed : start.freed.recorded = { toWorkspace := workspace.freed.recorded } := rfl
  rw [hfreed] at hfirst
  unfold expandWithin
  rw [expandBy_eq, expandBy_eq]
  refine ⟨hsession, ?_⟩
  rcases hrun : (itemsProgram (·.walk nesting) expander tree).runFrom start with ⟨outcome, ended⟩
  rcases hrun' : (itemsProgram (·.walk nesting) expander tree).runFrom
    { toWorkspace := workspace.freed.recorded } with ⟨outcome', ended'⟩
  rw [hrun, hrun', Progress.invocations] at hfirst
  dsimp only at hfirst ⊢
  -- the first macro to be invoked is refused, since a call is published
  cases hinvocations : ended'.session.host.invocations with
  | nil =>
    rw [hinvocations] at hfirst
    obtain ⟨rfl, rfl⟩ := Prod.mk.inj hfirst
    rfl
  | cons first rest =>
    rw [hinvocations] at hfirst
    obtain ⟨_, rfl, rfl⟩ := hfirst
    rfl

/-- An expansion that is started within a macro body comes to a result only if there is nothing to
expand. -/
theorem expandWithin_ok_of_active {nesting : Nat} {tree : SyntaxTree} {expansion : Expansion}
    (hactive : workspace.session.binding.isActive = true)
    (h : (expander.expandWithin nesting tree workspace).1 = .ok expansion) :
    expansion = { tree, trace := [], warnings := [] } := by
  let start : Progress σ := { toWorkspace := workspace }
  have hkeeps : (itemsProgram (·.walk nesting) expander tree).Keeps (· = start) (fun _ => True)
      (· = tree.items) :=
    itemsProgram_unchanged (expander.spares_of_active _ hactive) fun _ _ _ _ _ => True.intro
  have hstart := hkeeps start rfl
  rw [expandWithin, expandBy_eq] at h
  rcases hrun : (itemsProgram (·.walk nesting) expander tree).runFrom start with
    ⟨stop | items, ended⟩
  all_goals
    rw [hrun] at h hstart
    cases h
  obtain ⟨rfl, rfl⟩ := hstart
  rfl

end Expander

/-! ## The binding of a thread -/

open BindingStep

/-- The call binding stays with its call. After any steps of a thread the published call is that of
the last scope that was entered while none was open, as long as it is not ended; ending it hands out
what was last asked for in it, and after its end, as after every invocation from outside of a scope,
no call is published. An invocation hands out what its body last asked for, if the body ends normally.
In an open scope, entering another one and invoking a macro are refused, and so are replacements
outside of a scope; what is refused changes nothing. So an expansion that is started while a call is
published leaves the session as it is and runs no macro body. It comes to what it comes to when no
call is published, or fails at the call whose macro would be invoked first then; and it comes to a
result only if it changes nothing. -/
theorem binding_never_leaks :
    (∀ (session : Session σ) steps, session.binding.active = none → ∀ active,
      (session.after steps).binding.active = some active ↔ Opens steps session active) ∧
    (∀ (session : Session σ) before site during, (session.after before).binding.active = none →
      (∀ step ∈ during, ¬step.EndsScope) →
      (exit.run (session.after (before ++ enter site :: during))).1 =
        .handedOut (lastWrite during)) ∧
    (∀ (session : Session σ) (step : BindingStep σ), step.EndsScope →
      (step.run session).2.binding.active = none) ∧
    (∀ (session : Session σ) (implementation : Implementation σ) invocation config source buffers,
      session.binding.active = none →
      (MacroExpansion.invoke implementation invocation config source buffers
        session).session.binding.active = none ∧
      ∀ steps ended, (∀ step ∈ steps, ¬step.EndsScope) →
        (implementation.body invocation).Takes
          { buffers, session := session.publishing invocation.site } steps ended →
        (MacroExpansion.invoke implementation invocation config source buffers
          session).outcome.toOption = ended.toOption.map fun _ => lastWrite steps) ∧
    (∀ session : Session σ, session.binding.isActive = true →
      (∀ site, (enter site).run session =
        (.refused (.unlocated (.reentered site.call.callee)), session)) ∧
      ∀ (implementation : Implementation σ) invocation config source buffers,
        MacroExpansion.invoke implementation invocation config source buffers session =
          { outcome := .error (.error (.unlocated (.reentered invocation.site.call.callee)))
            buffers, session }) ∧
    (∀ session : Session σ, session.binding.active = none →
      (∀ expr, (replaceExpression expr).run session =
        (.refused (.unlocated .noActiveCall), session)) ∧
      ∀ statements, (replaceStatements statements).run session =
        (.refused (.unlocated .noActiveCall), session)) ∧
    ∀ (expander : Expander) nesting tree (workspace : Workspace σ),
      workspace.session.binding.isActive = true →
      (expander.expandWithin nesting tree workspace).2.session = workspace.session ∧
      (expander.expandWithin nesting tree workspace.recorded).2.session.host.invocations = [] ∧
      (expander.expandWithin nesting tree workspace).1 =
        (match
          (expander.expandWithin nesting tree workspace.freed.recorded).2.session.host.invocations
        with
        | [] => (expander.expandWithin nesting tree workspace.freed.recorded).1
        | first :: _ => .error (.error (first.2.reentryError tree.sourceText))) ∧
      ∀ expansion, (expander.expandWithin nesting tree workspace).1 = .ok expansion →
        expansion = { tree, trace := [], warnings := [] } := by
  refine ⟨fun session steps hidle active => Session.active_after_iff hidle,
    fun session before site during hbefore hduring => ?_,
    fun session step hends => active_run_of_endsScope hends session,
    fun session implementation invocation config source buffers hidle => ⟨?_, ?_⟩,
    fun session hactive => ⟨fun site => ?_, ?_⟩, fun session hidle => ⟨fun expr => ?_, ?_⟩,
    fun expander nesting tree workspace hactive => ?_⟩
  · rw [run, CallBinding.exit, Session.active_after_of_entered hbefore hduring]
    rfl
  · rw [binding_invoke]
    exact hidle
  · exact fun steps ended hsteps hbody => invoke_of_takes config hidle hsteps hbody
  · obtain ⟨active, hactive⟩ := Option.isSome_iff_exists.mp hactive
    rw [run, CallBinding.enter_of_active hactive]
    rfl
  · exact fun implementation invocation config source buffers =>
      invoke_of_active implementation invocation config source buffers hactive
  · rw [run, CallBinding.replaceWithExpression, CallBinding.replaceWith_of_inactive hidle]
    rfl
  · intro statements
    rw [run, CallBinding.replaceWithStatements, CallBinding.replaceWith_of_inactive hidle]
    rfl
  · obtain ⟨hsession, houtcome⟩ := expander.expandWithin_of_active nesting tree hactive
    refine ⟨hsession, ?_, houtcome, fun expansion h =>
      Expander.expandWithin_ok_of_active hactive h⟩
    -- a recording host keeps its session as well
    have hrecorded : workspace.recorded.session.binding.isActive = true := hactive
    rw [(expander.expandWithin_of_active nesting tree hrecorded).1]
    rfl

/-- The place of a call outside of any function. -/
def topLevelSite (callee : String) : Site where
  file := "file"
  call := .plain callee []
  statement := .evaluate (.callOf callee [])
  enclosing := .topLevel
  function := none
  block := .of [.evaluate (.callOf callee [])]
  index := 0

/-- A scope hands out what was last asked for in it, although another replacement was asked for before
it was entered and another scope was refused in it. A body that asks for a number hands out this
number. An expansion that is started while the first call is published fails at its first call. -/
theorem binding_never_leaks_one :
    let session : Session Unit := { host := () }
    let before : List (BindingStep Unit) :=
      [enter (topLevelSite "First"), replaceExpression (.ofInt 1), exit]
    let during : List (BindingStep Unit) :=
      [replaceExpression (.ofInt 2), enter (topLevelSite "Third"), replaceStatements [.nothing]]
    let invocation : Invocation := { site := topLevelSite "One", args := [], typeArgs := [] }
    let busy : Workspace Unit :=
      { oneWorkspace with session := session.publishing (topLevelSite "First") }
    (exit.run (session.after (before ++ enter (topLevelSite "Second") :: during))).1 =
        .handedOut [.stmt .nothing] ∧
      (MacroExpansion.invoke oneImplementation invocation {} none {} session).outcome.toOption =
        some [.expr (.ofInt 1)] ∧
      ((oneExpander 2).expandWithin 4 twoCallsFile busy.recorded).2.session.host.invocations = [] ∧
      ((oneExpander 2).expandWithin 4 twoCallsFile busy).1 =
        .error (.error (.atSpan (.reentered "One") default none)) := by
  intro session before during invocation busy
  obtain ⟨-, hexit, -, hinvoke, -, -, hexpand⟩ := binding_never_leaks (σ := Unit)
  have hduring : ∀ step ∈ during, ¬step.EndsScope := by
    simp [during, EndsScope]
  have hbody : (oneImplementation.body invocation).Takes
      { buffers := {}, session := session.publishing invocation.site }
      [replaceExpression (.ofInt 1)] (.ok ()) := ⟨rfl, rfl⟩
  obtain ⟨-, hsilent, hfails, -⟩ := hexpand (oneExpander 2) 4 twoCallsFile busy rfl
  refine ⟨hexit session before (topLevelSite "Second") during rfl hduring, ?_, hsilent, ?_⟩
  · exact (hinvoke session oneImplementation invocation {} none {} rfl).2 _ _ (by simp [EndsScope])
      hbody
  · rw [hfails]
    cbv

end MacroExpansion
