import MacroExpansion.Proofs.ChangedBodies
import MacroExpansion.Proofs.ProgramRelation

/-! # Recorded runs

What an expansion invokes is seen by a host that writes it down. `recorded` turns a registry into
one whose bodies first record their invocation and then run as before; the bodies cannot see the
records. `RecordsEach` says that a program with recording bodies is the program with the bodies
themselves, and adds records of one kind; `walk_recorded` says it of every walk, and
`Expander.expandWithin_recorded` of whole files, for records of bound calls. -/

namespace MacroExpansion

/-- What a host keeps for its macro bodies, with a record of what was invoked. -/
structure Recording (σ : Type) where
  /-- What the bodies see. -/
  host : σ
  /-- The names of the macros with what they received, oldest first. -/
  invocations : List (String × Invocation) := []

variable {σ : Type}

/-- A session with another host. -/
def Session.withHost {τ : Type} (session : Session σ) (host : τ) : Session τ where
  binding := session.binding
  cancelled := session.cancelled
  host

/-- A session with a record of earlier invocations. -/
def Session.recorded (session : Session σ) (earlier : List (String × Invocation)) :
    Session (Recording σ) :=
  session.withHost { host := session.host, invocations := earlier }

/-- Runs a body on what it can see of a recording host. -/
def BodyM.recorded (program : BodyM σ α) : BodyM (Recording σ) α := fun state =>
  let ended := program.run.run
    { buffers := state.buffers, session := state.session.withHost state.session.host.host }
  (ended.1, ⟨ended.2.buffers, ended.2.session.recorded state.session.host.invocations⟩)

/-- An implementation that records its invocations. -/
def Implementation.recorded (implementation : Implementation σ) : Implementation (Recording σ) where
  name := implementation.name
  body invocation := do
    BodyM.modifyHost fun recording =>
      { recording with
        invocations := recording.invocations ++ [(implementation.name, invocation)] }
    (implementation.body invocation).recorded

/-- A registry whose implementations record their invocations. -/
def Registry.recorded (registry : Registry σ) : Registry (Recording σ) where
  implementations := registry.implementations.map fun entry => (entry.1, entry.2.recorded)
  discovered := registry.discovered.map fun entry => (entry.1, entry.2.recorded)

/-- A workspace that records what is invoked in it. -/
def Workspace.recorded (workspace : Workspace σ) (earlier : List (String × Invocation) := []) :
    Workspace (Recording σ) where
  session := workspace.session.recorded earlier
  registry := workspace.registry.recorded

/-- A progress that records what is invoked from it. -/
def Progress.recorded (progress : Progress σ) (earlier : List (String × Invocation) := []) :
    Progress (Recording σ) where
  toWorkspace := progress.toWorkspace.recorded earlier
  trace := progress.trace
  warnings := progress.warnings

/-- The invocations on record, oldest first. -/
def Progress.invocations (progress : Progress (Recording σ)) : List (String × Invocation) :=
  progress.session.host.invocations

/-- From the start there is nothing on record but what was put there. -/
@[simp] theorem Progress.invocations_recorded (progress : Progress σ)
    (earlier : List (String × Invocation)) : (progress.recorded earlier).invocations = earlier :=
  rfl

/-! ## Running one body -/

/-- A symbol leads to the recorded implementation. -/
theorem Registry.discover_recorded (registry : Registry σ) (symbol : MethodSymbol) :
    registry.recorded.discover symbol =
      ((registry.discover symbol).1.map Implementation.recorded,
        (registry.discover symbol).2.recorded) :=
  registry.discover_withBodies Implementation.recorded symbol

/-- What a symbol is resolved to on record is the recorded implementation. -/
theorem Registry.resolve_recorded (registry : Registry σ) (symbol : MethodSymbol) (site : Site)
    (source : Option SourceText) :
    registry.recorded.resolve symbol site source =
      ((registry.resolve symbol site source).1.map Implementation.recorded,
        (registry.resolve symbol site source).2.recorded) :=
  registry.resolve_withBodies Implementation.recorded symbol site source

/-- A recorded body comes to the same, and leaves a record when it was run at all. -/
theorem invoke_recorded (implementation : Implementation σ) (invocation : Invocation)
    (config : ExpansionConfig) (source : Option SourceText) (buffers : Buffers)
    (session : Session σ) (earlier : List (String × Invocation)) :
    let invoked := invoke implementation invocation config source buffers session
    ∃ later, (invoked.outcome.isOk = false ∧ later = [] ∨
        later = [(implementation.name, invocation)]) ∧
      invoke implementation.recorded invocation config source buffers (session.recorded earlier) =
        ⟨invoked.outcome, invoked.buffers, invoked.session.recorded (earlier ++ later)⟩ := by
  unfold invoke
  simp only [Session.recorded, Session.withHost]
  cases session.binding.enter invocation.site with
  | error error =>
    -- the body is not run while another one is bound
    refine ⟨[], .inl ⟨rfl, rfl⟩, ?_⟩
    rw [List.append_nil]
  | ok binding =>
    refine ⟨[(implementation.name, invocation)], .inr rfl, ?_⟩
    rfl

/-- A session without the record. -/
def Session.unrecorded (session : Session (Recording σ)) : Session σ :=
  session.withHost session.host.host

/-- A recorded body comes to the same as the body itself. -/
theorem outcome_invoke_recorded (implementation : Implementation σ) (invocation : Invocation)
    (config : ExpansionConfig) (source : Option SourceText) (buffers : Buffers)
    (session : Session (Recording σ)) :
    (invoke implementation.recorded invocation config source buffers session).outcome =
      (invoke implementation invocation config source buffers session.unrecorded).outcome := by
  obtain ⟨later, -, hinvoke⟩ := invoke_recorded implementation invocation config source buffers
    session.unrecorded session.host.invocations
  exact congrArg Invoked.outcome hinvoke

/-- A recorded body that comes to a result leaves a record of its invocation. -/
theorem invoke_recorded_of_ok {implementation : Implementation σ} {invocation : Invocation}
    {config : ExpansionConfig} {source : Option SourceText} {buffers : Buffers}
    {session : Session (Recording σ)} {requested : List Fragment}
    (h : (invoke implementation invocation config source buffers session.unrecorded).outcome =
      .ok requested) :
    let invoked := invoke implementation invocation config source buffers session.unrecorded
    invoke implementation.recorded invocation config source buffers session =
      ⟨.ok requested, invoked.buffers, invoked.session.recorded
        (session.host.invocations ++ [(implementation.name, invocation)])⟩ := by
  obtain ⟨later, hlater, hinvoke⟩ := invoke_recorded implementation invocation config source buffers
    session.unrecorded session.host.invocations
  rw [h] at hlater hinvoke
  rw [hlater.resolve_left fun hfailed => nomatch hfailed.1] at hinvoke
  exact hinvoke

/-! ## Recorded programs -/

/-- A program with recording bodies is the program with the bodies themselves, with records of a
certain form added. The form may depend on whether the program comes to a result. -/
def ExpandM.RecordsOf (form : Bool → List (String × Invocation) → Prop) (program : ExpandM σ α)
    (recording : ExpandM (Recording σ) α) : Prop :=
  ∀ progress earlier, ∃ later, form (program.runFrom progress).1.isOk later ∧
    recording.runFrom (progress.recorded earlier) =
      ((program.runFrom progress).1, (program.runFrom progress).2.recorded (earlier ++ later))

/-- A program with recording bodies is the program with the bodies themselves, without any record
added. -/
def ExpandM.Silent (program : ExpandM σ α) (recording : ExpandM (Recording σ) α) : Prop :=
  RecordsOf (fun _ later => later = []) program recording

namespace ExpandM.RecordsOf

variable {α β : Type} {form : Bool → List (String × Invocation) → Prop} {program : ExpandM σ α}
  {recording : ExpandM (Recording σ) α}

/-- A program that invokes nothing records nothing. -/
theorem of_silent (h : ∀ progress earlier, recording.runFrom (progress.recorded earlier) =
    ((program.runFrom progress).1, (program.runFrom progress).2.recorded earlier)) :
    Silent program recording :=
  fun progress earlier => ⟨[], rfl, by rw [List.append_nil, h]⟩

/-- Other records may be added as well. -/
theorem mono {form' : Bool → List (String × Invocation) → Prop}
    (h : RecordsOf form program recording) (hform : ∀ ok later, form ok later → form' ok later) :
    RecordsOf form' program recording := by
  intro progress earlier
  obtain ⟨later, hlater, hrun⟩ := h progress earlier
  exact ⟨later, hform _ later hlater, hrun⟩

/-- Records of two parts are added one after the other. -/
theorem bind {next : α → ExpandM σ β} {next' : α → ExpandM (Recording σ) β}
    {form' form'' : Bool → List (String × Invocation) → Prop} (h : RecordsOf form program recording)
    (hnext : ∀ value, RecordsOf form' (next value) (next' value))
    (hend : ∀ first, form false first → form'' false first)
    (happend : ∀ ok first second, form true first → form' ok second →
      form'' ok (first ++ second)) :
    RecordsOf form'' (program >>= next) (recording >>= next') := by
  intro progress earlier
  obtain ⟨first, hfirst, hrun⟩ := h progress earlier
  rcases hp : program.runFrom progress with ⟨stop | value, middle⟩
  all_goals rw [hp] at hfirst hrun
  · refine ⟨first, ?_, ?_⟩
    · rw [runFrom_bind_of_error hp]
      exact hend first hfirst
    · rw [runFrom_bind_of_error hp, runFrom_bind_of_error hrun]
  · -- the second part starts behind the records of the first one
    obtain ⟨second, hsecond, hrun'⟩ := hnext value middle (earlier ++ first)
    refine ⟨first ++ second, ?_, ?_⟩
    · rw [runFrom_bind_of_ok hp]
      exact happend _ first second hfirst hsecond
    · rw [runFrom_bind_of_ok hp, runFrom_bind_of_ok hrun, hrun', List.append_assoc]

/-- Records of a first part, when the second one leaves none. -/
theorem bind_silent {next : α → ExpandM σ β} {next' : α → ExpandM (Recording σ) β}
    (h : RecordsOf form program recording) (hnext : ∀ value, Silent (next value) (next' value))
    (hform : ∀ ok later, form true later → form ok later) :
    RecordsOf form (program >>= next) (recording >>= next') :=
  RecordsOf.bind h hnext (fun _ hfirst => hfirst) fun ok _ _ hfirst hsecond => by
    rw [hsecond, List.append_nil]
    exact hform ok _ hfirst

/-- Giving errors a place records nothing. -/
theorem located (h : RecordsOf form program recording) (span : Span)
    (source : Option SourceText) :
    RecordsOf form (ExpandM.located span source program)
      (ExpandM.located span source recording) := by
  intro progress earlier
  obtain ⟨later, hlater, hrun⟩ := h progress earlier
  rw [runFrom_located, runFrom_located, hrun]
  rcases hp : program.runFrom progress with ⟨stop | value, ended⟩
  all_goals rw [hp] at hlater
  · refine ⟨later, ?_, ?_⟩
    · cases stop <;> exact hlater
    · cases stop <;> rfl
  · exact ⟨later, hlater, rfl⟩

end ExpandM.RecordsOf

/-- Records of a second part, when the first one leaves none. -/
theorem ExpandM.Silent.bind {α β : Type} {form : Bool → List (String × Invocation) → Prop}
    {program : ExpandM σ α} {recording : ExpandM (Recording σ) α} {next : α → ExpandM σ β}
    {next' : α → ExpandM (Recording σ) β}
    (h : Silent program recording) (hnext : ∀ value, RecordsOf form (next value) (next' value))
    (hnil : form false []) : RecordsOf form (program >>= next) (recording >>= next') :=
  RecordsOf.bind h hnext (fun _ hfirst => hfirst ▸ hnil) fun _ _ _ hfirst hsecond => by
    rw [hfirst, List.nil_append]
    exact hsecond

namespace ExpandM

variable {α : Type}

/-- Giving a value puts nothing on record. -/
theorem silent_pure (value : α) :
    Silent (σ := σ) (pure value) (pure value) :=
  .of_silent fun _ _ => rfl

/-- An early end puts nothing on record. -/
theorem silent_throw (stop : Stop) :
    Silent (σ := σ) (α := α) (throw stop) (throw stop) :=
  .of_silent fun _ _ => rfl

/-- Asking for what has to be there puts nothing on record. -/
theorem silent_require (value : Except ExpansionError α) :
    Silent (σ := σ) (require value) (require value) := by
  cases value with
  | ok value => exact silent_pure value
  | error error => exact silent_throw _

/-- Asking the host puts nothing on record. -/
theorem silent_checkCancelled :
    Silent (σ := σ) checkCancelled checkCancelled := by
  refine .of_silent fun progress earlier => ?_
  rw [runFrom_checkCancelled, runFrom_checkCancelled]
  change (if progress.session.cancelled then _ else _) = _
  cases progress.session.cancelled <;> rfl

/-- A warning puts nothing on record. -/
theorem silent_warn (records : List DiagnosticRecord) :
    Silent (σ := σ) (warn records) (warn records) :=
  .of_silent fun _ _ => rfl

/-- A step of the trace is no invocation. -/
theorem silent_record (step : ExpansionStep) :
    Silent (σ := σ) (record step) (record step) :=
  .of_silent fun _ _ => rfl

/-- What is done with a value that is there is recorded. -/
theorem recordsOf_require_bind {β : Type} {form : Bool → List (String × Invocation) → Prop}
    {value : Except ExpansionError β} {next : β → ExpandM σ α} {next' : β → ExpandM (Recording σ) α}
    (h : ∀ found, value = .ok found → RecordsOf form (next found) (next' found))
    (hnil : form false []) :
    RecordsOf form (require value >>= next) (require value >>= next') := by
  cases value with
  | ok found => exact h found rfl
  | error error =>
    intro progress earlier
    refine ⟨[], hnil, ?_⟩
    rw [List.append_nil]
    rfl

/-- What is done with a recorded implementation is recorded. -/
theorem recordsOf_resolve_bind {form : Bool → List (String × Invocation) → Prop}
    {symbol : MethodSymbol} {site : Site} {source : Option SourceText}
    {next : Implementation σ → ExpandM σ α}
    {next' : Implementation (Recording σ) → ExpandM (Recording σ) α}
    (h : ∀ implementation, RecordsOf form (next implementation) (next' implementation.recorded))
    (hnil : form false []) :
    RecordsOf form (resolve symbol site source >>= next)
      (resolve symbol site source >>= next') := by
  intro progress earlier
  have hrun := runFrom_resolve symbol site source progress
  have hrun' := runFrom_resolve symbol site source (progress.recorded earlier)
  rw [show (progress.recorded earlier).registry = progress.registry.recorded from rfl,
    Registry.resolve_recorded] at hrun'
  rcases hfound : progress.registry.resolve symbol site source with
    ⟨error | implementation, registry⟩
  all_goals rw [hfound] at hrun hrun'
  · refine ⟨[], ?_, ?_⟩
    · rw [runFrom_bind_of_error hrun]
      exact hnil
    · rw [runFrom_bind_of_error hrun', runFrom_bind_of_error hrun, List.append_nil]
      rfl
  · rw [runFrom_bind_of_ok hrun', runFrom_bind_of_ok hrun]
    exact h implementation { progress with registry } earlier

/-- A body that is run leaves a record of its own invocation. -/
theorem recordsOf_runBody (implementation : Implementation σ) (invocation : Invocation)
    (config : ExpansionConfig) (source : Option SourceText) (buffers : Buffers)
    (buffer : BufferId) :
    RecordsOf (fun ok later => ok = false ∧ later = [] ∨ later = [(implementation.name, invocation)])
      (runBody implementation invocation config source buffers buffer)
      (runBody implementation.recorded invocation config source buffers buffer) := by
  intro progress earlier
  obtain ⟨later, hlater, hinvoke⟩ :=
    invoke_recorded implementation invocation config source buffers progress.session earlier
  refine ⟨later, ?_, ?_⟩
  · rw [runFrom_runBody]
    refine hlater.imp_left (And.imp_left fun hfailed => ?_)
    simp only
    cases houtcome : (invoke implementation invocation config source buffers
      progress.session).outcome with
    | error stop => rfl
    | ok requested =>
      rw [houtcome] at hfailed
      cases hfailed
  · rw [runFrom_runBody, runFrom_runBody,
      show (progress.recorded earlier).session = progress.session.recorded earlier from rfl, hinvoke]
    rfl

end ExpandM

/-- Records of the expansion of one call: that of one invocation at the site of the call, or none if
the expansion fails before. -/
def BoundCall.Invokes (bound : BoundCall) (ok : Bool) (later : List (String × Invocation)) : Prop :=
  ok = false ∧ later = [] ∨
    ∃ name invocation, invocation.site = bound.site ∧ later = [(name, invocation)]

/-- Expanding a call invokes nothing but its own macro, at the site of the call, with the arguments
that are bound and the runtime types of its type arguments. -/
theorem Expander.recordsOf_expandCall_args (expander : Expander) (source : Option SourceText)
    (bound : BoundCall) :
    ExpandM.RecordsOf (σ := σ)
      (fun ok later => ok = false ∧ later = [] ∨ ∃ name invocation,
        invocation.site = bound.site ∧ invocation.args = bound.args ∧
        resolveTypeArgs bound.symbol bound.site expander.metadata source = .ok invocation.typeArgs ∧
        later = [(name, invocation)])
      (expander.expandCall source bound) (expander.expandCall source bound) := by
  unfold expandCall
  refine (ExpandM.silent_warn _).bind (fun _ => ?_) (.inl ⟨rfl, rfl⟩)
  refine ExpandM.recordsOf_resolve_bind (fun implementation => ?_) (.inl ⟨rfl, rfl⟩)
  refine ExpandM.recordsOf_require_bind (fun typeArgs htypes => ?_) (.inl ⟨rfl, rfl⟩)
  -- only here a body is run; what comes before and after it is silent
  refine ((ExpandM.recordsOf_runBody _ _ _ _ _ _).mono fun ok later hlater =>
    hlater.imp_right fun hone => ⟨_, _, rfl, rfl, htypes, hone⟩).bind_silent (fun output => ?_)
      fun ok later hone => .inr (hone.resolve_left fun h => nomatch h.1)
  refine (ExpandM.silent_require _).bind (fun fragments => ?_) rfl
  refine (ExpandM.silent_require _).bind (fun placement => ?_) rfl
  split
  · exact (ExpandM.silent_record _).bind (fun _ => ExpandM.silent_pure _) rfl
  · exact ExpandM.silent_pure _

/-- Expanding a call invokes nothing but its own macro, at the site of the call. -/
theorem Expander.recordsOf_expandCall (expander : Expander) (source : Option SourceText)
    (bound : BoundCall) :
    ExpandM.RecordsOf (σ := σ) bound.Invokes (expander.expandCall source bound)
      (expander.expandCall source bound) :=
  (expander.recordsOf_expandCall_args source bound).mono fun _ _ hlater =>
    hlater.imp_right fun ⟨name, invocation, hsite, _, _, hone⟩ => ⟨name, invocation, hsite, hone⟩

/-! ## Recorded walks -/

/-- A site at which macros are invoked: the call is one of the own calls of its statement, which
stands at its position, and it leads to a macro without passing on a quote of the function around
it. -/
structure BindingRules.Binds (rules : BindingRules) (site : Site) : Prop where
  /-- The statement stands in the block. -/
  statement : site.block.statements[site.index]? = some site.statement
  /-- The statement contains the call. -/
  call : site.call ∈ site.statement.ownCalls
  /-- The call is expanded. -/
  leads : ∃ symbol, rules.candidate? site.call = some symbol ∧
    rules.forwardsAmbientQuote symbol site = false

/-- A program with recording bodies is the program with the bodies themselves, and makes only
invocations of one kind. -/
def ExpandM.RecordsEach (P : Invocation → Prop) (program : ExpandM σ α)
    (recording : ExpandM (Recording σ) α) : Prop :=
  RecordsOf (fun _ later => ∀ entry ∈ later, P entry.2) program recording

/-- A program that invokes nothing invokes nothing else. -/
theorem ExpandM.Silent.recordsEach {P : Invocation → Prop} {program : ExpandM σ α}
    {recording : ExpandM (Recording σ) α} (h : Silent program recording) :
    RecordsEach P program recording := by
  refine h.mono fun _ later hlater => ?_
  rw [hlater]
  exact List.forall_mem_nil _

/-- Programs and their recording counterparts, with invocations of one kind. -/
def ProgramRelation.recordsEach (P : Invocation → Prop) : ProgramRelation σ (Recording σ) where
  Rel := ExpandM.RecordsEach P
  pure value := (ExpandM.silent_pure value).recordsEach
  throw stop := (ExpandM.silent_throw stop).recordsEach
  bind h hnext := h.bind hnext (fun _ hfirst => hfirst) fun _ _ _ hfirst hsecond =>
    List.forall_mem_append.mpr ⟨hfirst, hsecond⟩

/-- The steps of an expansion are recorded, and their invocations are of one kind when those of the
calls that are found are. -/
theorem Expander.covers_recordsEach {expander : Expander} {file : FileOrigin} {P : Invocation → Prop}
    (h : ∀ {setting : Setting} {done rest : List Stmt} {stmt : Stmt} {bound : BoundCall}
      {invocation : Invocation},
      expander.firstBound? file.source ((setting.cursor ⟨done, stmt :: rest⟩).site file.path)
        stmt.ownCalls = .ok (some bound) →
      invocation.site = bound.site → invocation.args = bound.args →
      resolveTypeArgs bound.symbol bound.site expander.metadata file.source =
        .ok invocation.typeArgs → P invocation) :
    (ProgramRelation.recordsEach (σ := σ) P).Covers expander file where
  poll := ExpandM.silent_checkCancelled.recordsEach
  expandCall {_ _ _ _ bound} hfirst := by
    change ExpandM.RecordsEach P _ _
    refine ((expander.recordsOf_expandCall_args file.source bound).mono ?_).located _ _
    rintro _ later (⟨-, rfl⟩ | ⟨name, invocation, hsite, hargs, htypes, rfl⟩)
    · exact List.forall_mem_nil _
    · exact List.forall_mem_singleton.mpr (h hfirst hsite hargs htypes)

/-- An expansion with recording bodies is the expansion with the bodies themselves, and makes only
invocations of the kind that its steps make. -/
theorem Expander.expandWithin_recordsEach {expander : Expander} {tree : SyntaxTree}
    {P : Invocation → Prop}
    (hcovers : (ProgramRelation.recordsEach (σ := σ) P).Covers expander ⟨tree.path, tree.source⟩)
    (nesting : Nat) (workspace : Workspace σ) (earlier : List (String × Invocation)) :
    ∃ later, (∀ entry ∈ later, P entry.2) ∧
      expander.expandWithin nesting tree (workspace.recorded earlier) =
        ((expander.expandWithin nesting tree workspace).1,
          (expander.expandWithin nesting tree workspace).2.recorded (earlier ++ later)) := by
  obtain ⟨later, hlater, hrun⟩ :=
    itemsProgram_related hcovers nesting { toWorkspace := workspace } earlier
  have hstart : ({ toWorkspace := workspace } : Progress σ).recorded earlier =
    { toWorkspace := workspace.recorded earlier } := rfl
  refine ⟨later, hlater, ?_⟩
  rw [hstart] at hrun
  unfold expandWithin
  rw [expandBy_eq, expandBy_eq, hrun]
  rfl

/-- The site of a call that is found at the next statement of a sequence is one at which macros are
invoked. -/
theorem Expander.binds_of_firstBound? {expander : Expander} {file : FileOrigin} {setting : Setting}
    {done rest : List Stmt} {stmt : Stmt} {bound : BoundCall}
    (h : expander.firstBound? file.source ((setting.cursor ⟨done, stmt :: rest⟩).site file.path)
      stmt.ownCalls = .ok (some bound)) : expander.rules.Binds bound.site := by
  obtain ⟨call, hcall, symbol, hsymbol, hbind⟩ := firstBound?_some h
  obtain ⟨hforwards, -, hbound, -⟩ := BindingRules.bind_some_cases hbind
  rw [hbound]
  refine ⟨?_, ?_, symbol, hsymbol, hforwards⟩
  · have hshows := Cursor.Shows.of_split setting ⟨done, stmt :: rest⟩
    simp [Cursor.site, hshows.block, hshows.blockIndex, Split.statements]
  · simpa [Cursor.site] using hcall

/-- The steps of an expansion are recorded, and macros are invoked only for calls that are bound. -/
theorem Expander.covers_recording (expander : Expander) (file : FileOrigin) :
    (ProgramRelation.recordsEach (σ := σ) (expander.rules.Binds ·.site)).Covers expander file :=
  covers_recordsEach fun hfirst hsite _ _ => hsite ▸ binds_of_firstBound? hfirst

/-- A walk with recording bodies is the walk with the bodies themselves. -/
theorem FileWalk.walk_recorded (expander : Expander) (file : FileOrigin) (nesting : Nat) :
    (ProgramRelation.recordsEach (σ := σ) (expander.rules.Binds ·.site)).RelatesWalks
      (walk { expander, file } nesting) (walk { expander, file } nesting) :=
  walk_related (expander.covers_recording file) nesting

/-- An expansion with recording bodies is the expansion with the bodies themselves, and invokes macros
only for calls that are bound. -/
theorem Expander.expandWithin_recorded (expander : Expander) (nesting : Nat) (tree : SyntaxTree)
    (workspace : Workspace σ) (earlier : List (String × Invocation)) :
    ∃ later, (∀ entry ∈ later, expander.rules.Binds entry.2.site) ∧
      expander.expandWithin nesting tree (workspace.recorded earlier) =
        ((expander.expandWithin nesting tree workspace).1,
          (expander.expandWithin nesting tree workspace).2.recorded (earlier ++ later)) :=
  expandWithin_recordsEach (expander.covers_recording _) nesting workspace earlier

end MacroExpansion
