import MacroExpansion.Proofs.CallsInPlace
import MacroExpansion.Proofs.LongerSequence

/-! # Blocks one after the other

With local macros, the statements of a script can be expanded part by part. The first part is expanded
as if nothing followed it, since it comes to a result alone; the second one as if nothing came before
it, since its macros do not look around. Whatever the first part left behind, in the registry, at the
host, in the trace and among the warnings, makes no difference to the second one. -/

namespace MacroExpansion

variable {σ : Type}

/-! ## What makes no difference -/

/-- A progress from which macros come to the same as at the start. -/
structure Progress.IsSteady (rules : BindingRules) (start : Workspace σ) (progress : Progress σ) :
    Prop where
  /-- The same call is published. -/
  binding : progress.session.binding = start.session.binding
  /-- The host goes on as it did. -/
  cancelled : progress.session.cancelled = start.session.cancelled
  /-- The macros have the same implementations. -/
  leads {call : Call} {symbol : MethodSymbol} (h : rules.candidate? call = some symbol) :
    (progress.registry.discover symbol).1 = (start.registry.discover symbol).1

/-- Two progresses from which macros come to the same, of which the second one has more behind it. -/
structure Progress.Trails (rules : BindingRules) (start : Workspace σ)
    (trace : List ExpansionStep) (warnings : List DiagnosticRecord) (progress other : Progress σ) :
    Prop where
  steady : progress.IsSteady rules start
  steady' : other.IsSteady rules start
  trace : other.trace.toList = trace ++ progress.trace.toList
  warnings : other.warnings.toList = warnings ++ progress.warnings.toList

namespace Progress.IsSteady

variable {rules : BindingRules} {start : Workspace σ} {progress : Progress σ}

/-- A progress is steady from the start. -/
theorem refl (rules : BindingRules) (start : Workspace σ) :
    ({ toWorkspace := start } : Progress σ).IsSteady rules start :=
  ⟨rfl, rfl, fun _ => rfl⟩

/-- Looking up a macro leaves a steady progress. -/
theorem resolve (h : progress.IsSteady rules start) (hlocal : rules.HasLocalMacros start.registry)
    {call : Call} {symbol : MethodSymbol} (hsymbol : rules.candidate? call = some symbol) (site : Site)
    (source : Option SourceText) :
    IsSteady rules start
      { progress with registry := (progress.registry.resolve symbol site source).2 } := by
  have hleads : Registry.LeadsAs rules start.registry progress.registry := fun _ _ => h.leads
  have hkept := hleads.resolve hlocal.settled hsymbol site source
  exact ⟨h.binding, h.cancelled, hkept _ _⟩

/-- A local macro leaves a steady progress. -/
theorem invoke (h : progress.IsSteady rules start) {implementation : Implementation σ}
    (hlocal : implementation.IsLocal) (invocation : Invocation) (config : ExpansionConfig)
    (source : Option SourceText) (buffers : Buffers) :
    IsSteady rules start
      { progress with
        session := (MacroExpansion.invoke implementation invocation config source buffers
          progress.session).session } where
  binding := (binding_invoke implementation invocation config source buffers
    progress.session).trans h.binding
  cancelled := (hlocal.goesOn invocation config source buffers progress.session).trans h.cancelled
  leads := h.leads

end Progress.IsSteady

/-! ## Calls at both places -/

namespace BoundCall

variable {rules : BindingRules} {bound : BoundCall} {site : Site}

/-- At another place the same warnings are given for missing arguments. -/
theorem placeholderWarnings_seenAt (h : bound.site.Resembles rules site) :
    (bound.seenAt site).placeholderWarnings = bound.placeholderWarnings := by
  unfold placeholderWarnings
  rw [show (bound.seenAt site).site = site from rfl, h.file, h.call]
  rfl

/-- Output has the same place. -/
theorem place_seenAt (h : bound.site.Resembles rules site) (fragments : List Fragment) :
    (bound.seenAt site).place fragments = bound.place fragments := by
  have hfragments : Placement.ofFragments bound.symbol site fragments =
      Placement.ofFragments bound.symbol bound.site fragments := by
    unfold Placement.ofFragments
    rw [h.statement, h.call, h.inFunction]
  have hcaptured (placement : Placement) :
      placement.overCaptured site = placement.overCaptured bound.site := by
    unfold Placement.overCaptured
    rw [h.statement, h.call]
  unfold place
  rw [show (bound.seenAt site).site = site from rfl,
    show (bound.seenAt site).symbol = bound.symbol from rfl, hfragments]
  simp only [hcaptured]
  rfl

end BoundCall

namespace Expander

variable {expander : Expander} {start : Workspace σ} {trace : List ExpansionStep}
  {warnings : List DiagnosticRecord}

/-- A warning arises behind those that there are. -/
theorem simulates_warn (rules : BindingRules) (records : List DiagnosticRecord) :
    ExpandM.Simulates (Progress.Trails rules start trace warnings) False Eq (ExpandM.warn records)
      (ExpandM.warn records) := by
  intro progress other h
  refine ⟨(), _, rfl, rfl, ⟨h.steady.binding, h.steady.cancelled, h.steady.leads⟩,
    ⟨h.steady'.binding, h.steady'.cancelled, h.steady'.leads⟩, h.trace, ?_⟩
  change (other.warnings ++ records).toList = warnings ++ (progress.warnings ++ records).toList
  rw [Array.toList_appendList, Array.toList_appendList, h.warnings, List.append_assoc]

/-- A step is recorded behind those that there are. -/
theorem simulates_record (rules : BindingRules) (step : ExpansionStep) :
    ExpandM.Simulates (Progress.Trails rules start trace warnings) False Eq (ExpandM.record step)
      (ExpandM.record step) := by
  intro progress other h
  refine ⟨(), _, rfl, rfl, ⟨h.steady.binding, h.steady.cancelled, h.steady.leads⟩,
    ⟨h.steady'.binding, h.steady'.cancelled, h.steady'.leads⟩, ?_, h.warnings⟩
  change (other.trace.push step).toList = trace ++ (progress.trace.push step).toList
  rw [Array.toList_push, Array.toList_push, h.trace, List.append_assoc]

/-- A macro has the same implementation, which is local. -/
theorem simulates_resolve (hlocal : expander.rules.HasLocalMacros start.registry)
    {call : Call} {symbol : MethodSymbol} (hsymbol : expander.rules.candidate? call = some symbol)
    {site site' : Site} (hsite : site'.call = site.call) (source : Option SourceText) :
    ExpandM.Simulates (Progress.Trails expander.rules start trace warnings) False
      (fun implementation implementation' =>
        implementation' = implementation ∧ implementation.IsLocal)
      (ExpandM.resolve symbol site source) (ExpandM.resolve symbol site' source) := by
  intro progress other h
  have hkept := h.steady.resolve hlocal hsymbol site source
  have hkept' := h.steady'.resolve hlocal hsymbol site' source
  rw [ExpandM.runFrom_resolve, ExpandM.runFrom_resolve]
  -- what is found is found at the start
  simp only [Registry.resolve_eq, h.steady.leads hsymbol, h.steady'.leads hsymbol, hsite]
    at hkept hkept' ⊢
  cases hfound : (start.registry.discover symbol).1 with
  | none => exact .inr rfl
  | some implementation =>
    exact ⟨implementation, _, rfl, ⟨rfl, hlocal.isLocal hsymbol hfound⟩, hkept, hkept', h.trace,
      h.warnings⟩

/-- A local macro comes to the same. -/
theorem simulates_runBody {implementation : Implementation σ} (hlocal : implementation.IsLocal)
    {invocation : Invocation} {site : Site}
    (hquotes : invocation.seenAt invocation.site = invocation)
    (hsite : site.LooksLike invocation.site) (config : ExpansionConfig)
    (source : Option SourceText) (buffers : Buffers) (buffer : BufferId) :
    ExpandM.Simulates (Progress.Trails expander.rules start trace warnings) False Eq
      (ExpandM.runBody implementation invocation config source buffers buffer)
      (ExpandM.runBody implementation (invocation.seenAt site) config source buffers buffer) := by
  intro progress other h
  have hsame : (invoke implementation (invocation.seenAt site) config source buffers
        other.session).outcome =
        (invoke implementation invocation config source buffers progress.session).outcome ∧
      (invoke implementation (invocation.seenAt site) config source buffers
        other.session).buffers =
        (invoke implementation invocation config source buffers progress.session).buffers := by
    have hbinding : other.session.binding = progress.session.binding :=
      h.steady'.binding.trans h.steady.binding.symm
    cases hactive : progress.session.binding.active with
    | none => exact hlocal.same hquotes hsite config source buffers hactive (hbinding ▸ hactive)
    | some active =>
      -- within another macro body it is refused in both cases
      have hrefused : progress.session.binding.isActive = true :=
        Option.isSome_iff_exists.mpr ⟨active, hactive⟩
      rw [invoke_of_active _ _ _ _ _ hrefused, invoke_of_active _ _ _ _ _ (hbinding ▸ hrefused),
        show (invocation.seenAt site).site.call = invocation.site.call from hsite.call]
      exact ⟨rfl, rfl⟩
  rw [ExpandM.runFrom_runBody, ExpandM.runFrom_runBody]
  simp only [hsame.1, hsame.2]
  cases (invoke implementation invocation config source buffers progress.session).outcome with
  | error stop => exact .inr rfl
  | ok requested =>
    exact ⟨_, _, rfl, rfl, h.steady.invoke hlocal invocation config source buffers,
      h.steady'.invoke hlocal (invocation.seenAt site) config source buffers, h.trace, h.warnings⟩

/-- With local macros, the steps of an expansion keep what makes no difference to them. -/
theorem keepsFrame_trails (hlocal : expander.rules.HasLocalMacros start.registry)
    (file : FileOrigin) (trace : List ExpansionStep) (warnings : List DiagnosticRecord) :
    expander.KeepsFrame file (Progress.Trails expander.rules start trace warnings) where
  poll := by
    intro progress other h
    rw [ExpandM.runFrom_checkCancelled, ExpandM.runFrom_checkCancelled,
      h.steady'.cancelled.trans h.steady.cancelled.symm]
    cases progress.session.cancelled with
    | true => exact .inr rfl
    | false => exact ⟨(), other, rfl, rfl, h⟩
  expandCall {bound other} hbound := by
    have hseen := hbound.seen
    have hsite := hbound.site
    generalize other.site = site at hseen hsite
    subst hseen
    unfold expandCall
    -- the same warnings, and the same implementation or the same error
    rw [BoundCall.placeholderWarnings_seenAt hsite]
    refine .bind (simulates_warn expander.rules _) fun _ _ _ => ?_
    refine .bind (simulates_resolve hlocal hbound.leads hsite.call file.source) ?_
    rintro implementation _ ⟨rfl, himplementation⟩
    rw [BoundCall.resolveTypeArgs_seenAt hsite.call]
    refine .bind (.require (.of_eq rfl)) ?_
    rintro typeArgs _ rfl
    -- the body sees nothing but what is the same at both places
    have hquotes : Invocation.seenAt bound.site { site := bound.site, args := bound.args, typeArgs } =
        { site := bound.site, args := bound.args, typeArgs } := by
      rw [Invocation.seenAt, show bound.args.map _ = bound.args from
        congrArg BoundCall.args (BindingRules.seenAt_of_bind hbound.binds)]
    refine .bind (simulates_runBody himplementation hquotes hsite.looksLike _ _ _ _) ?_
    rintro ⟨written, requested⟩ _ rfl
    dsimp only
    rw [BoundCall.atCall_seenAt hsite.call]
    refine .bind (.require (.of_eq rfl)) ?_
    rintro fragments _ rfl
    rw [BoundCall.atCall_seenAt hsite.call, BoundCall.place_seenAt hsite]
    refine .bind (.require (.of_eq rfl)) ?_
    rintro placement _ rfl
    rw [show (bound.seenAt site).site.call = bound.site.call from hsite.call]
    split
    · exact .bind (simulates_record expander.rules _) fun _ _ _ => .pure rfl
    · exact .pure rfl

end Expander

/-! ## Scripts -/

/-- A file that is one block of statements outside of any function. -/
def SyntaxTree.script (file : FileOrigin) (block : Block) : SyntaxTree :=
  { path := file.path, source := file.text, items := [.statements block] }

namespace Expander

/-- The walk of the statements of a script. -/
def walkScript (expander : Expander) (file : FileOrigin) (nesting : Nat) (block : Block) :
    ExpandM σ (Flow Split) :=
  FileWalk.splitWalk { expander, file } nesting ⟨.script, 0, block.span⟩ 0 ⟨[], block.statements⟩

variable {expander : Expander} {file : FileOrigin} {nesting : Nat} {block : Block}
  {workspace : Workspace σ} {progress ended : Progress σ}

/-- All statements of a script are settled, and no function comes in their place. -/
theorem walkScript_proceeds {flow : Flow Split}
    (h : (expander.walkScript file nesting block).runFrom progress = (.ok flow, ended)) :
    ∃ done, flow = .proceed ⟨done, []⟩ := by
  cases flow with
  | proceed last =>
    obtain ⟨-, hlength⟩ :=
      FileWalk.splitWalk_advances _ nesting _ _ _ progress _ ended h last rfl
    obtain ⟨done, todo⟩ := last
    have htodo : todo = [] := List.eq_nil_of_length_eq_zero (Nat.le_zero.mp hlength)
    exact ⟨done, by rw [htodo]⟩
  | replaceFunction decl =>
    -- only where a function is around
    have hmeets := FileWalk.walk_meets (FileWalk.obeys_keepsTrack (σ := σ) expander file) nesting
      .script 0 block.span block.statements 0 block.statements.length (Nat.le_refl _)
      (fun _ _ => True.intro) progress True.intro
    unfold walkScript at h
    rw [expander.walk_whole, SplitWalk.onSequence, Nat.sub_self, List.take_zero, List.drop_zero,
      ExpandM.runFrom_bind_of_ok h] at hmeets
    exact absurd (hmeets.1 decl rfl) Bool.false_ne_true

/-- A script is expanded by walking its statements. -/
theorem itemsProgram_script (expander : Expander) (file : FileOrigin) (nesting : Nat)
    (block : Block) :
    itemsProgram (σ := σ) (·.walk nesting) expander (.script file block) =
      expander.walkScript file nesting block >>= fun
        | .proceed last => pure [.statements ⟨last.statements, block.span⟩]
        | .replaceFunction decl =>
            ExpandM.fail (.atSpan (.functionEscaped decl.name) block.span file.source) := by
  have hwalk := expander.walk_whole (σ := σ) file nesting .script 0 block.span block.statements
  unfold itemsProgram SyntaxTree.script
  rw [List.mapM_cons, List.mapM_nil, FileWalk.expandItem, FileWalk.expandLoose, FileWalk.walkBlock]
  dsimp only
  rw [hwalk, SplitWalk.onSequence, Nat.sub_self, List.take_zero, List.drop_zero]
  simp only [bind_assoc, pure_bind]
  change expander.walkScript file nesting block >>= _ = _
  congr 1
  funext flow
  cases flow <;> rfl

/-- The expansion of a script has its settled statements. -/
theorem expandWithin_script_of_ok {done : List Stmt}
    (h : (expander.walkScript file nesting block).runFrom { toWorkspace := workspace } =
      (.ok (.proceed ⟨done, []⟩), ended)) :
    (expander.expandWithin nesting (.script file block) workspace).1 =
      .ok ⟨.script file ⟨done, block.span⟩, ended.trace.toList, ended.warnings.toList⟩ := by
  rw [expandWithin, expandBy_eq, itemsProgram_script, ExpandM.runFrom_bind_of_ok h]
  simp only [Split.statements, List.append_nil]
  rfl

/-- The expansion of a script ends early as the walk of its statements does. -/
theorem expandWithin_script_of_error {stop : Stop}
    (h : ((expander.walkScript file nesting block).runFrom { toWorkspace := workspace }).1 =
      .error stop) :
    (expander.expandWithin nesting (.script file block) workspace).1 = .error stop := by
  rw [expandWithin, expandBy_eq, itemsProgram_script,
    ExpandM.runFrom_bind_of_error (Prod.ext h rfl)]
  rfl

section

variable (hlocal : expander.rules.HasLocalMacros workspace.registry)

include hlocal

/-- With local macros, a script is walked as a part of a longer one like it is alone. -/
theorem simulates_walkScript (file : FileOrigin) (nesting : Nat) (block : Block)
    (trace : List ExpansionStep) (warnings : List DiagnosticRecord) (wider : Span)
    (front behind : List Stmt) :
    ExpandM.Simulates (Progress.Trails expander.rules workspace trace warnings) (behind ≠ [])
      (Flow.Related fun last last' => last' = last.within front behind)
      (expander.walkScript file nesting block)
      (FileWalk.splitWalk { expander, file } nesting ⟨.script, 0, wider⟩ behind.length
        ⟨front, block.statements ++ behind⟩) := by
  have hextends := FileWalk.extends_splitWalk (keepsFrame_trails hlocal file trace warnings)
    nesting ⟨.script, 0, block.span⟩ ⟨.script, 0, wider⟩ 0 ⟨[], block.statements⟩ front behind
    ⟨⟨rfl, .none⟩, Nat.le_refl 0⟩
  rw [Split.within, List.append_nil, Nat.zero_add] at hextends
  exact hextends.mono (fun hignored => hignored.resolve_right fun h => h rfl) fun _ _ => id

/-- The first part of a script is walked as it is alone. Then the second one is walked behind it, from
a progress that makes no difference to it. -/
theorem runFrom_walkScript_append {done : List Stmt}
    (h : (expander.walkScript file nesting block).runFrom { toWorkspace := workspace } =
      (.ok (.proceed ⟨done, []⟩), ended)) (wider : Span) (behind : List Stmt) :
    ∃ middle, Progress.Trails expander.rules workspace [] [] ended middle ∧
      (expander.walkScript file nesting ⟨block.statements ++ behind, wider⟩).runFrom
          { toWorkspace := workspace } =
        (FileWalk.splitWalk { expander, file } nesting ⟨.script, 0, wider⟩ 0
          ⟨done, behind⟩).runFrom middle := by
  cases nesting with
  | zero => cases h
  | succ nesting =>
    -- the first part settles the same statements while the others follow it
    let start : Progress σ := { toWorkspace := workspace }
    have hpart := simulates_walkScript hlocal file (nesting + 1) block [] [] wider [] behind
      start start ⟨.refl _ _, .refl _ _, rfl, rfl⟩
    rw [h] at hpart
    obtain ⟨_, middle, hfirst, hrelated, hmiddle⟩ := hpart
    cases hrelated with
    | proceed hlast =>
      subst hlast
      refine ⟨middle, hmiddle, ?_⟩
      rw [walkScript, FileWalk.splitWalk_in_parts _ nesting _ (Nat.zero_le behind.length)]
      exact ExpandM.runFrom_bind_of_ok hfirst

/-- What was brought about before makes no difference to the second part of a script. -/
theorem runFrom_splitWalk_behind (hsteady : progress.IsSteady expander.rules workspace)
    (file : FileOrigin) (nesting : Nat) (block : Block) (front : List Stmt) (wider : Span) :
    match (expander.walkScript file nesting block).runFrom { toWorkspace := workspace } with
    | (.ok flow, ended) => ∃ done ended', flow = .proceed ⟨done, []⟩ ∧
        (FileWalk.splitWalk { expander, file } nesting ⟨.script, 0, wider⟩ 0
          ⟨front, block.statements⟩).runFrom progress =
            (.ok (.proceed ⟨front ++ done, []⟩), ended') ∧
        Progress.Trails expander.rules workspace progress.trace.toList progress.warnings.toList
          ended ended'
    | (.error stop, _) =>
        ((FileWalk.splitWalk { expander, file } nesting ⟨.script, 0, wider⟩ 0
          ⟨front, block.statements⟩).runFrom progress).1 = .error stop := by
  let start : Progress σ := { toWorkspace := workspace }
  have hwalk := simulates_walkScript hlocal file nesting block progress.trace.toList
    progress.warnings.toList wider front [] start progress
    ⟨.refl _ _, hsteady, (List.append_nil _).symm, (List.append_nil _).symm⟩
  rw [List.append_nil] at hwalk
  rcases hrun : (expander.walkScript file nesting block).runFrom start with ⟨stop | flow, ended⟩
  all_goals rw [hrun] at hwalk
  · exact hwalk.resolve_left (· rfl)
  · obtain ⟨done, rfl⟩ := walkScript_proceeds hrun
    obtain ⟨_, ended', hrun', hrelated, hended⟩ := hwalk
    cases hrelated with
    | proceed hlast =>
      subst hlast
      exact ⟨done, ended', rfl, hrun', hended⟩

end

end Expander

/-- With local macros, a script is expanded part by part: where the first part alone comes to a result,
the whole script comes to the results of both parts, one after the other, with their steps and their
warnings; or it ends as the second part does. The standard macros are local, in any table whose functions
are told apart by their identities. -/
theorem script_expands_part_by_part (expander : Expander) (workspace : Workspace σ) :
    (∀ symbols firstId, MethodSymbol.ToldApart symbols →
      expander.model = (SymbolTable.declaring symbols).model →
      workspace.registry = StandardMacros.registerAll firstId {} →
      expander.rules.HasLocalMacros workspace.registry) ∧
    (expander.rules.HasLocalMacros workspace.registry →
      ∀ file nesting (xs ys : List Stmt) (span span' wider : Span) first,
        (expander.expandWithin nesting (.script file ⟨xs, span⟩) workspace).1 = .ok first →
        (∀ second,
          (expander.expandWithin nesting (.script file ⟨ys, span'⟩) workspace).1 = .ok second →
          ∃ xs' ys', first.tree = .script file ⟨xs', span⟩ ∧
            second.tree = .script file ⟨ys', span'⟩ ∧
            (expander.expandWithin nesting (.script file ⟨xs ++ ys, wider⟩) workspace).1 =
              .ok
                { tree := .script file ⟨xs' ++ ys', wider⟩
                  trace := first.trace ++ second.trace
                  warnings := first.warnings ++ second.warnings }) ∧
        ∀ stop,
          (expander.expandWithin nesting (.script file ⟨ys, span'⟩) workspace).1 = .error stop →
          (expander.expandWithin nesting (.script file ⟨xs ++ ys, wider⟩) workspace).1 =
            .error stop) := by
  refine ⟨fun symbols firstId hapart hmodel hregistry => ?_, ?_⟩
  · rw [hregistry]
    refine BindingRules.hasLocalMacros_of_toldApart hapart hmodel
      (StandardMacros.isLocal_of_registerAll ?_ firstId)
    -- nothing is registered at first
    rintro _ (⟨_, h⟩ | ⟨_, h⟩) <;> cases h
  · intro hlocal file nesting xs ys span span' wider first hfirst
    let start : Progress σ := { toWorkspace := workspace }
    rcases hxs : (expander.walkScript file nesting ⟨xs, span⟩).runFrom start with ⟨stop | flow, ended⟩
    · rw [Expander.expandWithin_script_of_error (congrArg Prod.fst hxs)] at hfirst
      cases hfirst
    obtain ⟨xs', rfl⟩ := Expander.walkScript_proceeds hxs
    rw [Expander.expandWithin_script_of_ok hxs] at hfirst
    cases hfirst
    obtain ⟨middle, hmiddle, hwhole⟩ := Expander.runFrom_walkScript_append hlocal hxs wider ys
    have hbehind := Expander.runFrom_splitWalk_behind hlocal hmiddle.steady' file nesting ⟨ys, span'⟩
      xs' wider
    rcases hys : (expander.walkScript file nesting ⟨ys, span'⟩).runFrom start with
      ⟨stop | flow, ended'⟩
    all_goals rw [hys] at hbehind
    · refine ⟨fun second h => ?_, fun stop' h => ?_⟩
      all_goals rw [Expander.expandWithin_script_of_error (congrArg Prod.fst hys)] at h
      · cases h
      · cases h
        refine Expander.expandWithin_script_of_error ?_
        rw [hwhole]
        exact hbehind
    · obtain ⟨ys', last, rfl, hrun, hlast⟩ := hbehind
      refine ⟨fun second h => ?_, fun stop h => ?_⟩
      all_goals rw [Expander.expandWithin_script_of_ok hys] at h
      · cases h
        refine ⟨xs', ys', rfl, rfl, ?_⟩
        rw [Expander.expandWithin_script_of_ok (hwhole.trans hrun), hlast.trace, hlast.warnings,
          hmiddle.trace, hmiddle.warnings]
        rfl
      · cases h

/-! ### A script of two standard macros -/

/-- The macros that the script calls. -/
def scriptMacros : List MethodSymbol :=
  [StandardMacros.repeatFollowing ⟨2⟩, StandardMacros.here ⟨1⟩]

/-- Expands calls of these macros. -/
def scriptExpander : Expander where
  model := (SymbolTable.declaring scriptMacros).model

/-- A workspace with the standard macros. -/
def scriptWorkspace : Workspace Unit where
  session := { host := () }
  registry := StandardMacros.registerAll 0 {}

/-- A script of these statements. -/
def scriptOf (statements : List Stmt) : SyntaxTree :=
  .script { path := "file", text := none } ⟨statements, default⟩

/-- A statement that is written twice, and a call behind it that stands for its own place. -/
theorem script_expands_part_by_part_repeat :
    let twice : List Stmt := [.evaluate (.callOf "Repeat" [.ofInt 2]), .evaluate (.callOf "Log" [])]
    let placed : List Stmt := [.evaluate (.callOf "Log" [.callOf "Here" []])]
    ∃ first second,
      (scriptExpander.expandWithin 4 (scriptOf twice) scriptWorkspace).1 = .ok first ∧
      (scriptExpander.expandWithin 4 (scriptOf placed) scriptWorkspace).1 = .ok second ∧
      (scriptExpander.expandWithin 4 (scriptOf (twice ++ placed)) scriptWorkspace).1 =
        .ok
          { tree :=
              scriptOf
                [.evaluate (.callOf "Log" []), .evaluate (.callOf "Log" []),
                  .evaluate (.callOf "Log" [.ofString "file:0"])]
            trace := first.trace ++ second.trace
            warnings := first.warnings ++ second.warnings } := by
  intro twice placed
  have hapart : MethodSymbol.ToldApart scriptMacros := by
    unfold MethodSymbol.ToldApart
    decide
  obtain ⟨hstandard, hparts⟩ := script_expands_part_by_part scriptExpander scriptWorkspace
  have hlocal := hstandard scriptMacros 0 hapart rfl rfl
  have htwice : (scriptExpander.expandWithin 4 (scriptOf twice) scriptWorkspace).1.map (·.tree) =
      .ok (scriptOf [.evaluate (.callOf "Log" []), .evaluate (.callOf "Log" [])]) := by
    cbv
  have hplaced : (scriptExpander.expandWithin 4 (scriptOf placed) scriptWorkspace).1.map (·.tree) =
      .ok (scriptOf [.evaluate (.callOf "Log" [.ofString "file:0"])]) := by
    cbv
  rcases hfirst : (scriptExpander.expandWithin 4 (scriptOf twice) scriptWorkspace).1 with stop | first
  all_goals rw [hfirst] at htwice
  · cases htwice
  rcases hsecond : (scriptExpander.expandWithin 4 (scriptOf placed) scriptWorkspace).1 with
    stop | second
  all_goals rw [hsecond] at hplaced
  · cases hplaced
  obtain ⟨hbehind, -⟩ := hparts hlocal _ 4 twice placed default default default first hfirst
  obtain ⟨xs', ys', hxs', hys', hwhole⟩ := hbehind second hsecond
  refine ⟨first, second, rfl, rfl, hwhole.trans ?_⟩
  -- the trees of the parts are known
  cases hxs'.symm.trans (Except.ok.inj htwice)
  cases hys'.symm.trans (Except.ok.inj hplaced)
  rfl

end MacroExpansion
