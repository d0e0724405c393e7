import MacroExpansion.Proofs.CallReplacement
import MacroExpansion.Proofs.LiteralTexts
import MacroExpansion.Proofs.RepeatedStatements

/-! # Code as text

A call of `Stringify` gives way to a string literal of the text of its argument. So the text of the
argument is recovered from that of the literal, whatever the argument is: a call of `Stringify` in it is
text like everything else, since an outer call is expanded first. A literal may be turned into a text
again, and again: without as many pairs of quotation marks the first text is there again
(`unquotedTimes_restringified`). -/

namespace MacroExpansion

variable {σ : Type}

/-- Programs that run alike go on alike. -/
theorem ExpandM.runFrom_bind_congr {α β : Type} {first second : ExpandM σ α}
    {progress other : Progress σ} (h : first.runFrom progress = second.runFrom other)
    (next : α → ExpandM σ β) :
    (first >>= next).runFrom progress = (second >>= next).runFrom other := by
  rcases hrun : second.runFrom other with ⟨stop | value, ended⟩
  · rw [runFrom_bind_of_error hrun, runFrom_bind_of_error (h.trans hrun)]
  · rw [runFrom_bind_of_ok hrun, runFrom_bind_of_ok (h.trans hrun)]

/-- The first call to expand is found behind calls that lead to no macro. -/
theorem Expander.firstBound?_append {expander : Expander} {source : Option SourceText}
    {site : Call → Site} {before rest : List Call} {call : Call} {symbol : MethodSymbol}
    {bound : BoundCall} (hbefore : ∀ other ∈ before, expander.rules.candidate? other = none)
    (hleads : expander.rules.candidate? call = some symbol)
    (hbind : expander.rules.bind symbol (site call) source = .ok (some bound)) :
    expander.firstBound? source site (before ++ call :: rest) = .ok (some bound) := by
  induction before with
  | nil =>
    rw [List.nil_append, firstBound?, hleads]
    dsimp only
    rw [hbind]
  | cons first before ih =>
    obtain ⟨hfirst, hbefore⟩ := List.forall_mem_cons.mp hbefore
    rw [List.cons_append, firstBound?, hfirst]
    exact ih hbefore

/-! ## Calls of `Stringify` -/

namespace StandardMacros

/-- A call of `Stringify` by one expression alone. -/
structure StringifiesBy (rules : BindingRules) (id : SymbolId) (e : Expr) (call : Call) : Prop where
  /-- It leads to `Stringify`. -/
  leads : rules.candidate? call = some (stringify id)
  typeArgs : call.typeArgs = []
  args : call.args = [e]

/-- What a macro receives of an expression: the constant that it is, or the expression as written. -/
def suppliedBy (rules : BindingRules) (e : Expr) : Argument :=
  match rules.model.constantValue e with
  | some value => .constant value
  | none => .written e

/-- What a call of `Stringify` is bound with: its argument and a quote. -/
def boundStringify (rules : BindingRules) (id : SymbolId) (e : Expr) (site : Site) : BoundCall :=
  BindingRules.boundWith (stringify id) site
    [suppliedBy rules e, .quote ((Quote.of site (Buffers.create {}).1).withSequence 1)] 0

/-- `Stringify` takes every argument, and captures nothing. -/
theorem bind_stringify {rules : BindingRules} {id : SymbolId} {e : Expr} {site : Site}
    (hmarkers : rules.markers = .stored) (hcall : StringifiesBy rules id e site.call)
    (source : Option SourceText) :
    rules.bind (stringify id) site source = .ok (some (boundStringify rules id e site)) := by
  have hquotes (index : Nat) : rules.isQuoteParameter (stringify id) index = (index == 1) := by
    rw [BindingRules.isQuoteParameter, hmarkers]
    rcases index with _ | _ | index <;> rfl
  -- no quote is among the arguments
  have hforwards : rules.forwardsAmbientQuote (stringify id) site = false := by
    refine Bool.eq_false_iff.mpr fun hforwards => ?_
    obtain ⟨decl, -, index, name, hquote, hname, -⟩ :=
      BindingRules.forwardsAmbientQuote_iff.mp hforwards
    obtain rfl : index = 1 := beq_iff_eq.mp ((hquotes index).symm.trans hquote)
    rw [hcall.args] at hname
    cases hname
  let root := Quote.of site (Buffers.create {}).1
  have hfirst : rules.bindParam (stringify id) root source { name := "value", type := .object } 0 0 =
      .ok (suppliedBy rules e, 0) := by
    cases hvalue : rules.model.constantValue e <;>
      simp [BindingRules.bindParam, BindingRules.role, hquotes, BindingRules.supplied, hcall.args, root,
        Quote.of, suppliedBy, hvalue, Except.map]
  have hsecond : rules.bindParam (stringify id) root source textQuote 1 0 =
      .ok (.quote (root.withSequence 1), 0) := by
    simp [BindingRules.bindParam, BindingRules.role, hquotes]
  have hparams : rules.bindParams (stringify id) root source (stringify id).params 0 0 =
      .ok ([suppliedBy rules e, .quote (root.withSequence 1)], 0) :=
    BindingRules.bindParams_cons_ok.mpr ⟨_, _, _, hfirst,
      BindingRules.bindParams_cons_ok.mpr ⟨_, _, _, hsecond, rfl, rfl⟩, rfl⟩
  rw [BindingRules.bind_eq, hforwards, hparams]
  rfl

/-- No argument is missing. -/
theorem placeholders_boundStringify (rules : BindingRules) (id : SymbolId) (e : Expr) (site : Site) :
    (boundStringify rules id e site).placeholders = [] := by
  unfold boundStringify suppliedBy
  cases rules.model.constantValue e <;> rfl

/-- The body writes the text of the argument that is written in the call, constant or not. -/
theorem expandStringify_bound {rules : BindingRules} {site : Site} {e : Expr}
    (hargs : site.call.args = [e]) (quote : Quote) (typeArgs : List String) :
    expandStringify (σ := σ) ⟨site, [suppliedBy rules e, .quote quote], typeArgs⟩ =
      BodyM.emit quote (.expr (.ofString e.text)) := by
  have hfirst : site.call.args[0]? = some e := by
    rw [hargs]
    rfl
  rw [expandStringify, suppliedBy]
  cases rules.model.constantValue e with
  | none => rfl
  | some value =>
    have hwritten : Invocation.written? ⟨site, [.constant value, .quote quote], typeArgs⟩ 0 = some e :=
      hfirst
    rw [hwritten]
    rfl

/-- What is recorded of a call of `Stringify`. -/
def stringifyStep (id : SymbolId) (e : Expr) (call : Call) : ExpansionStep where
  macroName := (stringify id).qualifiedName
  span := call.span
  call := call.text
  fragments := [(Expr.ofString e.text).text]
  splice := .expression

/-- The call leaves nothing behind but its literal and this step, if steps are recorded. -/
def stringifyYield (expander : Expander) (id : SymbolId) (e : Expr) (call : Call) : Yield where
  trace := if expander.config.recordTrace then [stringifyStep id e call] else []

section

variable {expander : Expander} {id : SymbolId} {e : Expr} {site : Site} {progress : Progress σ}
  {implementation : Implementation σ}
  (hcall : StringifiesBy expander.rules id e site.call)
  (hidle : progress.session.binding.active = none)
  (hleads : (progress.registry.discover (stringify id)).1 = some implementation)
  (hbody : implementation.body = expandStringify)

include hcall hidle hleads hbody

/-- The body of `Stringify` comes to its end, and what it wrote is the text of the argument. -/
theorem exists_runs_stringify (source : Option SourceText) :
    let bound := boundStringify expander.rules id e site
    ∃ registry invoked, expander.Runs source bound progress implementation registry invoked ∧
      invoked.outcome = .ok [] ∧
      invoked.buffers.fragments bound.buffer = [.expr (.ofString e.text)] := by
  intro bound
  have hresolved : progress.registry.resolve bound.symbol bound.site source =
      (.ok implementation, (progress.registry.discover (stringify id)).2) := by
    rw [Registry.resolve_eq, show (progress.registry.discover bound.symbol).1 = _ from hleads]
    rfl
  have htypes : resolveTypeArgs bound.symbol bound.site expander.metadata source = .ok [] := by
    rw [resolveTypeArgs, show bound.site.call.typeArgs = [] from hcall.typeArgs]
    rfl
  have hwrites : implementation.body ⟨bound.site, bound.args, []⟩ =
      BodyM.emit ((Quote.of site (Buffers.create {}).1).withSequence 1) (.expr (.ofString e.text)) := by
    rw [hbody]
    exact expandStringify_bound hcall.args _ _
  refine ⟨_, _, ⟨hresolved, [], htypes, rfl⟩, ?_, ?_⟩
  · simp only [invoke, CallBinding.enter_of_inactive hidle, hwrites]
    rfl
  · simp only [invoke, CallBinding.enter_of_inactive hidle, hwrites]
    rfl

/-- The call is expanded into a literal of that text, and nothing but its step is noted. -/
theorem expandCall_stringify (source : Option SourceText) :
    ∃ ended, (expander.expandCall source (boundStringify expander.rules id e site)).runFrom progress =
        (.ok (.inPlace (.ofString e.text)), ended) ∧
      ended.trace.toList = progress.trace.toList ++ (stringifyYield expander id e site.call).trace ∧
      ended.warnings.toList = progress.warnings.toList := by
  obtain ⟨registry, invoked, hruns, houtcome, hfragments⟩ :=
    exists_runs_stringify hcall hidle hleads hbody source
  let bound := boundStringify expander.rules id e site
  have hplace : bound.place [.expr (.ofString e.text)] = .ok (.inPlace (.ofString e.text)) := rfl
  have hplaced := expander.outcome_of_runs hruns houtcome
  rw [hfragments] at hplaced
  have hcases := expander.callOutcome source bound progress
  rcases hrun : (expander.expandCall source bound).runFrom progress with ⟨outcome, ended⟩
  rw [hrun] at hplaced hcases
  obtain rfl : outcome = .ok (.inPlace (.ofString e.text)) := hplaced
  refine ⟨ended, rfl, ?_, ?_⟩
  · cases hcases with
    | placed hruns' houtcome' houtput _ =>
      rw [hruns.unique hruns'] at houtcome' houtput
      -- a call has one run, which is the known one
      cases houtcome.symm.trans houtcome'
      rw [hfragments] at houtput
      cases houtput
      unfold stringifyYield
      dsimp only
      split
      · exact Array.toList_push
      · exact (List.append_nil _).symm
  · have hplaceholders : bound.placeholderWarnings = [] :=
      congrArg (List.map _) (placeholders_boundStringify expander.rules id e site)
    rw [hcases.warnings_eq, hplaceholders, List.append_nil]

end

/-- `Stringify` is among the standard macros. -/
theorem mem_all_stringify (firstId : Nat) :
    (stringify ⟨firstId + 3⟩, expandStringify) ∈ all (σ := σ) firstId := by
  simp [all]

end StandardMacros

open StandardMacros

/-! ## Statements with a call of `Stringify` -/

/-- A call of `Stringify` fills the hole of a statement, and no call before it leads to a macro. -/
structure StmtContext.StringifiesFirst (whole : StmtContext) (rules : BindingRules) (id : SymbolId)
    (e : Expr) (call : Call) : Prop extends StringifiesBy rules id e call where
  before : ∀ other ∈ whole.callsBefore (.call call), rules.candidate? other = none

namespace StmtContext.StringifiesFirst

variable {whole : StmtContext} {rules : BindingRules} {id : SymbolId} {e : Expr} {call : Call}
  (h : whole.StringifiesFirst rules id e call)

include h

/-- The hole is the first place of the call. -/
theorem replaceCall?_plug (replacement : Expr) :
    (whole.plug (.call call)).replaceCall? call replacement = some (whole.plug replacement) := by
  refine whole.replaceCall?_plug fun hmem => ?_
  cases h.leads.symm.trans (h.before call hmem)

/-- The call is the first one to expand. -/
theorem firstBound?_eq {expander : Expander} (hrules : expander.rules = rules)
    (hmarkers : expander.markers = .stored) (source : Option SourceText) {site : Call → Site}
    (hsite : (site call).call = call) :
    expander.firstBound? source site (whole.plug (.call call)).ownCalls =
      .ok (some (boundStringify rules id e (site call))) := by
  subst hrules
  have hcall : StringifiesBy expander.rules id e (site call).call := by
    rw [hsite]
    exact h.toStringifiesBy
  rw [whole.ownCalls_plug, Expr.calls, List.append_assoc]
  exact Expander.firstBound?_append h.before h.leads (bind_stringify hmarkers hcall source)

end StmtContext.StringifiesFirst

section

variable {expander : Expander} {start : Workspace σ} {firstId : Nat} {file : FileOrigin}
  {whole : StmtContext} {e : Expr} {call : Call} {progress : Progress σ}

/-- From a steady progress a call of `Stringify` is expanded into a literal of the text of its
argument. -/
theorem Expander.HasStandardMacros.expandCall_stringify
    (h : expander.HasStandardMacros start.registry firstId)
    (hidle : start.session.binding.active = none) (hsteady : progress.IsSteady expander.rules start)
    (site : Site) (hcall : StringifiesBy expander.rules ⟨firstId + 3⟩ e site.call)
    (source : Option SourceText) :
    ∃ ended, (expander.expandCall source
        (boundStringify expander.rules ⟨firstId + 3⟩ e site)).runFrom progress =
          (.ok (.inPlace (.ofString e.text)), ended) ∧
      progress.Adds expander.rules start (stringifyYield expander ⟨firstId + 3⟩ e site.call) ended := by
  have hleads := (hsteady.leads hcall.leads).trans (h.leads (mem_all_stringify firstId))
  obtain ⟨ended, hrun, htrace, hwarnings⟩ := StandardMacros.expandCall_stringify hcall
    (hsteady.binding ▸ hidle) hleads rfl source
  have houtcome :=
    expander.callOutcome source (boundStringify expander.rules ⟨firstId + 3⟩ e site) progress
  rw [hrun] at houtcome
  exact ⟨ended, hrun, hsteady.of_callOutcome h.hasLocalMacros hcall.leads houtcome, htrace,
    hwarnings.trans (List.append_nil _).symm⟩

/-! ## In place of the call -/

/-- The call is the next one of its statement. -/
theorem FileWalk.runFrom_next_stringify
    (hfirst : whole.StringifiesFirst expander.rules ⟨firstId + 3⟩ e call)
    (hmarkers : expander.markers = .stored) (file : FileOrigin) (cursor : Cursor)
    (progress : Progress σ) :
    let walk : FileWalk σ := { expander, file }
    let site := cursor.site file.path
    (walk.next (whole.plug (.call call)) site).runFrom progress =
      (.ok (some (boundStringify expander.rules ⟨firstId + 3⟩ e (site call))), progress) := by
  intro walk site
  change (ExpandM.require _).runFrom progress = _
  rw [hfirst.firstBound?_eq rfl hmarkers file.source rfl]
  rfl

variable (h : expander.HasStandardMacros start.registry firstId)
  (hidle : start.session.binding.active = none) (hsteady : progress.IsSteady expander.rules start)
  (hfirst : whole.StringifiesFirst expander.rules ⟨firstId + 3⟩ e call)

include h hidle hsteady hfirst

/-- Settling a statement with a call of `Stringify` goes on with the literal in place of the call. -/
theorem FileWalk.settle_stringify {cursor : Cursor} (hstmt : cursor.stmt = whole.plug (.call call))
    (hdepth : cursor.depth ≤ expander.config.maxDepth) (walkInner : SequenceWalk σ) (allowed : Nat) :
    ∃ ended, (settle { expander, file } walkInner (allowed + 1) cursor).runFrom progress =
        (settle { expander, file } walkInner allowed
          (cursor.withStmt (whole.plug (.ofString e.text)))).runFrom ended ∧
      progress.Adds expander.rules start (stringifyYield expander ⟨firstId + 3⟩ e call) ended := by
  let bound := boundStringify expander.rules ⟨firstId + 3⟩ e (cursor.site file.path call)
  obtain ⟨ended, hplaced, hadds⟩ := h.expandCall_stringify hidle hsteady
    (cursor.site file.path call) hfirst.toStringifiesBy file.source
  have hnext := runFrom_next_stringify hfirst h.markers file cursor progress
  rw [← hstmt] at hnext
  refine ⟨ended, ?_, hadds⟩
  rw [runFrom_settle_of_placed hnext hdepth hplaced, placeAt, hstmt,
    show bound.site.call = call from rfl, hfirst.replaceCall?_plug]

/-- The same at its place in a parted sequence. -/
theorem FileWalk.settleSplit_stringify (file : FileOrigin) {setting : Setting}
    (hdepth : setting.depth ≤ expander.config.maxDepth) (walkRun : SplitWalk σ)
    (walkNested : SequenceWalk σ) (allowed : Nat) (done rest : List Stmt) :
    ∃ ended, (settleSplit { expander, file } walkRun walkNested setting (allowed + 1)
          ⟨done, whole.plug (.call call) :: rest⟩).runFrom progress =
        (settleSplit { expander, file } walkRun walkNested setting allowed
          ⟨done, whole.plug (.ofString e.text) :: rest⟩).runFrom ended ∧
      progress.Adds expander.rules start (stringifyYield expander ⟨firstId + 3⟩ e call) ended := by
  let cursor := setting.cursor ⟨done, whole.plug (.call call) :: rest⟩
  let bound := boundStringify expander.rules ⟨firstId + 3⟩ e (cursor.site file.path call)
  obtain ⟨ended, hplaced, hadds⟩ := h.expandCall_stringify hidle hsteady
    (cursor.site file.path call) hfirst.toStringifiesBy file.source
  have hnext := runFrom_next_stringify hfirst h.markers file cursor progress
  have hlocated : (ExpandM.located bound.site.call.span file.source
      (expander.expandCall file.source bound)).runFrom progress =
        (.ok (.inPlace (.ofString e.text)), ended) := by
    rw [ExpandM.runFrom_located, hplaced]
  refine ⟨ended, ?_, hadds⟩
  rw [runFrom_settleSplit_of_bound hnext hdepth]
  refine (ExpandM.runFrom_bind_of_ok hlocated).trans ?_
  rw [placeSplit, Setting.stmt_cursor, show bound.site.call = call from rfl, hfirst.replaceCall?_plug]
  rfl

/-- Where nothing else has to be expanded in the statement, the walk goes on as though the literal had
been written in place of the call. -/
theorem FileWalk.splitWalk_stringify (hgoesOn : start.session.cancelled = false)
    (hlimit : 1 ≤ expander.config.maxDepth)
    (hplain : ∀ other ∈ (whole.plug (.ofString e.text)).ownCalls, expander.rules.candidate? other = none)
    (file : FileOrigin) {setting : Setting} (hdepth : setting.depth ≤ expander.config.maxDepth)
    (nesting : Nat) (done rest : List Stmt) :
    ∃ ended, (splitWalk { expander, file } (nesting + 1) setting 0
          ⟨done, whole.plug (.call call) :: rest⟩).runFrom progress =
        (splitWalk { expander, file } (nesting + 1) setting 0
          ⟨done, whole.plug (.ofString e.text) :: rest⟩).runFrom ended ∧
      progress.Adds expander.rules start (stringifyYield expander ⟨firstId + 3⟩ e call) ended := by
  let walk : FileWalk σ := { expander, file }
  obtain ⟨limit, hlimit⟩ : ∃ limit, expander.config.maxDepth = limit + 1 :=
    ⟨expander.config.maxDepth - 1, by omega⟩
  obtain ⟨ended, hsettled, hadds⟩ := settleSplit_stringify h hidle hsteady hfirst file hdepth
    (walk.splitWalk nesting) (walk.splitWalk nesting).onSequence limit done rest
  have hpoll {progress : Progress σ} (hsteady : progress.IsSteady expander.rules start) :
      ExpandM.checkCancelled.runFrom progress = (.ok (), progress) := by
    rw [ExpandM.runFrom_checkCancelled, hsteady.cancelled.trans hgoesOn]
    rfl
  have hnext : (walk.next (whole.plug (.ofString e.text))
      ((setting.cursor ⟨done, whole.plug (.ofString e.text) :: rest⟩).site file.path)).runFrom ended =
        (.ok none, ended) := by
    change (ExpandM.require _).runFrom ended = _
    rw [Expander.firstBound?_of_no_candidate hplain]
    rfl
  -- with nothing to expand it does not matter that one expansion less is allowed
  have hsame : (settleSplit walk (walk.splitWalk nesting) (walk.splitWalk nesting).onSequence setting limit
      ⟨done, whole.plug (.ofString e.text) :: rest⟩).runFrom ended =
        (settleSplit walk (walk.splitWalk nesting) (walk.splitWalk nesting).onSequence setting (limit + 1)
          ⟨done, whole.plug (.ofString e.text) :: rest⟩).runFrom ended := by
    rw [runFrom_settleSplit_of_none hnext, runFrom_settleSplit_of_none hnext]
  refine ⟨ended, ?_, hadds⟩
  rw [splitWalk_of_lt _ _ _ _ (Nat.zero_lt_succ _), splitWalk_of_lt _ _ _ _ (Nat.zero_lt_succ _)]
  dsimp only
  rw [hlimit]
  refine (ExpandM.runFrom_bind_of_ok (hpoll hsteady)).trans ?_
  refine Eq.trans ?_ (ExpandM.runFrom_bind_of_ok (hpoll hadds.steady)).symm
  exact ExpandM.runFrom_bind_congr (hsettled.trans hsame) _

end

/-! ## Bodies -/

section

variable {expander : Expander} {start : Workspace σ} {firstId nesting : Nat} {file : FileOrigin}
  {settingOf : List Stmt → Setting} {whole : StmtContext} {e : Expr} {call : Call}
  {pre rest : List Stmt} {ahead behind yield : Yield}
  (hwidens : ∀ xs ys, (settingOf xs).Widens expander.rules (settingOf ys))
  (hpre : expander.Yields file nesting start (settingOf pre) pre ahead)

include hwidens hpre

/-- A body whose first part comes to something comes to that and to what its other part comes to. -/
theorem Expander.exists_behind_of_yields (hlocal : expander.rules.HasLocalMacros start.registry)
    (h : expander.Yields file nesting start (settingOf (pre ++ rest)) (pre ++ rest) yield) :
    ∃ behind, expander.Yields file nesting start (settingOf rest) rest behind ∧
      yield = ahead ++ behind := by
  obtain ⟨ended, hrun, htrace, hwarnings⟩ := h
  obtain ⟨middle, hfirst, hsame⟩ := hpre.runFrom_append hlocal (hwidens pre (pre ++ rest)) (.refl _ _)
    [] rest
  have hdepth : (settingOf (pre ++ rest)).depth = (settingOf rest).depth :=
    Nat.le_antisymm (hwidens _ _).depth (hwidens _ _).depth
  obtain ⟨behind, hbehind, hlast, hadds⟩ := yields_of_runFrom hlocal (hwidens rest (pre ++ rest)) hdepth
    hfirst.steady (hsame.symm.trans hrun)
  have hall := hfirst.append hadds
  exact ⟨behind, hbehind, Yield.ext (Split.mk.inj hlast).1 (htrace.symm.trans hall.trace)
    (hwarnings.symm.trans hall.warnings)⟩

/-- A body with a call of `Stringify` comes to what it would come to with the literal in place of the call,
with the step of the call where it stands. -/
theorem Expander.yields_stringify (h : expander.HasStandardMacros start.registry firstId)
    (hidle : start.session.binding.active = none) (hgoesOn : start.session.cancelled = false)
    (hlimit : 1 ≤ expander.config.maxDepth)
    (hat : ∀ xs, (settingOf xs).depth ≤ expander.config.maxDepth)
    (hfirst : whole.StringifiesFirst expander.rules ⟨firstId + 3⟩ e call)
    (hplain : ∀ other ∈ (whole.plug (.ofString e.text)).ownCalls, expander.rules.candidate? other = none)
    (hbehind : expander.Yields file nesting start (settingOf (whole.plug (.ofString e.text) :: rest))
      (whole.plug (.ofString e.text) :: rest) behind) :
    expander.Yields file nesting start (settingOf (pre ++ whole.plug (.call call) :: rest))
      (pre ++ whole.plug (.call call) :: rest)
      (ahead ++ stringifyYield expander ⟨firstId + 3⟩ e call ++ behind) := by
  have hlocal := h.hasLocalMacros
  obtain ⟨middle, hadds, hsame⟩ := hpre.runFrom_append hlocal
    (hwidens pre (pre ++ whole.plug (.call call) :: rest)) (.refl _ _) [] (whole.plug (.call call) :: rest)
  cases nesting with
  | zero =>
    obtain ⟨_, hrun, -⟩ := hpre
    cases hrun
  | succ nesting =>
    obtain ⟨stringified, hstringified, hadds'⟩ := FileWalk.splitWalk_stringify h hidle
      hadds.steady hfirst hgoesOn hlimit hplain file (hat (pre ++ whole.plug (.call call) :: rest)) nesting
      ([] ++ ahead.statements) rest
    obtain ⟨ended, hrun, hadds''⟩ := hbehind.runFrom_part hlocal
      (hwidens _ (pre ++ whole.plug (.call call) :: rest)) hadds'.steady ([] ++ ahead.statements) []
    have hall := (hadds.append hadds').append hadds''
    rw [List.append_nil] at hrun
    refine ⟨ended, ?_, hall.trace, hall.warnings⟩
    rw [hsame, hstringified]
    refine hrun.trans ?_
    simp [stringifyYield]

end

/-! ## Rounds -/

/-- The literal that an expression becomes when the text of it, the text of that literal and so on are
written as literals. -/
def Expr.restringified : Nat → Expr → Expr
  | 0, e => e
  | rounds + 1, e => .ofString (restringified rounds e).text

/-- A text without as many pairs of quotation marks. -/
def Literal.unquotedTimes : Nat → String → Option String
  | 0, text => some text
  | rounds + 1, text => unquoted text >>= unquotedTimes rounds

/-- The text of an expression is recovered from the literals of its text, however often it is quoted. -/
theorem Expr.unquotedTimes_restringified (e : Expr) (rounds : Nat) :
    Literal.unquotedTimes rounds (e.restringified rounds).text = some e.text := by
  induction rounds with
  | zero => rfl
  | succ rounds ih =>
    have hquoted :
        (e.restringified (rounds + 1)).text = Literal.quoted (e.restringified rounds).text := rfl
    rw [Literal.unquotedTimes, hquoted, Literal.unquoted_quoted]
    exact ih

/-! ## Files -/

/-- In a statement a call of `Stringify` gives way to a literal of the text of its argument. -/
structure Expander.Stringifies (expander : Expander) (start : Workspace σ) (id : SymbolId)
    (whole : StmtContext) (e : Expr) (call : Call) : Prop where
  /-- The text of the argument is recovered from that of the literal. -/
  recovers : Literal.unquoted (Expr.ofString e.text).text = some e.text
  /-- Wherever the statement is settled, the statement with the literal is settled further. -/
  settles {file : FileOrigin} {progress : Progress σ} {cursor : Cursor}
    (hsteady : progress.IsSteady expander.rules start) (hstmt : cursor.stmt = whole.plug (.call call))
    (hdepth : cursor.depth ≤ expander.config.maxDepth) (walkInner : SequenceWalk σ) (allowed : Nat) :
    ∃ ended, (FileWalk.settle { expander, file } walkInner (allowed + 1) cursor).runFrom progress =
        (FileWalk.settle { expander, file } walkInner allowed
          (cursor.withStmt (whole.plug (.ofString e.text)))).runFrom ended ∧
      progress.Adds expander.rules start (stringifyYield expander id e call) ended
  /-- Where nothing else has to be expanded in the statement, a file with it in some body is expanded as
  though the literal had been written there, but for the step of the call. -/
  expands {place : BodyPlace} {nesting : Nat} {pre rest : List Stmt} {before expansion : Expansion}
    (hgoesOn : start.session.cancelled = false) (hlimit : 1 ≤ expander.config.maxDepth)
    (hplain : ∀ other ∈ (whole.plug (.ofString e.text)).ownCalls, expander.rules.candidate? other = none)
    (hbefore : (expander.expandWithin nesting (place.tree pre) start).1 = .ok before)
    (hliteral : (expander.expandWithin nesting
      (place.tree (pre ++ whole.plug (.ofString e.text) :: rest)) start).1 = .ok expansion) :
    ∃ ahead behind, expansion.trace = ahead ++ behind ∧
      (expander.expandWithin nesting (place.tree (pre ++ whole.plug (.call call) :: rest)) start).1 =
        .ok { expansion with trace := ahead ++ (stringifyYield expander id e call).trace ++ behind }

/-- A call of `Stringify` gives way to its literal when no call before it leads to a macro. -/
theorem Expander.HasStandardMacros.stringifies {expander : Expander} {start : Workspace σ} {firstId : Nat}
    {whole : StmtContext} {e : Expr} {call : Call} (h : expander.HasStandardMacros start.registry firstId)
    (hidle : start.session.binding.active = none)
    (hfirst : whole.StringifiesFirst expander.rules ⟨firstId + 3⟩ e call) :
    expander.Stringifies start ⟨firstId + 3⟩ whole e call where
  recovers := Literal.unquoted_quoted e.text
  settles hsteady hstmt hdepth :=
    FileWalk.settle_stringify h hidle hsteady hfirst hstmt hdepth
  expands {place nesting pre rest before expansion} hgoesOn hlimit hplain hbefore hliteral := by
    obtain ⟨around, hsurrounds⟩ := Expander.exists_surroundings h.hasLocalMacros hbefore
    obtain ⟨ahead, hahead, -⟩ := hsurrounds.exists_yield h hbefore
    obtain ⟨yield, hyield, rfl⟩ := hsurrounds.exists_yield h hliteral
    have hwidens (xs ys : List Stmt) : (place.setting xs).Widens expander.rules (place.setting ys) :=
      ⟨place.holder.scope_resembles h.byName _ _, Nat.le_refl _⟩
    obtain ⟨behind, hbehind, rfl⟩ :=
      Expander.exists_behind_of_yields hwidens hahead h.hasLocalMacros hyield
    have hwhole := Expander.yields_stringify hwidens hahead h hidle hgoesOn hlimit
      (fun _ => Nat.zero_le _) hfirst hplain hbehind
    refine ⟨around.before.trace ++ ahead.trace, behind.trace ++ around.behind.trace, ?_, ?_⟩
    · simp [Surroundings.expansion]
    · rw [hsurrounds.expands hwhole]
      simp [Surroundings.expansion, stringifyYield]

/-- The text of a literal tells the literal. That of a string literal is scanned to its closing mark,
whatever follows, and it tells the string. So from the literal that a call of `Stringify` gives way to,
the text of its argument is recovered, whatever the argument is, and however often literals of texts are
written as literals again. -/
theorem literal_text_tells_literal :
    Function.Injective Literal.text ∧
      (∀ value behind : String,
        Literal.scanLiteral (Literal.text (.string value) ++ behind).toList =
          some ((Literal.text (.string value)).toList, behind.toList)) ∧
      (∀ value : String, Literal.unquoted (Literal.text (.string value)) = some value) ∧
      (∀ {expander : Expander} {start : Workspace σ} {firstId : Nat} {whole : StmtContext} {e : Expr}
        {call : Call}, expander.HasStandardMacros start.registry firstId →
        start.session.binding.active = none →
        whole.StringifiesFirst expander.rules ⟨firstId + 3⟩ e call →
        expander.Stringifies start ⟨firstId + 3⟩ whole e call) ∧
      ∀ (e : Expr) (rounds : Nat),
        Literal.unquotedTimes rounds (e.restringified rounds).text = some e.text := by
  refine ⟨Literal.text_injective, fun value behind => ?_, Literal.unquoted_quoted, fun h hidle hfirst =>
    h.stringifies hidle hfirst, Expr.unquotedTimes_restringified⟩
  rw [String.toList_append]
  exact Literal.scanLiteral_append value behind.toList

/-- Expands calls of `Stringify`. -/
def stringifyExpander : Expander where
  model := (SymbolTable.declaring [stringify ⟨3⟩]).model

/-- From `Log(Stringify(Stringify("a\"b\\")));` the text of the inner call is recovered. -/
theorem literal_text_tells_literal_nested :
    let e : Expr := .callOf "Stringify" [.ofString "a\"b\\"]
    let whole : StmtContext := .evaluated (.argument "Log" [] [] .hole [] default) default
    ∃ expansion,
      (stringifyExpander.expandWithin 2
        (repeatPlace.tree [whole.plug (.callOf "Stringify" [e])]) scriptWorkspace).1 = .ok expansion ∧
      expansion.tree = repeatPlace.tree [whole.plug (.ofString e.text)] ∧
      expansion.trace.length = 1 ∧
      Literal.unquoted (Expr.ofString e.text).text = some e.text ∧
      e.text = "Stringify(\"a\\\"b\\\\\")" := by
  intro e whole
  have hstandard : stringifyExpander.HasStandardMacros scriptWorkspace.registry 0 := by
    have hmodel : stringifyExpander.model = (SymbolTable.declaring [stringify ⟨3⟩]).model := rfl
    refine Expander.hasStandardMacros_declaring hmodel rfl (fun symbol hsymbol _ => ?_) rfl
    obtain rfl := List.mem_singleton.mp hsymbol
    simp [StandardMacros.all]
  have hlog (arg : Expr) : stringifyExpander.rules.candidate? (.plain "Log" [arg]) = none := by cbv
  have hfirst : whole.StringifiesFirst stringifyExpander.rules ⟨3⟩ e (.plain "Stringify" [e]) := by
    refine ⟨⟨by cbv, rfl, rfl⟩, fun other hother => ?_⟩
    obtain rfl := List.mem_singleton.mp hother
    exact hlog _
  have hstringifies := literal_text_tells_literal.2.2.2.1 hstandard rfl hfirst
  have hplain : ∀ other ∈ (whole.plug (.ofString e.text)).ownCalls,
      stringifyExpander.rules.candidate? other = none := by
    intro other hother
    obtain rfl := List.mem_singleton.mp hother
    exact hlog _
  have hnothing : (stringifyExpander.expandWithin 2 (repeatPlace.tree []) scriptWorkspace).1 =
      .ok { tree := repeatPlace.tree [], trace := [], warnings := [] } := by
    cbv
  have hliteral : (stringifyExpander.expandWithin 2
      (repeatPlace.tree ([] ++ [whole.plug (.ofString e.text)])) scriptWorkspace).1 =
        .ok
          { tree := repeatPlace.tree [whole.plug (.ofString e.text)], trace := [], warnings := [] } := by
    unfold whole e
    cbv
  obtain ⟨ahead, behind, htrace, hexpanded⟩ :=
    hstringifies.expands rfl (by decide) hplain hnothing hliteral
  refine ⟨_, hexpanded, rfl, ?_, hstringifies.recovers, by unfold e; cbv⟩
  have hlength := congrArg List.length htrace
  rw [List.length_append] at hlength
  dsimp only
  rw [List.length_append, List.length_append]
  have hstep : (stringifyYield stringifyExpander ⟨3⟩ e (.plain "Stringify" [e])).trace.length = 1 := rfl
  rw [hstep]
  have hsum : 0 = ahead.length + behind.length := hlength
  omega

end MacroExpansion
