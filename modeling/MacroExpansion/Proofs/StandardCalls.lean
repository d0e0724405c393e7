import MacroExpansion.Proofs.Composition
import MacroExpansion.Proofs.OutputEffect
import MacroExpansion.Proofs.PlaceNames
import MacroExpansion.Proofs.WalkSpec

/-! # Calls of the standard macros

Where the standard macros are the only ones, a call becomes a text (`FunctionName`, `Here` and
`Stringify`), or copies of the statement that follows it stand for the call and that statement
(`Repeat`). No call puts a function in place of another one. -/

namespace MacroExpansion

variable {σ : Type}

/-! ## Nothing but standard macros -/

/-- The standard macros are told apart by their identities. -/
theorem StandardMacros.toldApart (firstId : Nat) :
    MethodSymbol.ToldApart ((all (σ := σ) firstId).map Prod.fst) := by
  intro symbol hsymbol other hother hid
  simp only [all, List.map_cons, List.map_nil, List.mem_cons, List.not_mem_nil, or_false]
    at hsymbol hother
  rcases hsymbol with rfl | rfl | rfl | rfl <;> rcases hother with rfl | rfl | rfl | rfl <;>
    first
    | rfl
    | simp [functionName, here, repeatFollowing, stringify] at hid

/-- The standard macros are the only macros of an expansion, and lead to their own bodies. -/
structure Expander.HasStandardMacros (expander : Expander) (registry : Registry σ) (firstId : Nat) :
    Prop where
  /-- Calls and declarations are known by their names. -/
  byName : expander.rules.model.ByName
  /-- The markers are those of the declarations. -/
  markers : expander.markers = .stored
  /-- Calls lead to no other macros. -/
  only {call : Call} {symbol : MethodSymbol} (h : expander.rules.candidate? call = some symbol) :
    ∃ body, (symbol, body) ∈ StandardMacros.all (σ := σ) firstId
  /-- The macros lead to their bodies. -/
  leads {symbol : MethodSymbol} {body : Invocation → BodyM σ Unit}
    (h : (symbol, body) ∈ StandardMacros.all firstId) :
    (registry.discover symbol).1 = some { name := symbol.qualifiedName, body }

namespace Expander.HasStandardMacros

variable {expander : Expander} {registry : Registry σ} {firstId : Nat} {symbol : MethodSymbol}

/-- What a call leads to is one of the four macros. -/
theorem symbol_cases (h : expander.HasStandardMacros registry firstId) {call : Call}
    (hsymbol : expander.rules.candidate? call = some symbol) :
    symbol = StandardMacros.functionName ⟨firstId⟩ ∨ symbol = StandardMacros.here ⟨firstId + 1⟩ ∨
      symbol = StandardMacros.repeatFollowing ⟨firstId + 2⟩ ∨
        symbol = StandardMacros.stringify ⟨firstId + 3⟩ := by
  obtain ⟨body, hbody⟩ := h.only hsymbol
  simp only [StandardMacros.all, List.mem_cons, Prod.mk.injEq, List.not_mem_nil, or_false] at hbody
  rcases hbody with ⟨h, -⟩ | ⟨h, -⟩ | ⟨h, -⟩ | ⟨h, -⟩
  · exact .inl h
  · exact .inr (.inl h)
  · exact .inr (.inr (.inl h))
  · exact .inr (.inr (.inr h))

/-- A macro of a call is among the declared ones. -/
theorem mem_symbols (h : expander.HasStandardMacros registry firstId) {call : Call}
    (hsymbol : expander.rules.candidate? call = some symbol) :
    symbol ∈ (StandardMacros.all (σ := σ) firstId).map Prod.fst := by
  obtain ⟨body, hbody⟩ := h.only hsymbol
  exact List.mem_map_of_mem (f := Prod.fst) hbody

/-- All macros are local. -/
theorem hasLocalMacros (h : expander.HasStandardMacros registry firstId) :
    expander.rules.HasLocalMacros registry := by
  refine ⟨fun {call call' symbol other} hsymbol hother => ?_,
    fun {call symbol} hsymbol found hfound => ?_⟩
  · rw [Registry.discover_discover]
    split
    · rw [← StandardMacros.toldApart firstId symbol (h.mem_symbols hsymbol) other
        (h.mem_symbols hother) ‹_›, Option.or_self]
    · rfl
  · obtain ⟨body, hbody⟩ := h.only hsymbol
    rw [h.leads hbody] at hfound
    cases hfound
    simp only [StandardMacros.all, List.mem_cons, Prod.mk.injEq, List.not_mem_nil, or_false] at hbody
    rcases hbody with ⟨rfl, rfl⟩ | ⟨rfl, rfl⟩ | ⟨rfl, rfl⟩ | ⟨rfl, rfl⟩
    · exact StandardMacros.isLocal_functionName _
    · exact StandardMacros.isLocal_here _
    · exact StandardMacros.isLocal_repeat _
    · exact StandardMacros.isLocal_stringify _

/-- A macro of a call has its body, also when others were looked up before. -/
theorem hasBody {start : Workspace σ} {progress : Progress σ}
    (h : expander.HasStandardMacros start.registry firstId)
    (hsteady : progress.IsSteady expander.rules start) {body : Invocation → BodyM σ Unit}
    (hbody : (symbol, body) ∈ StandardMacros.all firstId) {call : Call}
    (hsymbol : expander.rules.candidate? call = some symbol) :
    progress.registry.HasBody expander.rules symbol body :=
  Registry.hasBody_of_toldApart (StandardMacros.toldApart (σ := σ) firstId)
    (fun _ _ => h.mem_symbols) (h.mem_symbols hsymbol)
    ⟨_, (hsteady.leads hsymbol).trans (h.leads hbody), rfl⟩

/-- Only `Repeat` captures statements. -/
theorem capturesNothing (h : expander.HasStandardMacros registry firstId) {call : Call}
    (hsymbol : expander.rules.candidate? call = some symbol)
    (hrepeat : symbol ≠ StandardMacros.repeatFollowing ⟨firstId + 2⟩) :
    expander.rules.CapturesNothing symbol := by
  intro index param hparam hrole
  have hdefault : param.default.isSome ∧ param.type.isCapture = true := by
    have hcapture := BindingRules.isCapture_of_role hrole
    rw [ParameterSymbol.isCapture, Bool.and_eq_true] at hcapture
    exact hcapture
  rcases h.symbol_cases hsymbol with rfl | rfl | rfl | rfl
  · match index with
    | 0 => cases hparam; exact absurd hdefault.2 (by decide)
    | index + 1 => cases hparam
  · cases hparam
  · exact hrepeat rfl
  · match index with
    | 0 => cases hparam; exact absurd hdefault.2 (by decide)
    | 1 => cases hparam; exact absurd hdefault.2 (by decide)
    | index + 2 => cases hparam

end Expander.HasStandardMacros

/-! ## Bodies that write through their quote -/

/-- A buffer holds all fragments that were written to it. -/
theorem Buffers.fragments_pushAll (fragments : List Fragment) (id : BufferId) (buffers : Buffers)
    (h : id.index < buffers.contents.length) :
    (fragments.foldl (fun buffers => buffers.push id) buffers).fragments id =
      buffers.fragments id ++ fragments := by
  induction fragments generalizing buffers with
  | nil => exact (List.append_nil _).symm
  | cons fragment rest ih =>
    have hkept : id.index < (buffers.push id fragment).contents.length := by
      simpa [Buffers.push] using h
    rw [List.foldl_cons, ih _ hkept, Buffers.fragments_push_self _ _ _ h, List.append_assoc]
    rfl

/-- A body may write fragments one after the other. -/
theorem BodyM.run_emitAll (quote : Quote) (fragments : List Fragment) (state : BodyState σ) :
    (fragments.forM (BodyM.emit quote)).run.run state =
      (.ok ⟨⟩, { state with
        buffers := fragments.foldl (fun buffers => buffers.push quote.buffer) state.buffers }) := by
  induction fragments generalizing state with
  | nil => rfl
  | cons fragment rest ih => exact ih _

/-- The body of a call with output does not give up. -/
theorem PlacedCall.IsServedBy.ne_fail {expander : Expander} {file : FileOrigin} {registry : Registry σ}
    {call : PlacedCall} {body : Invocation → BodyM σ Unit} (h : call.IsServedBy expander file registry)
    (hbody : registry.HasBody expander.rules call.bound.symbol body) (text : String) :
    body call.invocation ≠ BodyM.fail text := by
  intro hfails
  obtain ⟨name, session, requested, hidle, houtcome, -⟩ := h.exists_run rfl hbody
  simp only [invoke, CallBinding.enter_of_inactive hidle, hfails] at houtcome
  cases houtcome

/-- The output of a call is what its body writes through the first quote. -/
theorem PlacedCall.IsServedBy.fragments_eq {expander : Expander} {file : FileOrigin}
    {registry : Registry σ} {call : PlacedCall} {body : Invocation → BodyM σ Unit}
    (h : call.IsServedBy expander file registry) (hisOf : call.IsOf expander file)
    (hbody : registry.HasBody expander.rules call.bound.symbol body) {fragments : List Fragment}
    (hwrites : body call.invocation = do
      let quote ← BodyM.require call.invocation.quote
      fragments.forM (BodyM.emit quote)) : call.fragments = fragments := by
  cases hquote : call.invocation.quote with
  | error text =>
    -- without a quote the body gives up
    rw [hquote] at hwrites
    exact absurd hwrites (h.ne_fail hbody text)
  | ok quote =>
    obtain ⟨name, session, requested, hidle, houtcome, houtput⟩ := h.exists_run rfl hbody
    -- all quotes of the call write to its buffer, which is empty at first
    have hmem : .quote quote ∈ call.bound.args := by
      unfold Invocation.quote at hquote
      cases hhead : call.invocation.quotes.head? with
      | none =>
        rw [hhead] at hquote
        cases hquote
      | some found =>
        rw [hhead] at hquote
        cases hquote
        obtain ⟨arg, harg, hfound⟩ := List.mem_filterMap.mp (List.mem_of_head? hhead)
        cases arg <;> cases hfound
        exact harg
    have hbuffer := (BindingRules.quote_of_bind hisOf.binds hmem).2
    have hbound := BindingRules.eq_boundWith_of_bind hisOf.binds
    have hempty : call.bound.buffer.index < call.bound.buffers.contents.length := by
      rw [hbound]
      exact Nat.zero_lt_one
    have hnone : call.bound.buffers.fragments call.bound.buffer = [] := by
      rw [hbound]
      rfl
    have hemits : body call.invocation = fragments.forM (BodyM.emit quote) := by
      rw [hwrites, hquote]
      rfl
    simp only [invoke, CallBinding.enter_of_inactive hidle, hemits, BodyM.run_emitAll, hbuffer]
      at houtcome houtput
    cases houtcome
    rw [Buffers.fragments_pushAll _ _ _ hempty, hnone] at houtput
    exact (Except.ok.inj houtput).symm

/-- A call that is expanded is a placed one, served by the registry that its macro is looked up in. -/
theorem Expander.CallOutcome.exists_placed {expander : Expander} {file : FileOrigin}
    {bound : BoundCall} {progress ended : Progress σ} {placement : Placement}
    (h : expander.CallOutcome file.source bound progress (.ok placement) ended)
    (hleads : expander.rules.candidate? bound.site.call = some bound.symbol)
    (hbinds : expander.rules.bind bound.symbol bound.site file.source = .ok (some bound)) :
    ∃ call : PlacedCall, call.bound = bound ∧ call.placement = placement ∧
      call.IsOf expander file ∧ call.IsServedBy expander file progress.registry ∧
      ended.trace.toList = progress.trace.toList ++
        if expander.config.recordTrace then [call.step] else [] := by
  cases h with
  | @placed implementation registry invoked requested fragments _ hruns houtcome houtput hplace =>
    obtain ⟨typeArgs, htypes, rfl⟩ := hruns.invoked
    refine ⟨⟨bound, implementation.name, typeArgs, fragments, placement⟩, rfl, rfl,
      ⟨hleads, hbinds, htypes, hplace⟩, ⟨implementation, ?_, progress.session, requested, houtcome,
        houtput⟩, ?_⟩
    · exact congrArg Prod.fst (Registry.discover_of_resolve hruns.resolved)
    · dsimp only
      split
      · exact Array.toList_push
      · exact (List.append_nil _).symm

/-- Statements go in place of a call that is a whole statement and of the ones that it captured, whatever
their number. -/
theorem BoundCall.place_statements {bound : BoundCall} (hcaptured : bound.captured ≠ 0)
    (hresult : bound.symbol.hasResult = false)
    (hcall : bound.site.statement.isCall bound.site.call = true) (run : List Stmt) :
    bound.place (run.map .stmt) = .ok (.splice run) := by
  -- no statement and one statement are placements of their own
  match run with
  | [] =>
    have hplaced : Placement.ofFragments bound.symbol bound.site [] = .ok .empty := by
      rw [Placement.ofFragments, hresult, if_neg Bool.false_ne_true, if_pos hcall]
    rw [List.map_nil, place_eq_ok hplaced, if_neg hcaptured]
    rfl
  | [stmt] =>
    have hplaced : Placement.ofFragments bound.symbol bound.site [.stmt stmt] =
        .ok (.statement stmt) := rfl
    rw [List.map_singleton, place_eq_ok hplaced, if_neg hcaptured]
    rfl
  | first :: second :: rest =>
    have hstatements : ((first :: second :: rest).map Fragment.stmt).mapM Fragment.toStmt? =
        some (first :: second :: rest) := by
      rw [List.mapM_map]
      exact List.mapM_pure.trans (congrArg some (List.map_id _))
    have hplaced : Placement.ofFragments bound.symbol bound.site
        ((first :: second :: rest).map .stmt) = .ok (.splice (first :: second :: rest)) := by
      simp only [List.map_cons] at hstatements ⊢
      simp only [Placement.ofFragments, hstatements]
    rw [place_eq_ok hplaced, if_neg hcaptured]
    rfl

namespace StandardMacros

/-- A call of `Stringify` gives way to a text. -/
theorem placement_stringify {expander : Expander} {file : FileOrigin} {registry : Registry σ}
    {call : PlacedCall} (hisOf : call.IsOf expander file)
    (hnone : expander.rules.CapturesNothing call.bound.symbol)
    (hserved : call.IsServedBy expander file registry)
    (hbody : registry.HasBody expander.rules call.bound.symbol expandStringify) :
    ∃ text, call.placement = .inPlace (.ofString text) := by
  cases hwritten : call.invocation.written? 0 with
  | none =>
    have hfails : expandStringify (σ := σ) call.invocation =
        BodyM.fail "Stringify needs an argument" := by
      rw [expandStringify, hwritten]
    exact absurd hfails (hserved.ne_fail hbody _)
  | some expr =>
    have hfragments : call.fragments = [.expr (.ofString expr.text)] := by
      refine hserved.fragments_eq hisOf hbody ?_
      rw [expandStringify, hwritten]
      rfl
    exact ⟨expr.text, hisOf.placement_eq hfragments (hnone.captured_eq hisOf.binds)⟩

/-! ## Calls of `Repeat` -/

/-- A call of `Repeat` by a constant count alone. -/
structure RepeatsBy (rules : BindingRules) (id : SymbolId) (n : Int64) (call : Call) : Prop where
  /-- It leads to `Repeat`. -/
  leads : rules.candidate? call = some (repeatFollowing id)
  typeArgs : call.typeArgs = []
  /-- The count is known. -/
  count : ∃ count, call.args = [count] ∧ rules.model.constantValue count = some (.int n)

/-- What a call of `Repeat` is bound with: its count, the next statement and a quote. -/
def boundRepeat (id : SymbolId) (n : Int64) (s : Stmt) (site : Site) : BoundCall :=
  BindingRules.boundWith (repeatFollowing id) site
    [.constant (.int n), .statement s,
      .quote ((Quote.of site (Buffers.create {}).1).withSequence 2)] 1

/-- `Repeat` captures the statement behind it. -/
theorem bind_repeat {rules : BindingRules} {id : SymbolId} {n : Int64} {s : Stmt} {site : Site}
    (hmarkers : rules.markers = .stored) (hcall : RepeatsBy rules id n site.call)
    (hfollowing : site.following? 0 = some s) (source : Option SourceText) :
    rules.bind (repeatFollowing id) site source = .ok (some (boundRepeat id n s site)) := by
  obtain ⟨count, hargs, hcount⟩ := hcall.count
  have hquotes (index : Nat) : rules.isQuoteParameter (repeatFollowing id) index = (index == 2) := by
    rw [BindingRules.isQuoteParameter, hmarkers]
    rcases index with _ | _ | _ | index <;> rfl
  -- no quote is among the arguments
  have hforwards : rules.forwardsAmbientQuote (repeatFollowing id) site = false := by
    refine Bool.eq_false_iff.mpr fun hforwards => ?_
    obtain ⟨decl, -, index, name, hquote, hname, -⟩ :=
      BindingRules.forwardsAmbientQuote_iff.mp hforwards
    obtain rfl : index = 2 := beq_iff_eq.mp ((hquotes index).symm.trans hquote)
    rw [hargs] at hname
    cases hname
  let root := Quote.of site (Buffers.create {}).1
  have hfirst : rules.bindParam (repeatFollowing id) root source { name := "count", type := .int } 0 0 =
      .ok (.constant (.int n), 0) := by
    simp [BindingRules.bindParam, BindingRules.role, hquotes, BindingRules.supplied, hargs, hcount, root,
      Quote.of, Except.map]
  have hsecond : rules.bindParam (repeatFollowing id) root source
      { name := "body", type := .statement, default := some .null } 1 0 = .ok (.statement s, 1) := by
    simp [BindingRules.bindParam, BindingRules.role, hquotes, BindingRules.capture, hfollowing, root,
      Quote.of, TypeRef.isCapture, Except.map]
  have hthird : rules.bindParam (repeatFollowing id) root source (.quote "quote") 2 1 =
      .ok (.quote (root.withSequence 2), 1) := by
    simp [BindingRules.bindParam, BindingRules.role, hquotes]
  have hparams : rules.bindParams (repeatFollowing id) root source (repeatFollowing id).params 0 0 =
      .ok ([.constant (.int n), .statement s, .quote (root.withSequence 2)], 1) :=
    BindingRules.bindParams_cons_ok.mpr ⟨_, _, _, hfirst,
      BindingRules.bindParams_cons_ok.mpr ⟨_, _, _, hsecond,
        BindingRules.bindParams_cons_ok.mpr ⟨_, _, _, hthird, rfl, rfl⟩, rfl⟩, rfl⟩
  rw [BindingRules.bind_eq, hforwards, hparams]
  rfl

section

variable {invocation : Invocation} {n : Int64} {s : Stmt} {quote : Argument}

/-- `Repeat` gives up on a negative count. -/
theorem expandRepeat_of_negative (hcount : invocation.int 0 = .ok n) (hn : n < 0) :
    expandRepeat (σ := σ) invocation =
      BodyM.fail ("Repeat count must not be negative, got " ++ toString n.toInt) := by
  unfold expandRepeat
  rw [hcount]
  simp only [BodyM.require, pure_bind, if_pos hn]
  rfl

/-- Else `Repeat` writes its statement so many times. -/
theorem expandRepeat_of_nonneg (hcount : invocation.int 0 = .ok n) (hn : 0 ≤ n)
    (hstmt : invocation.statement 1 = .ok s) :
    expandRepeat (σ := σ) invocation = (do
      let quote ← BodyM.require invocation.quote
      ((List.replicate n.toInt.toNat s).map Fragment.stmt).forM (BodyM.emit quote)) := by
  have hforM (quote : Quote) (run : List Stmt) :
      (run.forM fun stmt => BodyM.emit (σ := σ) quote (.stmt stmt)) =
        (run.map Fragment.stmt).forM (BodyM.emit quote) := by
    induction run with
    | nil => rfl
    | cons stmt rest ih => exact congrArg (BodyM.emit quote (.stmt stmt) >>= fun _ => ·) ih
  unfold expandRepeat
  rw [hcount, hstmt]
  simp only [BodyM.require, pure_bind, hforM, if_neg (Int64.not_lt.mpr hn)]

end

variable {expander : Expander} {file : FileOrigin} {id : SymbolId} {n : Int64} {s : Stmt} {site : Site}
  {progress ended : Progress σ} {placement : Placement}

/-- `Repeat` writes copies of the statement behind it, which stand for both. -/
theorem placed_repeat {registry : Registry σ} {call : PlacedCall} (hn : 0 ≤ n)
    (hbound : call.bound = boundRepeat id n s site) (hsite : site.statement.isCall site.call = true)
    (hisOf : call.IsOf expander file) (hserved : call.IsServedBy expander file registry)
    (hbody : registry.HasBody expander.rules (repeatFollowing id) expandRepeat) :
    call.fragments = (List.replicate n.toInt.toNat s).map .stmt ∧
      call.placement = .splice (List.replicate n.toInt.toNat s) := by
  have hsymbol : call.bound.symbol = repeatFollowing id := by
    rw [hbound]
    rfl
  have hfragments : call.fragments = (List.replicate n.toInt.toNat s).map .stmt := by
    refine hserved.fragments_eq hisOf (hsymbol ▸ hbody) ?_
    refine expandRepeat_of_nonneg ?_ hn ?_
    · simp [Invocation.int, Invocation.constant, PlacedCall.invocation, hbound, boundRepeat,
        BindingRules.boundWith]
    · simp [Invocation.statement, PlacedCall.invocation, hbound, boundRepeat, BindingRules.boundWith]
  refine ⟨hfragments, ?_⟩
  have hplaced := hisOf.placed
  rw [hfragments, hbound, BoundCall.place_statements (Nat.one_ne_zero) rfl hsite] at hplaced
  exact (Except.ok.inj hplaced).symm

/-- The fault of a negative count. -/
def negativeCount (id : SymbolId) (n : Int64) : Fault :=
  .bodyFailed (repeatFollowing id).qualifiedName
    ("Repeat count must not be negative, got " ++ toString n.toInt)

/-- `Repeat` refuses a negative count. -/
theorem outcome_repeat_negative {outcome : Except Stop Placement} (hn : n < 0)
    (htypes : site.call.typeArgs = []) (hidle : progress.session.binding.active = none)
    (hleads : (progress.registry.discover (repeatFollowing id)).1 =
      some { name := (repeatFollowing id).qualifiedName, body := expandRepeat })
    (h : expander.CallOutcome file.source (boundRepeat id n s site) progress outcome ended) :
    outcome = .error (.error (.atSpan (negativeCount id n) site.call.span file.source)) := by
  -- the body of the macro is found, and it fails
  have hstops {implementation : Implementation σ} {registry : Registry σ} {invoked : Invoked σ}
      (hruns : expander.Runs file.source (boundRepeat id n s site) progress implementation registry
        invoked) :
      invoked.outcome = .error (.error (.atSpan (negativeCount id n) site.call.span file.source)) := by
    obtain ⟨typeArgs, -, rfl⟩ := hruns.invoked
    have hfound := congrArg Prod.fst (Registry.discover_of_resolve hruns.resolved)
    obtain rfl := Option.some.inj (hleads.symm.trans hfound)
    simp only [invoke, CallBinding.enter_of_inactive hidle]
    rw [expandRepeat_of_negative rfl hn]
    rfl
  cases h with
  | unresolved hresolved =>
    rw [Registry.resolve_eq, show (progress.registry.discover (boundRepeat id n s site).symbol).1 = _
      from hleads] at hresolved
    cases hresolved
  | untyped _ huntyped =>
    rw [resolveTypeArgs, show (boundRepeat id n s site).site.call.typeArgs = [] from htypes] at huntyped
    cases huntyped
  | stopped hruns hstopped => exact congrArg _ (Except.error.inj (hstopped.symm.trans (hstops hruns)))
  | unplaced hruns houtcome _ =>
    rw [hstops hruns] at houtcome
    cases houtcome
  | placed hruns houtcome _ _ =>
    rw [hstops hruns] at houtcome
    cases houtcome

/-- `Repeat` writes nothing but statements. -/
theorem fragments_repeat {expander : Expander} {file : FileOrigin} {registry : Registry σ}
    {call : PlacedCall} (hisOf : call.IsOf expander file)
    (hserved : call.IsServedBy expander file registry)
    (hbody : registry.HasBody expander.rules call.bound.symbol expandRepeat) :
    ∃ run : List Stmt, call.fragments = run.map .stmt := by
  have hfails (text : String) : expandRepeat (σ := σ) call.invocation ≠ BodyM.fail text :=
    hserved.ne_fail hbody text
  cases hcount : call.invocation.int 0 with
  | error text =>
    refine absurd ?_ (hfails text)
    rw [expandRepeat, hcount]
    rfl
  | ok n =>
    by_cases hn : n < 0
    · exact absurd (expandRepeat_of_negative hcount hn) (hfails _)
    · cases hstmt : call.invocation.statement 1 with
      | error text =>
        refine absurd ?_ (hfails text)
        rw [expandRepeat, hcount, hstmt]
        simp only [BodyM.require, pure_bind, if_neg hn]
        rfl
      | ok s =>
        exact ⟨_, hserved.fragments_eq hisOf hbody
          (expandRepeat_of_nonneg hcount (Int64.not_lt.mp hn) hstmt)⟩

end StandardMacros

/-! ## Steps of an expansion -/

/-- A call of a local macro leaves a steady progress. -/
theorem Progress.IsSteady.of_callOutcome {expander : Expander} {source : Option SourceText}
    {start : Workspace σ} {progress ended : Progress σ} {bound : BoundCall} {placement : Placement}
    (h : progress.IsSteady expander.rules start)
    (hlocal : expander.rules.HasLocalMacros start.registry)
    (hleads : expander.rules.candidate? bound.site.call = some bound.symbol)
    (houtcome : expander.CallOutcome source bound progress (.ok placement) ended) :
    ended.IsSteady expander.rules start := by
  cases houtcome with
  | @placed implementation registry invoked requested fragments _ hruns _ _ _ =>
    obtain ⟨typeArgs, -, rfl⟩ := hruns.invoked
    have hfound := congrArg Prod.fst (Registry.discover_of_resolve hruns.resolved)
    rw [h.leads hleads] at hfound
    have hresolved := h.resolve hlocal hleads bound.site source
    rw [hruns.resolved] at hresolved
    have hinvoked := hresolved.invoke (hlocal.isLocal hleads hfound)
      { site := bound.site, args := bound.args, typeArgs } expander.config source bound.buffers
    exact ⟨hinvoked.binding, hinvoked.cancelled, hinvoked.leads⟩

namespace Expander.HasStandardMacros

variable {expander : Expander} {start : Workspace σ} {firstId : Nat} {progress ended : Progress σ}
  {file : FileOrigin}

section

variable {call : PlacedCall} (h : expander.HasStandardMacros start.registry firstId)
  (hsteady : progress.IsSteady expander.rules start) (hisOf : call.IsOf expander file)
  (hserved : call.IsServedBy expander file progress.registry)

include h hsteady hisOf hserved

/-- Every other macro than `Repeat` gives way to a text. -/
theorem exists_text (hrepeat : call.bound.symbol ≠ StandardMacros.repeatFollowing ⟨firstId + 2⟩) :
    ∃ text, call.placement = .inPlace (.ofString text) := by
  have hbody {symbol : MethodSymbol} {body : Invocation → BodyM σ Unit}
      (hmem : (symbol, body) ∈ StandardMacros.all firstId) (hsymbol : call.bound.symbol = symbol) :
      progress.registry.HasBody expander.rules symbol body :=
    h.hasBody hsteady hmem (hsymbol ▸ hisOf.leads)
  rcases h.symbol_cases hisOf.leads with hsymbol | hsymbol | hsymbol | hsymbol
  · exact ⟨_, StandardMacros.placement_functionName hisOf hsymbol hserved
      (hbody (by simp [StandardMacros.all]) hsymbol)⟩
  · exact ⟨_, StandardMacros.placement_here hisOf hsymbol hserved
      (hbody (by simp [StandardMacros.all]) hsymbol)⟩
  · exact absurd hsymbol hrepeat
  · refine StandardMacros.placement_stringify hisOf (h.capturesNothing hisOf.leads hrepeat) hserved ?_
    rw [hsymbol]
    exact hbody (by simp [StandardMacros.all]) hsymbol

/-- No macro puts a function in place of another one. -/
theorem placement_ne_function (decl : FunctionDecl) : call.placement ≠ .function decl := by
  intro hfunction
  by_cases hrepeat : call.bound.symbol = StandardMacros.repeatFollowing ⟨firstId + 2⟩
  · have hbody : progress.registry.HasBody expander.rules call.bound.symbol
        StandardMacros.expandRepeat := by
      refine h.hasBody hsteady ?_ hisOf.leads
      rw [hrepeat]
      simp [StandardMacros.all]
    obtain ⟨run, hrun⟩ := StandardMacros.fragments_repeat hisOf hserved hbody
    have hplaced := hisOf.placed
    rw [hfunction] at hplaced
    have honly := (BoundCall.of_place_function hplaced).1
    -- statements are no functions
    rw [hrun] at honly
    obtain ⟨stmt, -, hstmt⟩ := List.map_eq_singleton_iff.mp honly
    cases hstmt
  · obtain ⟨text, htext⟩ := h.exists_text hsteady hisOf hserved hrepeat
    rw [hfunction] at htext
    cases htext

end

end Expander.HasStandardMacros

/-- With the standard macros, walks keep a steady progress and put no function in place of another
one. -/
def WalkSpec.steady (rules : BindingRules) (start : Workspace σ) : WalkSpec σ where
  inv progress := progress.IsSteady rules start
  stops _ := True
  pending _ _ _ _ := True
  replaces _ _ := False

/-- The standard macros are as specified. -/
theorem FileWalk.obeys_steady {expander : Expander} {start : Workspace σ} {firstId : Nat}
    (h : expander.HasStandardMacros start.registry firstId) (file : FileOrigin) :
    Obeys { expander, file } (.steady expander.rules start) where
  exhausted := True.intro
  poll _ := .checkCancelled True.intro
  next := by
    intro cursor allowed _
    refine keeps_next_bound (fun _ _ => True.intro) ?_
    intro call hcall symbol bound hsymbol hbind
    obtain ⟨hbound, hsite, -⟩ := BindingRules.bind_some hbind
    have hleads : expander.rules.candidate? bound.site.call = some bound.symbol := by
      rw [hsite, hbound]
      exact hsymbol
    have hbinds : expander.rules.bind bound.symbol bound.site file.source = .ok (some bound) := by
      rw [hsite, hbound, hbind]
    refine ⟨fun _ => True.intro, fun _ => ?_⟩
    refine Expander.keeps_expandCall (fun _ _ _ _ => True.intro) ?_ _
    intro progress ended placement hsteady houtcome
    refine ⟨?_, hsteady.of_callOutcome h.hasLocalMacros hleads houtcome⟩
    obtain ⟨placed, -, rfl, hisOf, hserved, -⟩ := houtcome.exists_placed hleads hbinds
    -- no standard macro replaces the function, and nothing is asked of other placements
    cases hplacement : placed.placement with
    | function decl => exact h.placement_ne_function hsteady hisOf hserved decl hplacement
    | inPlace expr =>
      dsimp only [Places]
      cases cursor.stmt.replaceCall? bound.site.call expr <;> exact True.intro
    | empty | statement => exact True.intro
    | splice => exact fun _ _ => True.intro
  nested _ _ _ _ := fun _ _ => True.intro
  outward := id
  replaced := False.elim
  replacedOften := False.elim
  escaped _ := False.elim

end MacroExpansion
