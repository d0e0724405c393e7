import MacroExpansion.Proofs.LongerSequence
import MacroExpansion.Proofs.PlainCode

/-! # Ordinary statements at two places

The calls of an ordinary statement lead to ordinary macros only: they capture nothing, write plain code,
and come to the same wherever they are called. In functions without parameters no call forwards a quote.
So an ordinary statement is settled alike in two functions, whatever is around it, and settling it takes
nothing of what follows (`FileWalk.settlesAlike_splitWalk`).

Which macros are ordinary is left open, and so is what the two expansions have in common besides: a frame
relates the progresses that they start from, and has to be kept by the steps that depend on the progress
(`Expander.ExpandsAlike`). -/

namespace MacroExpansion

/-! ## Calls -/

/-- The macro that the call leads to is an ordinary one, and captures nothing. -/
def BindingRules.LeadsToOrdinary (rules : BindingRules) (ordinary : MethodSymbol → Prop)
    (call : Call) : Prop :=
  ∀ symbol, rules.candidate? call = some symbol → ordinary symbol ∧ rules.CapturesNothing symbol

/-- A statement that calls no macros but ordinary ones, itself and in everything nested in it. -/
def Stmt.IsOrdinary (rules : BindingRules) (ordinary : MethodSymbol → Prop) (stmt : Stmt) : Prop :=
  stmt.AllCalls (rules.LeadsToOrdinary ordinary)

/-- The same call of the same statement at two places where no call forwards a quote. -/
structure Site.CallsAlike (site other : Site) : Prop where
  call : other.call = site.call
  statement : other.statement = site.statement
  noQuotes {decl : FunctionDecl} (h : site.function = some decl) : decl.params = []
  noQuotes' {decl : FunctionDecl} (h : other.function = some decl) : decl.params = []

/-- The same call of an ordinary macro, bound at two places. -/
structure BoundCall.Alike (rules : BindingRules) (ordinary : MethodSymbol → Prop)
    (bound other : BoundCall) : Prop where
  site : bound.site.CallsAlike other.site
  seen : other = bound.seenAt other.site
  own : bound.seenAt bound.site = bound
  leads : rules.candidate? bound.site.call = some bound.symbol
  ordinary : ordinary bound.symbol
  captured : bound.captured = 0
  buffers : bound.buffers = (Buffers.create {}).2

section

variable {rules : BindingRules} {ordinary : MethodSymbol → Prop}

/-- Calls of one path lead to one macro. -/
theorem BindingRules.holdsByPath_leadsToOrdinary (hmodel : rules.model.ByName) :
    HoldsByPath (rules.LeadsToOrdinary ordinary) := by
  intro call call' hpath h symbol hsymbol
  rw [← candidate?_eq hmodel hpath] at hsymbol
  exact h symbol hsymbol

/-- Plain statements call no macros at all. -/
theorem Stmt.IsPlain.isOrdinary {stmt : Stmt} (h : stmt.IsPlain rules) :
    stmt.IsOrdinary rules ordinary := by
  intro nested hnested call hcall symbol hsymbol
  rw [h nested hnested call hcall] at hsymbol
  cases hsymbol

/-- A call of an ordinary macro is bound alike. -/
theorem BindingRules.bind_alike {symbol : MethodSymbol} {site other : Site}
    (h : site.CallsAlike other) (hnone : rules.CapturesNothing symbol) (source : Option SourceText) :
    Mirrors True (fun next next' => ∃ bound, next = some bound ∧ bound.site = site ∧
        next' = some (bound.seenAt other))
      (rules.bind symbol site source) (rules.bind symbol other source) := by
  have hforwards : rules.forwardsAmbientQuote symbol site = false :=
    forwards_eq_false fun _ => h.noQuotes
  have hforwards' : rules.forwardsAmbientQuote symbol other = false :=
    forwards_eq_false fun _ => h.noQuotes'
  refine bind_mirrors h.call hforwards hforwards' fun index param hparam hrole => ?_
  rw [Nat.zero_add] at hrole
  exact absurd hrole (hnone index param hparam)

/-- The first call to expand is the same, when all of them lead to ordinary macros. -/
theorem Expander.firstBound?_alike {expander : Expander} {source : Option SourceText}
    {site site' : Call → Site} (h : ∀ call, (site call).CallsAlike (site' call))
    (hcall : ∀ call, (site call).call = call) {calls : List Call}
    (hordinary : ∀ call ∈ calls, expander.rules.LeadsToOrdinary ordinary call) :
    Mirrors True (Option.Rel (BoundCall.Alike expander.rules ordinary))
      (expander.firstBound? source site calls) (expander.firstBound? source site' calls) := by
  induction calls with
  | nil => exact .ok .none
  | cons call rest ih =>
    obtain ⟨hfirst, hrest⟩ := List.forall_mem_cons.mp hordinary
    unfold firstBound?
    cases hsymbol : expander.rules.candidate? call with
    | none => exact ih hrest
    | some symbol =>
      -- an ordinary macro captures nothing, so what follows the call does not matter
      obtain ⟨hsymbol', hnone⟩ := hfirst symbol hsymbol
      have halike := BindingRules.bind_alike (h call) hnone source
      dsimp only
      generalize hbind : expander.rules.bind symbol (site call) source = binding at halike ⊢
      generalize expander.rules.bind symbol (site' call) source = binding' at halike ⊢
      cases halike with
      | error error => exact .error error
      | ignored hignored error second => exact .ignored hignored error _
      | ok hbound =>
        obtain ⟨bound, rfl, hsite, rfl⟩ := hbound
        obtain ⟨-, hbound, -, hbuffers, -⟩ := BindingRules.bind_some_cases hbind
        refine .ok (.some ⟨?_, rfl, BindingRules.seenAt_of_bind hbind, ?_, ?_, ?_, hbuffers⟩)
        · exact hsite ▸ h call
        · rw [hsite, hcall, hbound, hsymbol]
        · exact hbound ▸ hsymbol'
        · exact hnone.captured_eq hbind

end

/-! ## Settings and walks -/

/-- No function with parameters is around the statements. -/
def Scope.HasNoQuotes (scope : Scope) : Prop :=
  ∀ context, scope.function = some context → context.decl.params = []

/-- Two settings in which no call forwards a quote, behind as many inserted runs. -/
structure Setting.Alike (setting other : Setting) : Prop where
  depth : other.depth = setting.depth
  noQuotes : setting.scope.HasNoQuotes
  noQuotes' : other.scope.HasNoQuotes

/-- A sequence with a run to be settled next. -/
def Split.holding (around : Split) (run : List Stmt) : Split :=
  ⟨around.done, run ++ around.todo⟩

/-- A sequence with further statements settled. -/
def Split.passing (around : Split) (settled : List Stmt) : Split :=
  ⟨around.done ++ settled, around.todo⟩

/-- The same statements, each of some kind, are settled in two sequences. -/
def Split.SettledAlike (kind : Stmt → Prop) (around around' last last' : Split) : Prop :=
  ∃ settled, (∀ stmt ∈ settled, kind stmt) ∧ last = around.passing settled ∧
    last' = around'.passing settled

section

variable {σ : Type} (frame : Progress σ → Progress σ → Prop)

/-- The steps of an expansion that depend on the progress keep a frame, and come to the same plain code
for calls of ordinary macros. -/
structure Expander.ExpandsAlike (expander : Expander) (file : FileOrigin)
    (ordinary : MethodSymbol → Prop) : Prop where
  /-- The host is asked whether to go on. -/
  poll : ExpandM.Simulates frame True Eq ExpandM.checkCancelled ExpandM.checkCancelled
  /-- A call is expanded. -/
  expandCall {bound other : BoundCall} (h : bound.Alike expander.rules ordinary other) :
    ExpandM.Simulates frame True
      (fun placement placement' => placement' = placement ∧ placement.IsPlain expander.rules)
      (expander.expandCall file.source bound) (expander.expandCall file.source other)

/-- Whole sequences of some kind are settled alike in two scopes. -/
def SequenceWalk.SettlesAlike (kind : Stmt → Prop) (walk : SequenceWalk σ) : Prop :=
  ∀ scope other depth span statements, scope.HasNoQuotes → other.HasNoQuotes →
    (∀ stmt ∈ statements, kind stmt) →
    ExpandM.Simulates frame True
      (Flow.BothProceed fun walked walked' =>
        walked'.statements = walked.statements ∧ ∀ stmt ∈ walked.statements, kind stmt)
      (walk scope depth span statements 0 statements.length)
      (walk other depth span statements 0 statements.length)

/-- A run of some kind is settled alike in two sequences, and nothing else of them is. -/
def SplitWalk.SettlesAlike (kind : Stmt → Prop) (walk : SplitWalk σ) : Prop :=
  ∀ setting other around around' run, Setting.Alike setting other → (∀ stmt ∈ run, kind stmt) →
    ExpandM.Simulates frame True (Flow.BothProceed (Split.SettledAlike kind around around'))
      (walk setting around.todo.length (around.holding run))
      (walk other around'.todo.length (around'.holding run))

variable {frame}

/-- A sequence is settled as a run with nothing around it. -/
theorem SplitWalk.SettlesAlike.onSequence {kind : Stmt → Prop} {walk : SplitWalk σ}
    (h : walk.SettlesAlike frame kind) : walk.onSequence.SettlesAlike frame kind := by
  intro scope other depth span statements hscope hother hkind
  have hwhole := h ⟨scope, depth, span⟩ ⟨other, depth, span⟩ ⟨[], []⟩ ⟨[], []⟩ statements
    ⟨rfl, hscope, hother⟩ hkind
  simp only [Split.holding, List.append_nil, List.length_nil] at hwhole
  unfold SplitWalk.onSequence
  rw [Nat.sub_self, List.take_zero, List.drop_zero]
  refine hwhole.followedBy_proceeding ?_
  rintro _ _ ⟨settled, hsettled, rfl, rfl⟩
  refine .pure ⟨_, _, rfl, rfl, rfl, ?_⟩
  simpa [Split.passing, Split.statements] using hsettled

end

namespace Setting.Alike

variable {setting other : Setting}

/-- Settings are alike at the next depth, too. -/
theorem deeper (h : setting.Alike other) : setting.deeper.Alike other.deeper :=
  ⟨congrArg (· + 1) h.depth, h.noQuotes, h.noQuotes'⟩

/-- A call of the next statement stands at two places where no call forwards a quote. -/
theorem site (h : setting.Alike other) (done done' rest rest' : List Stmt) (stmt : Stmt)
    (path : String) (call : Call) :
    ((setting.cursor ⟨done, stmt :: rest⟩).site path call).CallsAlike
      ((other.cursor ⟨done', stmt :: rest'⟩).site path call) where
  call := rfl
  statement := (other.stmt_cursor done' rest' stmt).trans (setting.stmt_cursor done rest stmt).symm
  noQuotes hdecl := by
    obtain ⟨context, hcontext, rfl⟩ := Option.map_eq_some_iff.mp hdecl
    exact h.noQuotes context hcontext
  noQuotes' hdecl := by
    obtain ⟨context, hcontext, rfl⟩ := Option.map_eq_some_iff.mp hdecl
    exact h.noQuotes' context hcontext

end Setting.Alike

/-- Nested statements are in the same function. -/
theorem Scope.HasNoQuotes.inside {cursor : Cursor} (h : cursor.scope.HasNoQuotes) (slot : Slot) :
    (cursor.inside slot).HasNoQuotes := by
  intro context hcontext
  obtain ⟨outer, houter, rfl⟩ := Option.map_eq_some_iff.mp hcontext
  exact h outer houter

/-! ## Walking -/

namespace FileWalk

variable {σ : Type} {frame : Progress σ → Progress σ → Prop} {expander : Expander}
  {file : FileOrigin} {ordinary : MethodSymbol → Prop} {walkRun : SplitWalk σ}
  {walkNested : SequenceWalk σ} {setting other : Setting}

/-- The slots of an ordinary statement are settled alike, and leave it an ordinary one. -/
theorem walkSlots_settlesAlike (hmodel : expander.rules.model.ByName)
    (hnested : walkNested.SettlesAlike frame (Stmt.IsOrdinary expander.rules ordinary))
    (h : setting.Alike other) (done done' rest rest' : List Stmt) (slots : List Slot) {stmt : Stmt}
    (hstmt : stmt.IsOrdinary expander.rules ordinary) :
    ExpandM.Simulates frame True
      (Flow.BothProceed fun stmt stmt' =>
        stmt' = stmt ∧ stmt.IsOrdinary expander.rules ordinary)
      (walkSlots walkNested (setting.cursor ⟨done, stmt :: rest⟩) slots)
      (walkSlots walkNested (other.cursor ⟨done', stmt :: rest'⟩) slots) := by
  induction slots generalizing stmt with
  | nil =>
    unfold walkSlots
    rw [Setting.stmt_cursor, Setting.stmt_cursor]
    exact .pure ⟨stmt, stmt, rfl, rfl, rfl, hstmt⟩
  | cons slot slots ih =>
    unfold walkSlots
    rw [Setting.stmt_cursor, Setting.stmt_cursor]
    cases hcontent : slot.content? stmt with
    | none => exact ih hstmt
    | some content =>
      have hslot : slot ∈ Slot.all stmt := Slot.mem_all_iff.mpr (by rw [hcontent]; rfl)
      have hdepth : (other.cursor ⟨done', stmt :: rest'⟩).depth =
          (setting.cursor ⟨done, stmt :: rest⟩).depth := h.depth
      dsimp only
      rw [hdepth]
      refine (hnested _ _ _ _ _ (Scope.HasNoQuotes.inside h.noQuotes slot)
        (Scope.HasNoQuotes.inside h.noQuotes' slot)
        fun inner hinner => hstmt.of_content hcontent hinner).followedBy_proceeding ?_
      rintro walked walked' ⟨hwalked, hordinary⟩
      rw [hwalked]
      simp only [Setting.withStmt_cursor]
      -- the filled statement is an ordinary one with the same slots
      exact ih (hstmt.fill (BindingRules.holdsByPath_leadsToOrdinary hmodel) hslot hordinary)

/-- An output without calls to expand takes the place of the statement alone. -/
theorem placeSplit_settlesAlike (hmodel : expander.rules.model.ByName)
    (hrun : walkRun.SettlesAlike frame (Stmt.IsOrdinary expander.rules ordinary))
    (h : setting.Alike other) (done done' rest rest' : List Stmt) {stmt : Stmt}
    (hstmt : stmt.IsOrdinary expander.rules ordinary) {bound bound' : BoundCall}
    (hbound : bound.Alike expander.rules ordinary bound')
    {settle settle' : Split → ExpandM σ (Flow Split)}
    (hsettle : ∀ stmt, stmt.IsOrdinary expander.rules ordinary →
      ExpandM.Simulates frame True
        (Flow.BothProceed (Split.SettledAlike (Stmt.IsOrdinary expander.rules ordinary)
          ⟨done, rest⟩ ⟨done', rest'⟩))
        (settle ⟨done, stmt :: rest⟩) (settle' ⟨done', stmt :: rest'⟩))
    {placement : Placement} (hplain : placement.IsPlain expander.rules) :
    ExpandM.Simulates frame True
      (Flow.BothProceed (Split.SettledAlike (Stmt.IsOrdinary expander.rules ordinary)
        ⟨done, rest⟩ ⟨done', rest'⟩))
      (placeSplit { expander, file } walkRun settle setting ⟨done, stmt :: rest⟩ bound placement)
      (placeSplit { expander, file } walkRun settle' other ⟨done', stmt :: rest'⟩ bound'
        placement) := by
  cases hplain with
  | empty =>
    simp only [placeSplit, Setting.stmt_cursor]
    exact hsettle _ (Stmt.isPlain_empty _).isOrdinary
  | statement hplain => exact hsettle _ hplain.isOrdinary
  | @inPlace expr hplain =>
    simp only [placeSplit, Setting.stmt_cursor, hbound.site.call]
    cases hreplaced : stmt.replaceCall? bound.site.call expr with
    | none => exact .throw _
    | some stmt' =>
      refine hsettle stmt' (hstmt.of_replaceCall? (BindingRules.holdsByPath_leadsToOrdinary hmodel)
        ?_ hreplaced)
      exact hplain.isOrdinary
  | @splice run hplain =>
    -- nothing was captured, so the run stands for the statement alone
    have hcaptured : bound'.captured = 0 := by
      rw [hbound.seen]
      exact hbound.captured
    have hinserted := hrun setting.deeper other.deeper ⟨done, rest⟩ ⟨done', rest'⟩ run h.deeper
      fun stmt hmem => (hplain stmt hmem).isOrdinary
    simp only [placeSplit, Split.insert, hbound.captured, hcaptured, List.drop_succ_cons,
      List.drop_zero]
    exact hinserted

/-- An ordinary statement is settled alike in two sequences, and nothing else of them is. -/
theorem settleSplit_settlesAlike (hmodel : expander.rules.model.ByName)
    (hsteps : expander.ExpandsAlike frame file ordinary)
    (hrun : walkRun.SettlesAlike frame (Stmt.IsOrdinary expander.rules ordinary))
    (h : setting.Alike other) (done done' rest rest' : List Stmt) (allowed : Nat) {stmt : Stmt}
    (hstmt : stmt.IsOrdinary expander.rules ordinary) :
    ExpandM.Simulates frame True
      (Flow.BothProceed (Split.SettledAlike (Stmt.IsOrdinary expander.rules ordinary)
        ⟨done, rest⟩ ⟨done', rest'⟩))
      (settleSplit { expander, file } walkRun walkRun.onSequence setting allowed
        ⟨done, stmt :: rest⟩)
      (settleSplit { expander, file } walkRun walkRun.onSequence other allowed
        ⟨done', stmt :: rest'⟩) := by
  refine settleSplit_simulates (Stmt.IsOrdinary expander.rules ordinary)
    (BoundCall.Alike expander.rules ordinary) (fun _ _ hbound => hbound.site.call) h.depth.le
    (fun _ => True.intro) (fun stmt hstmt => ?_) (fun stmt hstmt => ?_) ?_ allowed hstmt
  · exact .require (Expander.firstBound?_alike (h.site done done' rest rest' stmt file.path)
      (fun _ => rfl) (hstmt stmt (.self stmt)))
  · refine (walkSlots_settlesAlike hmodel hrun.onSequence h done done' rest rest' _
      hstmt).followedBy_proceeding ?_
    rintro stmt _ ⟨rfl, hordinary⟩
    exact .pure ⟨_, _, rfl, rfl, [_], List.forall_mem_singleton.mpr hordinary, rfl, rfl⟩
  · intro stmt bound bound' settle settle' hstmt hbound hsettle
    refine .bind ((hsteps.expandCall hbound).located _ _) ?_
    rintro placement _ ⟨rfl, hplain⟩
    exact placeSplit_settlesAlike hmodel hrun h done done' rest rest' hstmt hbound hsettle hplain

/-- The statements of a run are settled alike, one after the other. -/
theorem walkSplit_settlesAlike (hmodel : expander.rules.model.ByName)
    (hsteps : expander.ExpandsAlike frame file ordinary)
    (hrun : walkRun.SettlesAlike frame (Stmt.IsOrdinary expander.rules ordinary))
    (h : setting.Alike other) (around around' : Split) {run : List Stmt}
    (hordinary : ∀ stmt ∈ run, stmt.IsOrdinary expander.rules ordinary) :
    ExpandM.Simulates frame True
      (Flow.BothProceed (Split.SettledAlike (Stmt.IsOrdinary expander.rules ordinary) around around'))
      (walkSplit { expander, file } walkRun walkRun.onSequence setting around.todo.length run.length
        (around.holding run))
      (walkSplit { expander, file } walkRun walkRun.onSequence other around'.todo.length run.length
        (around'.holding run)) := by
  induction run generalizing around around' with
  | nil => exact .pure ⟨_, _, rfl, rfl, [], nofun, by simp [Split.holding, Split.passing]⟩
  | cons stmt run ih =>
    obtain ⟨hstmt, hrest⟩ := List.forall_mem_cons.mp hordinary
    have hlt (around : Split) : around.todo.length < (around.holding (stmt :: run)).todo.length := by
      simp only [Split.holding, List.cons_append, List.length_cons, List.length_append]
      omega
    rw [List.length_cons, walkSplit_of_lt (hlt around), walkSplit_of_lt (hlt around')]
    refine hsteps.poll.bind fun _ _ _ => ?_
    refine (settleSplit_settlesAlike hmodel hsteps hrun h around.done around'.done
      (run ++ around.todo) (run ++ around'.todo) _ hstmt).followedBy_proceeding ?_
    rintro _ _ ⟨settled, hsettled, rfl, rfl⟩
    refine (ih (around.passing settled) (around'.passing settled) hrest).mono id ?_
    rintro _ _ ⟨_, _, rfl, rfl, others, hothers, rfl, rfl⟩
    refine ⟨_, _, rfl, rfl, settled ++ others, List.forall_mem_append.mpr ⟨hsettled, hothers⟩, ?_⟩
    simp only [Split.passing, List.append_assoc, and_self]

/-- Ordinary statements are settled alike in two sequences. -/
theorem settlesAlike_splitWalk (hmodel : expander.rules.model.ByName)
    (hsteps : expander.ExpandsAlike frame file ordinary) (nesting : Nat) :
    (splitWalk { expander, file } nesting).SettlesAlike frame
      (Stmt.IsOrdinary expander.rules ordinary) := by
  induction nesting with
  | zero => exact fun _ _ _ _ _ _ _ => .throw _
  | succ nesting ih =>
    intro setting other around around' run h hordinary
    have hsteps' (around : Split) :
        (around.holding run).todo.length - around.todo.length = run.length := by
      simp only [Split.holding, List.length_append, Nat.add_sub_cancel]
    unfold splitWalk
    rw [hsteps', hsteps']
    exact walkSplit_settlesAlike hmodel hsteps ih h around around' hordinary

end FileWalk

end MacroExpansion
