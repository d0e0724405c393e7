import MacroExpansion.Proofs.PlainCode
import MacroExpansion.Proofs.WalkSpec

/-! # What counts against the depth limit

The expansions of one statement are counted together, whether they nest or stand side by side. When
no macro writes calls of macros, a statement needs no more expansions than it has macro calls, so an
expansion stays within the limit as long as every statement has no more of them (`Stmt.Fits`). With
more of them side by side the limit is reached although nothing nests. -/

namespace MacroExpansion

/-! ## Within the limit -/

/-- The expansion ended because a statement took too many expansions, or a run was too deep. -/
def Stop.IsDepthLimit (stop : Stop) : Prop :=
  ∃ callee limit span source, stop = .error (.atSpan (.depthLimit callee limit) span source)

/-- The causes of calls are no limits. -/
theorem Stop.IsOfCall.not_isDepthLimit {σ : Type} {config : ExpansionConfig}
    {source : Option SourceText} {registry : Registry σ} {stop : Stop}
    (h : stop.IsOfCall config source registry) : ¬stop.IsDepthLimit := by
  rintro ⟨callee, limit, span, source', rfl⟩
  cases h with
  | error hcall =>
    obtain ⟨fault, span', heq, hfault⟩ := hcall
    cases heq
    exact hfault True.intro

/-- Whatever is walked, every implementation writes plain code, the limit is not reached, and every
statement fits and has no more macro calls than it may take expansions. -/
def limitSpec {σ : Type} (expander : Expander) : WalkSpec σ where
  inv progress := ∀ implementation, progress.registry.Has implementation →
    implementation.WritesPlain expander.rules
  stops stop := ¬stop.IsDepthLimit
  pending _ depth allowed stmt :=
    stmt.Fits expander.rules expander.config.maxDepth depth ∧
      stmt.macroCalls expander.rules ≤ allowed
  replaces _ _ := False

namespace FileWalk

variable {σ : Type} {expander : Expander} {file : FileOrigin} {cursor : Cursor} {bound : BoundCall}
  {symbol : MethodSymbol} {call : Call}

/-- Plain statements are as specified wherever they are walked. -/
theorem pending_of_isPlain {scope : Scope} {depth allowed : Nat} {stmt : Stmt}
    (h : stmt.IsPlain expander.rules) :
    (limitSpec (σ := σ) expander).pending scope depth allowed stmt :=
  ⟨.of_isPlain h _ _, by rw [h.macroCalls_eq]; exact Nat.zero_le _⟩

/-- Plain output for a macro call of a statement that fits is placed as specified. -/
theorem places_limitSpec (hmodel : expander.rules.model.ByName) (hcall : call ∈ cursor.stmt.ownCalls)
    (hsymbol : expander.rules.candidate? call = some symbol)
    (hbind : expander.rules.bind symbol (cursor.site file.path call) file.source = .ok (some bound))
    {fewer : Nat} (hfits : cursor.stmt.Fits expander.rules expander.config.maxDepth cursor.depth)
    (hcount : cursor.stmt.macroCalls expander.rules ≤ fewer + 1) {placement : Placement}
    (hplain : placement.IsPlain expander.rules) :
    Places { expander, file } (limitSpec (σ := σ) expander) cursor call fewer
      (if bound.captured = 0 then placement else placement.overCaptured bound.site) := by
  have hleads : expander.rules.isMacroCall call = true :=
    BindingRules.isMacroCall_of_candidate? hsymbol
  have hsite : bound.site = cursor.site file.path call := (BindingRules.bind_some hbind).2.1
  have hinPlace {expr : Expr} (hexpr : (Stmt.ofExpr expr).IsPlain expander.rules) :
      ∃ stmt', cursor.stmt.replaceCall? call expr = some stmt' ∧
        stmt'.macroCalls expander.rules < cursor.stmt.macroCalls expander.rules ∧
        (stmt'.capturingCalls expander.rules + [call].countP expander.rules.isCapturingCall ≤
          cursor.stmt.capturingCalls expander.rules) ∧
        ∀ depth', depth' + stmt'.capturingCalls expander.rules ≤
          cursor.depth + cursor.stmt.capturingCalls expander.rules →
            stmt'.Fits expander.rules expander.config.maxDepth depth' := by
    have hsome : (cursor.stmt.replaceCall? call expr).isSome := Stmt.isSome_replaceCall? hcall
    obtain ⟨stmt', hreplaced⟩ := Option.isSome_iff_exists.mp hsome
    exact ⟨stmt', hreplaced, hfits.of_replaceCall? hmodel hleads hexpr hreplaced⟩
  by_cases hcaptured : bound.captured = 0
  · rw [if_pos hcaptured]
    cases hplain with
    | empty => exact pending_of_isPlain (Stmt.isPlain_empty _)
    | statement hstmt => exact pending_of_isPlain hstmt
    | splice hrun => exact fun stmt hstmt => pending_of_isPlain (hrun stmt hstmt)
    | inPlace hexpr =>
      obtain ⟨stmt', hreplaced, hfewer, hcaptures, hdeeper⟩ := hinPlace hexpr
      dsimp only [Places]
      rw [hreplaced]
      exact ⟨hdeeper _ (by omega), by omega⟩
  · rw [if_neg hcaptured]
    cases hplain with
    | empty => exact fun stmt hstmt => nomatch hstmt
    | statement hstmt =>
      intro stmt hmem
      exact pending_of_isPlain (List.mem_singleton.mp hmem ▸ hstmt)
    | splice hrun => exact fun stmt hstmt => pending_of_isPlain (hrun stmt hstmt)
    | inPlace hexpr =>
      obtain ⟨stmt', hreplaced, -, hcaptures, hdeeper⟩ := hinPlace hexpr
      have hcapturing : expander.rules.isCapturingCall call = true := by
        rw [BindingRules.isCapturingCall, hsymbol]
        exact BindingRules.captures_of_bind hbind hcaptured
      -- the run is one deeper, for which the capturing call has made room
      rw [List.countP_cons, if_pos hcapturing, List.countP_nil] at hcaptures
      have hrun := hdeeper (cursor.depth + 1) (by omega)
      rw [Placement.overCaptured, hsite]
      intro stmt hmem
      have hstmt : stmt = stmt' := by
        rw [List.mem_singleton.mp hmem]
        exact congrArg (Option.getD · _) hreplaced
      rw [hstmt]
      exact ⟨hrun, hrun.macroCalls_le⟩

/-- A macro call of a statement that fits is expanded as specified. -/
theorem expands_limitSpec (hmodel : expander.rules.model.ByName) {allowed : Nat}
    (hcall : call ∈ cursor.stmt.ownCalls) (hsymbol : expander.rules.candidate? call = some symbol)
    (hbind : expander.rules.bind symbol (cursor.site file.path call) file.source = .ok (some bound))
    (hfits : cursor.stmt.Fits expander.rules expander.config.maxDepth cursor.depth)
    (hcount : cursor.stmt.macroCalls expander.rules ≤ allowed) :
    Expands { expander, file } (limitSpec (σ := σ) expander) cursor bound allowed where
  limit h := by
    -- there is a call to expand, so the limit cannot be passed
    have hpos : 0 < cursor.stmt.macroCalls expander.rules :=
      List.countP_pos_iff.mpr ⟨call, hcall, BindingRules.isMacroCall_of_candidate? hsymbol⟩
    cases hfits with
    | intro hcalls hdepth hbodies =>
      have hroom := hdepth hpos
      dsimp only at h
      omega
  expand {fewer} h := by
    obtain ⟨-, -, hsite, hbuffers, -⟩ := BindingRules.bind_some_cases hbind
    refine Expander.keeps_expandCall (fun progress _ stop hstop => hstop.not_isDepthLimit) ?_ _
    intro progress ended placement hinv houtcome
    refine ⟨?_, fun implementation hhas => hinv implementation (houtcome.has hhas)⟩
    cases houtcome with
    | placed hruns houtcome houtput hplace =>
      have himplementation := hinv _ (Registry.has_of_resolve (congrArg Prod.fst hruns.resolved))
      have hfragments := bound.isPlain_output himplementation hbuffers hruns houtcome houtput
      obtain ⟨raw, hraw, rfl⟩ := BoundCall.place_eq hplace
      rw [show bound.site.call = call from hsite ▸ rfl]
      exact places_limitSpec hmodel hcall hsymbol hbind hfits (h ▸ hcount)
        (Placement.isPlain_ofFragments hfragments hraw)

/-- The steps of a walk over statements that fit do not reach the limit. -/
theorem obeys_limitSpec (expander : Expander) (file : FileOrigin)
    (hmodel : expander.rules.model.ByName) :
    Obeys { expander, file } (limitSpec (σ := σ) expander) where
  exhausted := by
    rintro ⟨callee, limit, span, source, h⟩
    cases h
  poll _ := by
    refine .checkCancelled ?_
    rintro ⟨callee, limit, span, source, h⟩
    cases h
  next := by
    rintro cursor allowed ⟨hfits, hcount⟩
    refine keeps_next_bound ?_ fun call hcall symbol bound hsymbol hbind =>
      expands_limitSpec hmodel hcall hsymbol hbind hfits hcount
    -- an error of binding is not one of the limit
    rintro _ ⟨fault, span, rfl, hfault⟩ ⟨callee, limit, span', source, h⟩
    cases h
    exact hfault True.intro
  nested := by
    rintro cursor inner allowed slot content ⟨hfits, -⟩ hcontent - hdepth stmt hstmt
    cases hfits with
    | intro hcalls hroom hbodies =>
      have hbody := hbodies slot content hcontent stmt hstmt
      rw [hdepth]
      exact ⟨hbody.of_le (Nat.le_add_right _ _), hbody.macroCalls_le⟩
  outward h := h.elim
  replaced h := h.elim
  replacedOften h := h.elim
  escaped _ h _ := h.elim

end FileWalk

/-! ## Beyond the limit -/

/-- Output that is a value for the call, without calls of macros. -/
def Placement.IsValue (rules : BindingRules) (placement : Placement) : Prop :=
  ∃ expr, placement = .inPlace expr ∧ ∀ call ∈ expr.calls, rules.candidate? call = none

/-- From progress with an invariant, every macro call with one of these heads can be bound outside of
functions and becomes a value, and the host does not end the expansion. -/
structure Expander.WritesValues {σ : Type} (expander : Expander) (source : Option SourceText)
    (inv : Progress σ → Prop) (heads : List (String × List TypeRef × Nat)) : Prop where
  goesOn : ∀ progress, inv progress → progress.session.cancelled = false
  binds : ∀ site symbol, site.call.head ∈ heads → site.function = none →
    expander.rules.candidate? site.call = some symbol →
    ∃ bound, expander.rules.bind symbol site source = .ok (some bound)
  expands : ∀ site symbol bound, site.call.head ∈ heads → site.function = none →
    expander.rules.candidate? site.call = some symbol →
    expander.rules.bind symbol site source = .ok (some bound) →
    (expander.expandCall source bound).Keeps inv (fun _ => False) (Placement.IsValue expander.rules)

namespace Stmt

variable {rules : BindingRules} {heads : List (String × List TypeRef × Nat)} {stmt stmt' : Stmt}

/-- The macro calls among the own calls have these heads. -/
def MacroHeads (rules : BindingRules) (heads : List (String × List TypeRef × Nat)) (stmt : Stmt) :
    Prop :=
  ∀ call ∈ stmt.ownCalls, rules.isMacroCall call = true → call.head ∈ heads

/-- Code without macro calls in place of a call brings no new heads. -/
theorem MacroHeads.of_replaceCall? (hmodel : rules.model.ByName) (h : stmt.MacroHeads rules heads)
    {target : Call} {expr : Expr} (hexpr : ∀ call ∈ expr.calls, rules.candidate? call = none)
    (hreplaced : stmt.replaceCall? target expr = some stmt') : stmt'.MacroHeads rules heads := by
  -- no macro call has another head
  let other (call : Call) : Bool := rules.isMacroCall call && decide (call.head ∉ heads)
  have hother : CountsByHead other := by
    intro call call' hhead
    simp only [other, BindingRules.countsByHead_isMacroCall hmodel hhead, hhead]
  have hnone : stmt.ownCalls.countP other = 0 := by
    refine List.countP_eq_zero.mpr fun call hcall hheads => ?_
    obtain ⟨hleads, hnew⟩ := Bool.and_eq_true_iff.mp hheads
    exact of_decide_eq_true hnew (h call hcall hleads)
  have hvalue : expr.calls.countP other = 0 := by
    refine List.countP_eq_zero.mpr fun call hcall hheads => ?_
    have hleads := (Bool.and_eq_true_iff.mp hheads).1
    rw [BindingRules.isMacroCall, hexpr call hcall] at hleads
    cases hleads
  have hcount := countP_ownCalls_replaceCall? hother hreplaced
  have hnone' : stmt'.ownCalls.countP other = 0 := by omega
  intro call hcall hleads
  refine Decidable.byContradiction fun hnew => ?_
  refine List.countP_eq_zero.mp hnone' call hcall ?_
  exact Bool.and_eq_true_iff.mpr ⟨hleads, decide_eq_true hnew⟩

end Stmt

/-- Where every macro call is bound, the first one is expanded next. -/
theorem Expander.firstBound?_eq_find {expander : Expander} {source : Option SourceText}
    {site : Call → Site} {calls : List Call}
    (h : ∀ call ∈ calls, ∀ symbol, expander.rules.candidate? call = some symbol →
      ∃ bound, expander.rules.bind symbol (site call) source = .ok (some bound)) :
    (calls.find? expander.rules.isMacroCall = none ∧
        expander.firstBound? source site calls = .ok none) ∨
      ∃ target symbol bound, calls.find? expander.rules.isMacroCall = some target ∧
        expander.rules.candidate? target = some symbol ∧
        expander.rules.bind symbol (site target) source = .ok (some bound) ∧
        expander.firstBound? source site calls = .ok (some bound) := by
  induction calls with
  | nil => exact .inl ⟨rfl, rfl⟩
  | cons call rest ih =>
    rw [firstBound?, List.find?_cons, BindingRules.isMacroCall]
    cases hcandidate : expander.rules.candidate? call with
    | none => exact ih fun other hother => h other (List.mem_cons_of_mem call hother)
    | some symbol =>
      obtain ⟨bound, hbind⟩ := h call List.mem_cons_self symbol hcandidate
      refine .inr ⟨call, symbol, bound, rfl, hcandidate, hbind, ?_⟩
      simp only [hbind]

namespace FileWalk

variable {σ : Type} {expander : Expander} {file : FileOrigin} {inv : Progress σ → Prop}
  {heads : List (String × List TypeRef × Nat)} {walkInner : SequenceWalk σ}

/-- The walk ended at the depth limit. -/
def EndsAtLimit (expander : Expander) (file : FileOrigin) (stop : Stop) : Prop :=
  ∃ callee span, stop =
    .error (.atSpan (.depthLimit callee expander.config.maxDepth) span file.source)

/-- Outside of functions, a statement with outer macro calls has a first one, which is bound. -/
theorem firstBound?_of_outerCalls (h : expander.WritesValues file.source inv heads) {cursor : Cursor}
    (hscope : cursor.scope.function = none) (hheads : cursor.stmt.MacroHeads expander.rules heads)
    (hmore : 0 < cursor.stmt.outerCalls expander.rules.isMacroCall) :
    ∃ target symbol bound,
      cursor.stmt.ownCalls.find? expander.rules.isMacroCall = some target ∧
      expander.rules.candidate? target = some symbol ∧
      expander.rules.bind symbol (cursor.site file.path target) file.source = .ok (some bound) ∧
      expander.firstBound? file.source (cursor.site file.path) cursor.stmt.ownCalls =
        .ok (some bound) := by
  have hbinds : ∀ call ∈ cursor.stmt.ownCalls, ∀ symbol,
      expander.rules.candidate? call = some symbol → ∃ bound,
        expander.rules.bind symbol (cursor.site file.path call) file.source = .ok (some bound) := by
    intro call hcall symbol hsymbol
    have hhead := hheads call hcall (BindingRules.isMacroCall_of_candidate? hsymbol)
    exact h.binds _ symbol hhead (Cursor.function?_eq_none hscope) hsymbol
  rcases Expander.firstBound?_eq_find hbinds with ⟨hnone, -⟩ | hfound
  · have hzero := Stmt.outerCalls_eq_zero (List.countP_eq_zero.mpr (List.find?_eq_none.mp hnone))
    omega
  · exact hfound

/-- When macros write values, a statement outside of functions with more outer macro calls than it
may take expansions ends the walk at the limit. -/
theorem settle_ends (hmodel : expander.rules.model.ByName)
    (h : expander.WritesValues file.source inv heads) {allowed : Nat} {cursor : Cursor}
    (hscope : cursor.scope.function = none) (hindex : cursor.index < cursor.statements.length)
    (hheads : cursor.stmt.MacroHeads expander.rules heads)
    (hmore : allowed < cursor.stmt.outerCalls expander.rules.isMacroCall) :
    (settle { expander, file } walkInner allowed cursor).Keeps inv (EndsAtLimit expander file)
      fun _ => False := by
  induction allowed generalizing cursor with
  | zero =>
    obtain ⟨target, symbol, bound, -, -, -, hfirst⟩ :=
      firstBound?_of_outerCalls h hscope hheads hmore
    unfold settle
    dsimp only
    rw [hfirst]
    exact .throw ⟨_, _, rfl⟩
  | succ allowed ih =>
    obtain ⟨target, symbol, bound, htarget, hsymbol, hbind, hfirst⟩ :=
      firstBound?_of_outerCalls h hscope hheads (by omega)
    have hcall : bound.site.call = target := by
      rw [(BindingRules.bind_some hbind).2.1]
      rfl
    have hhead : target.head ∈ heads :=
      hheads target (List.mem_of_find?_eq_some htarget) (List.find?_some htarget)
    unfold settle
    dsimp only
    rw [hfirst, ExpandM.require_ok]
    by_cases hdepth : cursor.depth ≤ expander.config.maxDepth
    · have hexpanded : (ExpandM.located bound.site.call.span file.source
          (expander.expandCall file.source bound)).Keeps inv (EndsAtLimit expander file)
            (Placement.IsValue expander.rules) :=
        (h.expands _ symbol bound hhead (Cursor.function?_eq_none hscope) hsymbol hbind).located _ _
      simp only [pure_bind, hdepth, decide_true]
      refine hexpanded.bind ?_
      rintro _ ⟨expr, rfl, hplain⟩
      have hvalue : expr.calls.countP expander.rules.isMacroCall = 0 :=
        BindingRules.countP_isMacroCall_eq_zero hplain
      have hsome : (cursor.stmt.replaceCall? target expr).isSome :=
        Stmt.isSome_replaceCall? (List.mem_of_find?_eq_some htarget)
      obtain ⟨stmt', hreplaced⟩ := Option.isSome_iff_exists.mp hsome
      -- one outer call goes and one expansion is used up, so there are still too many
      have houter := Stmt.outerCalls_replaceCall?
        (BindingRules.countsByHead_isMacroCall hmodel) hvalue htarget hreplaced
      simp only [hcall, hreplaced]
      have hstmt := Cursor.stmt_withStmt cursor stmt' hindex
      refine ih hscope ?_ ?_ ?_
      · rw [Cursor.length_withStmt]
        exact hindex
      · rw [hstmt]
        exact hheads.of_replaceCall? hmodel hplain hreplaced
      · rw [hstmt]
        omega
    · simp only [pure_bind, hdepth, decide_false]
      exact .throw ⟨_, _, rfl⟩

/-- A script that begins with such a statement is not walked any further. -/
theorem walkBlock_ends (expander : Expander) (file : FileOrigin)
    (hmodel : expander.rules.model.ByName) {block : Block} {stmt : Stmt} {later : List Stmt}
    (hblock : block.statements = stmt :: later)
    (h : expander.WritesValues file.source inv (stmt.ownCalls.map Call.head))
    (hmore : expander.config.maxDepth < stmt.outerCalls expander.rules.isMacroCall) (nesting : Nat) :
    (walkBlock (walk { expander, file } (nesting + 1)) .script block).Keeps inv
      (EndsAtLimit expander file) fun _ => False := by
  have hheads : stmt.MacroHeads expander.rules (stmt.ownCalls.map Call.head) :=
    fun _ hcall _ => List.mem_map_of_mem hcall
  have hwalk : (walk { expander, file } (nesting + 1) .script 0 block.span block.statements 0
      block.statements.length).Keeps inv (EndsAtLimit expander file) fun _ => False := by
    rw [hblock, List.length_cons]
    unfold walk
    rw [Nat.sub_zero]
    unfold walkFrom
    rw [if_pos (Nat.succ_pos _)]
    refine (ExpandM.Keeps.checkCancelled_of_goesOn h.goesOn).bind fun _ _ => ?_
    refine .bind (P := fun _ => False) (settle_ends hmodel h rfl (Nat.succ_pos _) ?_ ?_) ?_
    · exact hheads
    · exact hmore
    · exact fun _ hfalse => hfalse.elim
  exact hwalk.bind fun _ hfalse => hfalse.elim

end FileWalk

/-- When macros write values, a script that begins with a statement with more outer macro calls than
the limit ends there, at the limit. -/
theorem Expander.script_ends_at_limit {σ : Type} {expander : Expander} {tree : SyntaxTree}
    {workspace : Workspace σ} {inv : Progress σ → Prop} (hmodel : expander.rules.model.ByName)
    {block : Block} {items : List Item} (hitems : tree.items = .statements block :: items)
    {stmt : Stmt} {later : List Stmt} (hblock : block.statements = stmt :: later)
    (h : expander.WritesValues tree.sourceText inv (stmt.ownCalls.map Call.head))
    (hinv : inv { toWorkspace := workspace })
    (hmore : expander.config.maxDepth < stmt.outerCalls expander.rules.isMacroCall) (nesting : Nat) :
    ∃ callee span, (expander.expandWithin (nesting + 1) tree workspace).1 =
      .error (.error (.atSpan (.depthLimit callee expander.config.maxDepth) span
        tree.sourceText)) := by
  have hprogram : (itemsProgram (·.walk (nesting + 1)) expander tree).Keeps inv
      (FileWalk.EndsAtLimit expander { path := tree.path, text := tree.source }) fun _ => False := by
    unfold itemsProgram
    rw [hitems, List.mapM_cons]
    have hblockEnds := FileWalk.walkBlock_ends expander { path := tree.path, text := tree.source }
      hmodel hblock h hmore nesting
    refine .bind (P := fun _ => False) (.bind (P := fun _ => False) (.bind hblockEnds ?_) ?_) ?_
    all_goals exact fun _ hfalse => hfalse.elim
  have hrun := expandBy_keeps hprogram hinv
  unfold expandWithin
  rcases hended : (expandBy (·.walk (nesting + 1)) expander tree workspace).1 with stop | expansion
  all_goals rw [hended] at hrun
  · obtain ⟨callee, span, rfl⟩ := hrun
    exact ⟨callee, span, rfl⟩
  · exact hrun.1.elim

/-! ## The limit as a count -/

/-- When no macro writes calls of macros or functions, a file stays within the limit if all its
statements fit. -/
theorem Expander.stays_within_limit {σ : Type} {expander : Expander} {tree : SyntaxTree}
    {workspace : Workspace σ} (hmodel : expander.rules.model.ByName)
    (hplain : ∀ implementation, workspace.registry.Has implementation →
      implementation.WritesPlain expander.rules)
    (hfits : ∀ item ∈ tree.items, item.AllStmts fun _ stmt =>
      stmt.Fits expander.rules expander.config.maxDepth 0) {nesting : Nat} {stop : Stop}
    (hstop : (expander.expandWithin nesting tree workspace).1 = .error stop) :
    ¬stop.IsDepthLimit := by
  have hpending : ∀ item ∈ tree.items, item.AllStmts fun scope =>
      (limitSpec (σ := σ) expander).pending scope 0 expander.config.maxDepth := fun item hitem =>
    (hfits item hitem).mono fun _ _ hstmt => ⟨hstmt, hstmt.macroCalls_le⟩
  have hkeeps := itemsProgram_keeps tree (FileWalk.obeys_limitSpec expander
    { path := tree.path, text := tree.source } hmodel) nesting hpending
  have hrun := expandBy_keeps hkeeps hplain
  unfold expandWithin at hstop
  rw [hstop] at hrun
  exact hrun

/-- When no macro writes calls of macros or functions, nothing nests, and still the limit counts. As
long as all statements fit, no expansion ends at the limit. But when the macros write values and a
script begins with a statement that has more macro calls beside each other than the limit, the
expansion ends at the limit. -/
theorem limit_counts_calls_side_by_side {σ : Type} (expander : Expander)
    (hmodel : expander.rules.model.ByName) (tree : SyntaxTree) (workspace : Workspace σ)
    (hplain : ∀ implementation, workspace.registry.Has implementation →
      implementation.WritesPlain expander.rules) :
    ((∀ item ∈ tree.items, item.AllStmts fun _ stmt =>
        stmt.Fits expander.rules expander.config.maxDepth 0) →
      ∀ nesting stop, (expander.expandWithin nesting tree workspace).1 = .error stop →
        ¬stop.IsDepthLimit) ∧
    ∀ block items stmt later, tree.items = .statements block :: items →
      block.statements = stmt :: later →
      expander.config.maxDepth < stmt.outerCalls expander.rules.isMacroCall →
      ∀ inv : Progress σ → Prop, inv { toWorkspace := workspace } →
        expander.WritesValues tree.sourceText inv (stmt.ownCalls.map Call.head) →
        ∀ nesting, ∃ callee span, (expander.expandWithin (nesting + 1) tree workspace).1 =
          .error (.error (.atSpan (.depthLimit callee expander.config.maxDepth) span
            tree.sourceText)) := by
  constructor
  · intro hfits nesting stop hstop
    exact Expander.stays_within_limit hmodel hplain hfits hstop
  · intro block items stmt later hitems hblock hmore inv hinv h nesting
    exact Expander.script_ends_at_limit hmodel hitems hblock h hinv hmore nesting

/-! ### A macro that writes a constant -/

/-- A macro that stands for a number. -/
def oneMacro : MethodSymbol :=
  { id := ⟨0⟩, declaringType := "Host", name := "One", returnType := .int, markers := [.macroFunction] }

/-- Its implementation. -/
def oneImplementation : Implementation Unit :=
  { name := oneMacro.qualifiedName, body := fun _ => .replaceWithExpression (.ofInt 1) }

/-- Expands calls of the macro. -/
def oneExpander (limit : Nat) : Expander where
  model := (SymbolTable.declare {} oneMacro).model
  config := { maxDepth := limit, recordTrace := false }

/-- A workspace with the macro. -/
def oneWorkspace : Workspace Unit where
  session := { host := () }
  registry := ({} : Registry Unit).register (.of oneMacro) oneImplementation

/-- A call that has two calls of the macro for arguments. -/
def twoCalls : Stmt :=
  .evaluate (.callOf "Log" [.callOf "One" [], .callOf "One" []])

/-- A script of this statement. -/
def twoCallsFile : SyntaxTree :=
  { path := "file", source := none, items := [.statements (.of [twoCalls])] }

/-- Between two calls nothing is published, nothing ends the expansion, and the macro is what it was,
known to the registry from its first call on. -/
def OneReady (progress : Progress Unit) : Prop :=
  progress.session = { host := () } ∧
    (progress.registry = oneWorkspace.registry ∨
      progress.registry = (oneWorkspace.registry.discover oneMacro).2)

/-- The number that the macro writes is plain code. -/
theorem one_isPlain (rules : BindingRules) : (Stmt.ofExpr (.ofInt 1)).IsPlain rules := by
  intro stmt hstmt call hcall
  cases hstmt with
  | self => cases hcall
  | lambda hlambda => cases hlambda

/-- The macro writes nothing but its number. -/
theorem one_writesPlain (rules : BindingRules) : oneImplementation.WritesPlain rules := by
  intro invocation config source session requested hinvoked
  unfold invoke at hinvoked ⊢
  cases hactive : session.binding.active with
  | some active =>
    simp only [CallBinding.enter, hactive] at hinvoked
    cases hinvoked
  | none =>
    simp only [CallBinding.enter, hactive] at hinvoked ⊢
    obtain rfl : [Fragment.expr (.ofInt 1)] = requested := Except.ok.inj hinvoked
    refine ⟨fun fragment hfragment => ?_, fun buffer fragment hfragment => ?_⟩
    · rw [List.mem_singleton.mp hfragment]
      exact one_isPlain rules
    · -- nothing is written to any buffer
      obtain ⟨index⟩ := buffer
      cases index with
      | zero => cases hfragment
      | succ index => cases hfragment

/-- The workspace has no implementation but that of the macro. -/
theorem one_workspace {implementation : Implementation Unit}
    (h : oneWorkspace.registry.Has implementation) : implementation = oneImplementation := by
  rcases h with ⟨signature, hfound⟩ | ⟨id, hfound⟩
  · have hlookup : List.lookup signature [(MacroSignature.of oneMacro, oneImplementation)] =
        some implementation := hfound
    rw [List.lookup_cons] at hlookup
    split at hlookup
    · exact (Option.some.inj hlookup).symm
    · cases hlookup
  · cases hfound

/-- The call of the macro, bound at a place. -/
def oneBound (site : Site) : BoundCall where
  symbol := oneMacro
  site
  args := []
  buffers := (Buffers.create {}).2
  buffer := (Buffers.create {}).1
  captured := 0
  placeholders := []

/-- A call of the statement that is a candidate for expansion is one of the macro, without type
arguments. -/
theorem one_candidate {limit : Nat} {call : Call} {symbol : MethodSymbol}
    (hhead : call.head ∈ twoCalls.ownCalls.map Call.head)
    (h : (oneExpander limit).rules.candidate? call = some symbol) :
    symbol = oneMacro ∧ call.typeArgs = [] := by
  have hheads : call.head ∈ [("Log", [], 2), ("One", [], 0), ("One", [], 0)] := hhead
  have hbound : (SymbolTable.declare {} oneMacro).get? call.callee = some symbol :=
    (Option.filter_eq_some_iff.mp h).1
  simp only [Call.head, List.mem_cons, Prod.mk.injEq, List.not_mem_nil, or_false, or_self] at hheads
  rcases hheads with ⟨hcallee, -, -⟩ | ⟨hcallee, htypes, -⟩
  · have hlog : (SymbolTable.declare {} oneMacro).get? "Log" = none := by decide
    rw [hcallee, hlog] at hbound
    cases hbound
  · have hone : (SymbolTable.declare {} oneMacro).get? "One" = some oneMacro := by decide
    rw [hcallee, hone] at hbound
    exact ⟨(Option.some.inj hbound).symm, htypes⟩

/-- Outside of functions every call of the macro is bound in the same way. -/
theorem one_bind {limit : Nat} {site : Site} {source : Option SourceText}
    (hfunction : site.function = none) :
    (oneExpander limit).rules.bind oneMacro site source = .ok (some (oneBound site)) := by
  rw [BindingRules.bind, BindingRules.forwardsAmbientQuote, hfunction]
  rfl

/-- The macro writes a value whenever it is called in the statement. -/
theorem one_writesValues (limit : Nat) :
    (oneExpander limit).WritesValues none OneReady (twoCalls.ownCalls.map Call.head) where
  goesOn progress hready := by rw [hready.1]
  binds site symbol hhead hfunction hsymbol := by
    obtain ⟨rfl, -⟩ := one_candidate hhead hsymbol
    exact ⟨oneBound site, one_bind hfunction⟩
  expands site symbol bound hhead hfunction hsymbol hbind := by
    obtain ⟨rfl, htypes⟩ := one_candidate hhead hsymbol
    rw [one_bind hfunction] at hbind
    obtain rfl := Option.some.inj (Except.ok.inj hbind)
    rintro ⟨⟨session, registry⟩, trace, warnings⟩ ⟨hsession, hregistry⟩
    obtain ⟨file, ⟨callee, typeArgs, args, span⟩, statement, enclosing, function, block, index⟩ :=
      site
    simp only at htypes hsession hregistry
    subst htypes hsession
    rcases hregistry with rfl | rfl
    · exact ⟨⟨.ofInt 1, rfl, fun _ hcall => nomatch hcall⟩, rfl, .inr rfl⟩
    · exact ⟨⟨.ofInt 1, rfl, fun _ hcall => nomatch hcall⟩, rfl, .inr rfl⟩

/-- Within a limit of two the statement is expanded, within a limit of one it is not. -/
theorem limit_counts_calls_side_by_side_two :
    ((oneExpander 2).expandWithin 4 twoCallsFile oneWorkspace).1.isOk ∧
      (∀ stop, ((oneExpander 2).expandWithin 4 twoCallsFile oneWorkspace).1 = .error stop →
        ¬stop.IsDepthLimit) ∧
      ∃ callee span, ((oneExpander 1).expandWithin 4 twoCallsFile oneWorkspace).1 =
        .error (.error (.atSpan (.depthLimit callee 1) span none)) := by
  have hmodel (limit : Nat) : (oneExpander limit).rules.model.ByName := SymbolTable.byName_model _
  have hplain (limit : Nat) : ∀ implementation, oneWorkspace.registry.Has implementation →
      implementation.WritesPlain (oneExpander limit).rules :=
    fun implementation hhas => one_workspace hhas ▸ one_writesPlain _
  have hdone : ((oneExpander 2).expandWithin 4 twoCallsFile oneWorkspace).1.isOk := by cbv
  refine ⟨hdone, ?_, ?_⟩
  · refine (limit_counts_calls_side_by_side (oneExpander 2) (hmodel 2) twoCallsFile oneWorkspace
      (hplain 2)).1 (fun item hitem => ?_) 4
    rw [List.mem_singleton.mp hitem]
    intro stmt hstmt
    rw [List.mem_singleton.mp hstmt]
    refine .intro (by decide) (fun _ => by decide) fun slot content hcontent => ?_
    -- there is nothing nested in the statement
    cases slot <;> cases hcontent
  · exact (limit_counts_calls_side_by_side (oneExpander 1) (hmodel 1) twoCallsFile oneWorkspace
      (hplain 1)).2 _ _ _ _ rfl rfl (by decide) OneReady ⟨rfl, .inl rfl⟩ (one_writesValues 1) 3

end MacroExpansion
