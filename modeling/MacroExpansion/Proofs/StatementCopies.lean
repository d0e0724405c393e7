import MacroExpansion.Proofs.BodyYields
import MacroExpansion.Proofs.SingleStatement
import MacroExpansion.Proofs.StandardCalls

/-! # Copies of a statement

A call of `Repeat` before a statement of its own calls of other macros is settled as copies of that
statement, which are walked one run deeper than the body (`FileWalk.settleSplit_repeat`). None of them
captures anything, so each copy comes to what the statement comes to alone in the body
(`Expander.adds_of_copies`, by induction on the number of copies), and what is before and behind them to
what it comes to alone. So a whole body is known from its parts (`Expander.yields_repeat`). -/

namespace MacroExpansion

variable {σ : Type} {expander : Expander} {file : FileOrigin} {start : Workspace σ} {firstId : Nat}
  {progress ended : Progress σ} {setting alone : Setting} {nesting : Nat}

/-- The call does not lead to `Repeat`. -/
def Expander.AvoidsRepeat (expander : Expander) (firstId : Nat) (call : Call) : Prop :=
  expander.rules.candidate? call ≠ some (StandardMacros.repeatFollowing ⟨firstId + 2⟩)

namespace Expander.HasStandardMacros

/-- Calls of all other macros keep their statements. -/
theorem keepsStatements (h : expander.HasStandardMacros start.registry firstId) (file : FileOrigin) :
    expander.KeepsStatements file (σ := σ) (·.IsSteady expander.rules start)
      (expander.AvoidsRepeat firstId) where
  byPath call call' hpath hcall := by
    unfold AvoidsRepeat at hcall ⊢
    rw [BindingRules.candidate?, ← h.byName.bindCall hpath]
    exact hcall
  capturesNothing hcall hsymbol := by
    refine h.capturesNothing hsymbol ?_
    rintro rfl
    exact hcall hsymbol
  expandCall {bound} hcall hleads hbinds := by
    intro progress hsteady
    have houtcome := expander.callOutcome file.source bound progress
    rcases hrun : (expander.expandCall file.source bound).runFrom progress with ⟨stop | placement, ended⟩
    · exact True.intro
    · rw [hrun] at houtcome
      refine ⟨?_, hsteady.of_callOutcome h.hasLocalMacros hleads houtcome⟩
      obtain ⟨placed, rfl, rfl, hisOf, hserved, -⟩ := houtcome.exists_placed hleads hbinds
      have hrepeat : placed.bound.symbol ≠ StandardMacros.repeatFollowing ⟨firstId + 2⟩ := by
        intro hsymbol
        rw [hsymbol] at hleads
        exact hcall hleads
      obtain ⟨text, htext⟩ := h.exists_text hsteady hisOf hserved hrepeat
      exact ⟨_, htext, fun _ hmem => absurd hmem List.not_mem_nil⟩

end Expander.HasStandardMacros

/-- The host is asked whether to go on, and nothing else happens. -/
theorem ExpandM.eq_of_checkCancelled {progress ended : Progress σ} {value : Unit}
    (h : ExpandM.checkCancelled.runFrom progress = (.ok value, ended)) : ended = progress := by
  rw [runFrom_checkCancelled] at h
  split at h
  · cases h
  · cases h
    rfl

/-- Behind one run more, a setting still widens what it widened. -/
theorem Setting.Widens.of_deeper {rules : BindingRules} {setting wider : Setting}
    (h : setting.Widens rules wider) : setting.deeper.Widens rules wider :=
  ⟨h.scope, Nat.le_succ_of_le h.depth⟩

/-! ## Copies -/

section

variable (h : expander.HasStandardMacros start.registry firstId)
  (hwidens : setting.Widens expander.rules alone) {s : Stmt}
  (hs : ∀ call ∈ s.ownCalls, expander.AvoidsRepeat firstId call)

include h hwidens hs

/-- A copy of a statement that was settled is settled alone, to the same statement. -/
theorem Expander.yields_of_copy (hsteady : progress.IsSteady expander.rules start)
    {done rest : List Stmt} {last : Split}
    (hrun : (FileWalk.splitWalk { expander, file } nesting setting rest.length
      ⟨done, s :: rest⟩).runFrom progress = (.ok (.proceed last), ended)) :
    ∃ yield s', expander.Yields file nesting start alone [s] yield ∧ yield.statements = [s'] ∧
      last = ⟨done ++ [s'], rest⟩ ∧ progress.Adds expander.rules start yield ended := by
  -- the walk alone is the one that is trailed
  have hsteps := (Expander.keepsFrame_trails h.hasLocalMacros file progress.trace.toList
    progress.warnings.toList).symm
  have hsingle := FileWalk.splitWalk_single hsteps (h.keepsStatements file)
    (fun _ _ htrails => htrails.steady') hwidens nesting done [] rest [] hs progress
    { toWorkspace := start } hsteady.trails
  rw [hrun] at hsingle
  obtain ⟨_, fresh, halone, hrelated, htrails⟩ := hsingle
  cases hrelated with
  | proceed hlast =>
    obtain ⟨s', rfl, rfl⟩ := hlast
    exact ⟨⟨[s'], fresh.trace.toList, fresh.warnings.toList⟩, s', ⟨fresh, halone, rfl, rfl⟩, rfl, rfl,
      htrails.adds rfl rfl⟩

/-- The first of some copies that were settled is settled alone, and the others behind it. -/
theorem Expander.runFrom_copies_succ (hsteady : progress.IsSteady expander.rules start) {n : Nat}
    {done rest : List Stmt} {last : Split}
    (hrun : (FileWalk.splitWalk { expander, file } nesting setting rest.length
      ⟨done, List.replicate (n + 1) s ++ rest⟩).runFrom progress = (.ok (.proceed last), ended)) :
    ∃ yield s' middle, expander.Yields file nesting start alone [s] yield ∧ yield.statements = [s'] ∧
      progress.Adds expander.rules start yield middle ∧
      (FileWalk.splitWalk { expander, file } nesting setting rest.length
        ⟨done ++ [s'], List.replicate n s ++ rest⟩).runFrom middle = (.ok (.proceed last), ended) := by
  cases nesting with
  | zero => cases hrun
  | succ nesting =>
    have htail : rest.length ≤ (List.replicate n s ++ rest).length := by
      rw [List.length_append]
      omega
    rw [List.replicate_succ, List.cons_append, FileWalk.splitWalk_in_parts _ nesting setting htail]
      at hrun
    obtain ⟨flow, middle, hfirst, hothers⟩ := ExpandM.bind_ok hrun
    cases flow with
    | replaceFunction decl => cases hothers
    | proceed first =>
      obtain ⟨yield, s', halone, hs', rfl, hadds⟩ := yields_of_copy h hwidens hs hsteady hfirst
      exact ⟨yield, s', middle, halone, hs', hadds, hothers⟩

/-- Copies of a statement that were settled are copies of what it comes to alone. -/
theorem Expander.adds_of_copies {yield : Yield} {s' : Stmt} (hs' : yield.statements = [s']) (n : Nat)
    (halone : n ≠ 0 → expander.Yields file nesting start alone [s] yield)
    (hsteady : progress.IsSteady expander.rules start) {done rest : List Stmt} {last : Split}
    (hrun : (FileWalk.splitWalk { expander, file } nesting setting rest.length
      ⟨done, List.replicate n s ++ rest⟩).runFrom progress = (.ok (.proceed last), ended)) :
    last = ⟨done ++ List.replicate n s', rest⟩ ∧
      progress.Adds expander.rules start (.times n yield) ended := by
  induction n generalizing done progress with
  | zero =>
    cases nesting with
    | zero => cases hrun
    | succ nesting =>
      rw [List.replicate_zero, List.nil_append, FileWalk.splitWalk_of_le _ _ _ _ (Nat.le_refl _)] at hrun
      cases hrun
      rw [List.replicate_zero, List.append_nil]
      exact ⟨rfl, .nil hsteady⟩
  | succ n ih =>
    obtain ⟨single, found, middle, hsingle, hfound, hadds, hothers⟩ :=
      runFrom_copies_succ h hwidens hs hsteady hrun
    -- alone the statement comes to one thing
    have halone := halone (Nat.succ_ne_zero n)
    obtain rfl := halone.unique hsingle
    obtain rfl := List.singleton_inj.mp (hs'.symm.trans hfound)
    obtain ⟨rfl, hadds'⟩ := ih (fun _ => halone) hadds.steady hothers
    refine ⟨?_, hadds.append hadds'⟩
    rw [List.append_assoc, List.singleton_append, ← List.replicate_succ]

/-- So it is known what the statement comes to alone, if there is a copy of it. -/
theorem Expander.exists_of_copies (n : Nat) (hsteady : progress.IsSteady expander.rules start)
    {done rest : List Stmt} {last : Split}
    (hrun : (FileWalk.splitWalk { expander, file } nesting setting rest.length
      ⟨done, List.replicate n s ++ rest⟩).runFrom progress = (.ok (.proceed last), ended)) :
    ∃ yield s', yield.statements = [s'] ∧
      (n ≠ 0 → expander.Yields file nesting start alone [s] yield) ∧
      last = ⟨done ++ List.replicate n s', rest⟩ ∧
      progress.Adds expander.rules start (.times n yield) ended := by
  suffices hcopy : ∃ yield s', yield.statements = [s'] ∧
      (n ≠ 0 → expander.Yields file nesting start alone [s] yield) by
    obtain ⟨yield, s', hs', halone⟩ := hcopy
    exact ⟨yield, s', hs', halone, adds_of_copies h hwidens hs hs' n halone hsteady hrun⟩
  cases n with
  | zero => exact ⟨{ statements := [s] }, s, rfl, fun hne => absurd rfl hne⟩
  | succ n =>
    obtain ⟨yield, s', -, halone, hs', -, -⟩ := runFrom_copies_succ h hwidens hs hsteady hrun
    exact ⟨yield, s', hs', fun _ => halone⟩

end

/-! ## The call -/

namespace StandardMacros

/-- `Repeat` is among the standard macros. -/
theorem mem_all_repeat (firstId : Nat) :
    (repeatFollowing ⟨firstId + 2⟩, expandRepeat) ∈ all (σ := σ) firstId := by
  simp [all]

/-- What is recorded of a call of `Repeat` before a statement. -/
def repeatStep (id : SymbolId) (call : Call) (n : Int64) (s : Stmt) : ExpansionStep where
  macroName := (repeatFollowing id).qualifiedName
  span := call.span
  call := call.text
  fragments := List.replicate n.toInt.toNat s.text
  splice := .block

/-- The call itself leaves nothing behind but its step, if steps are recorded. -/
def repeatYield (expander : Expander) (id : SymbolId) (call : Call) (n : Int64) (s : Stmt) : Yield where
  trace := if expander.config.recordTrace then [repeatStep id call n s] else []

end StandardMacros

open StandardMacros

section

variable (h : expander.HasStandardMacros start.registry firstId) {n : Int64} {call : Call} {span : Span}
  {s : Stmt} {done post : List Stmt} (hcall : RepeatsBy expander.rules ⟨firstId + 2⟩ n call)

include h hcall

/-- At its place in a sequence the call is bound with the statement behind it. -/
theorem Setting.bind_repeat (setting : Setting) (done post : List Stmt) (span : Span) (s : Stmt)
    (path : String) (source : Option SourceText) :
    let site := (setting.cursor ⟨done, .expr (.call call) span :: s :: post⟩).site path call
    expander.rules.bind (repeatFollowing ⟨firstId + 2⟩) site source =
      .ok (some (boundRepeat ⟨firstId + 2⟩ n s site)) := by
  intro site
  have hfollowing : site.following? 0 = some s := by
    rw [Site.following?, (Cursor.Shows.of_split setting _).following path call]
    rfl
  exact StandardMacros.bind_repeat h.markers hcall hfollowing source

/-- The call is the first one that has to be expanded in its statement. -/
theorem FileWalk.runFrom_next_repeat (file : FileOrigin) (setting : Setting) (done post : List Stmt)
    (span : Span) (s : Stmt) (progress : Progress σ) :
    let walk : FileWalk σ := { expander, file }
    let stmt : Stmt := .expr (.call call) span
    let site := (setting.cursor ⟨done, stmt :: s :: post⟩).site file.path
    (walk.next stmt site).runFrom progress =
      (.ok (some (boundRepeat ⟨firstId + 2⟩ n s (site call))), progress) := by
  intro walk stmt site
  have hbind := setting.bind_repeat h hcall done post span s file.path file.source
  change (ExpandM.require
    (expander.firstBound? file.source site (call :: call.inner))).runFrom progress = _
  simp only [Expander.firstBound?, hcall.leads, site, stmt, hbind]
  rfl

variable {walkRun : SplitWalk σ} {walkNested : SequenceWalk σ} {allowed : Nat} {flow : Flow Split}

/-- Settling the call goes on with the copies in its place. -/
theorem FileWalk.settleSplit_repeat (hn : 0 ≤ n) (hsteady : progress.IsSteady expander.rules start)
    (hrun : (settleSplit { expander, file } walkRun walkNested setting allowed
      ⟨done, .expr (.call call) span :: s :: post⟩).runFrom progress = (.ok flow, ended)) :
    ∃ middle, progress.Adds expander.rules start (repeatYield expander ⟨firstId + 2⟩ call n s) middle ∧
      (walkRun setting.deeper post.length ⟨done, List.replicate n.toInt.toNat s ++ post⟩).runFrom middle =
        (.ok flow, ended) := by
  let stmt : Stmt := .expr (.call call) span
  let site := (setting.cursor ⟨done, stmt :: s :: post⟩).site file.path call
  let bound := boundRepeat ⟨firstId + 2⟩ n s site
  have hnext := runFrom_next_repeat h hcall file setting done post span s progress
  have hstmt : site.statement = stmt := Setting.stmt_cursor setting done (s :: post) stmt
  have hbinds : expander.rules.bind bound.symbol bound.site file.source = .ok (some bound) :=
    setting.bind_repeat h hcall done post span s file.path file.source
  cases allowed with
  | zero =>
    rw [runFrom_settleSplit_of_limit hnext (.inl rfl)] at hrun
    cases hrun
  | succ allowed =>
    by_cases hdepth : setting.depth ≤ expander.config.maxDepth
    · rw [runFrom_settleSplit_of_bound hnext hdepth] at hrun
      obtain ⟨placement, middle, hplaced, hrest⟩ := ExpandM.bind_ok hrun
      have houtcome := Expander.placed_of_expandCall hplaced
      have hsteady' := hsteady.of_callOutcome h.hasLocalMacros hcall.leads houtcome
      have hwarnings := houtcome.warnings_eq
      obtain ⟨placed, hbound, rfl, hisOf, hserved, htrace⟩ :=
        houtcome.exists_placed hcall.leads hbinds
      have hbody := h.hasBody hsteady (mem_all_repeat firstId) hcall.leads
      obtain ⟨hfragments, hplacement⟩ := placed_repeat hn hbound (Stmt.isCall_iff.mpr ⟨span, hstmt⟩)
        hisOf hserved hbody
      -- the step that is noted tells the call and its copies
      have hstep : placed.step = repeatStep ⟨firstId + 2⟩ call n s := by
        rw [PlacedCall.step, hbound, hfragments, hplacement, repeatStep, List.map_map, List.map_replicate]
        rfl
      rw [hstep] at htrace
      rw [hplacement] at hrest
      exact ⟨middle, ⟨hsteady', htrace, hwarnings⟩, hrest⟩
    · rw [runFrom_settleSplit_of_limit hnext (.inr (Nat.lt_of_not_le hdepth))] at hrun
      cases hrun

/-- Settling the call of a negative count is an error at the call. -/
theorem FileWalk.settleSplit_repeat_negative (hn : n < 0)
    (hsteady : progress.IsSteady expander.rules start)
    (hidle : start.session.binding.active = none) (hdepth : setting.depth ≤ expander.config.maxDepth) :
    ((settleSplit { expander, file } walkRun walkNested setting (allowed + 1)
      ⟨done, .expr (.call call) span :: s :: post⟩).runFrom progress).1 =
        .error (.error (.atSpan (negativeCount ⟨firstId + 2⟩ n) call.span file.source)) := by
  let stmt : Stmt := .expr (.call call) span
  let site := (setting.cursor ⟨done, stmt :: s :: post⟩).site file.path call
  have hnext := runFrom_next_repeat h hcall file setting done post span s progress
  have hleads := (hsteady.leads hcall.leads).trans (h.leads (mem_all_repeat firstId))
  have houtcome := expander.callOutcome file.source (boundRepeat ⟨firstId + 2⟩ n s site) progress
  have hrefused := outcome_repeat_negative hn hcall.typeArgs (hsteady.binding ▸ hidle) hleads houtcome
  have hlocated : ((ExpandM.located call.span file.source (expander.expandCall file.source
      (boundRepeat ⟨firstId + 2⟩ n s site))).runFrom progress).1 =
        .error (.error (.atSpan (negativeCount ⟨firstId + 2⟩ n) call.span file.source)) := by
    rw [ExpandM.runFrom_located]
    generalize (expander.expandCall file.source (boundRepeat ⟨firstId + 2⟩ n s site)).runFrom progress =
      expanded at hrefused ⊢
    obtain ⟨_, left⟩ := expanded
    cases hrefused
    dsimp only
    rw [ExpansionError.located_atSpan]
    rfl
  rw [runFrom_settleSplit_of_bound hnext hdepth]
  exact congrArg Prod.fst (ExpandM.runFrom_bind_of_error (Prod.ext hlocated rfl))

end

/-! ## Bodies -/

section

variable {settingOf : List Stmt → Setting}
  (h : expander.HasStandardMacros start.registry firstId)
  (halike : ∀ xs ys, (settingOf xs).scope.Resembles expander.rules (settingOf ys).scope)
  {depth : Nat} (hdepth : ∀ xs, (settingOf xs).depth = depth)
  {n : Int64} {call : Call} {span : Span} {s : Stmt} {pre post : List Stmt}
  (hcall : RepeatsBy expander.rules ⟨firstId + 2⟩ n call)
  {first : Yield} (hpre : expander.Yields file nesting start (settingOf pre) pre first)

include h halike hdepth hcall hpre

/-- A body with a call of `Repeat` comes to what is before it, to copies of what the statement behind
it comes to, and to what is behind that. -/
theorem Expander.yields_repeat (hn : 0 ≤ n)
    (hs : ∀ inner ∈ s.ownCalls, expander.AvoidsRepeat firstId inner) {whole : Yield}
    (hwhole : expander.Yields file nesting start
      (settingOf (pre ++ .expr (.call call) span :: s :: post))
      (pre ++ .expr (.call call) span :: s :: post) whole) :
    ∃ single s' last, single.statements = [s'] ∧
      (0 < n → expander.Yields file nesting start (settingOf [s]) [s] single) ∧
      expander.Yields file nesting start (settingOf post) post last ∧
      whole = first ++ repeatYield expander ⟨firstId + 2⟩ call n s ++ .times n.toInt.toNat single ++
        last := by
  have hwidens (xs ys : List Stmt) : (settingOf xs).Widens expander.rules (settingOf ys) :=
    ⟨halike xs ys, by rw [hdepth, hdepth]⟩
  obtain ⟨ended, hrun, htrace, hwarnings⟩ := hwhole
  -- first the statements before the call are settled, as they are alone
  obtain ⟨before, hfirst, hsame⟩ := hpre.runFrom_append h.hasLocalMacros (hwidens pre _)
    (.refl _ _) [] (.expr (.call call) span :: s :: post)
  rw [hrun] at hsame
  cases nesting with
  | zero => cases hsame
  | succ nesting =>
    rw [FileWalk.splitWalk_of_lt _ _ _ _ (Nat.zero_lt_succ _)] at hsame
    obtain ⟨_, _, hpoll, hbehind⟩ := ExpandM.bind_ok hsame.symm
    obtain rfl := ExpandM.eq_of_checkCancelled hpoll
    obtain ⟨flow, copied, hsettled, hbehind⟩ := ExpandM.bind_ok hbehind
    cases flow with
    | replaceFunction decl => cases hbehind
    | proceed middle =>
      -- then the call, and the copies in its place
      obtain ⟨called, hcalled, hcopies⟩ := FileWalk.settleSplit_repeat h hcall hn hfirst.steady hsettled
      obtain ⟨single, s', hs', halone, rfl, hadded⟩ := exists_of_copies h
        (hwidens _ [s]).of_deeper hs _ hcalled.steady hcopies
      -- and at last what is behind the statement
      obtain ⟨last, hlast, hstatements, hadds⟩ := yields_of_runFrom h.hasLocalMacros (hwidens post _)
        ((hdepth _).trans (hdepth _).symm) hadded.steady hbehind
      have hall := ((hfirst.append hcalled).append hadded).append hadds
      refine ⟨single, s', last, hs', fun hpos => ?_, hlast, ?_⟩
      · have hcount : n.toInt.toNat ≠ 0 := by
          have := Int64.lt_iff_toInt_lt.mp hpos
          rw [Int64.toInt_zero] at this
          omega
        exact (halone hcount).mono (Nat.le_succ nesting)
      · refine Yield.ext ?_ (htrace.symm.trans hall.trace) (hwarnings.symm.trans hall.warnings)
        obtain ⟨hstatements, -⟩ := Split.mk.inj hstatements
        rw [hstatements]
        simp [repeatYield, Yield.statements_times hs']

/-- With a negative count the body comes to nothing but an error at the call. -/
theorem Expander.refuses_repeat (hn : n < 0) (hlimit : 1 ≤ expander.config.maxDepth)
    (hat : depth ≤ expander.config.maxDepth) (hidle : start.session.binding.active = none)
    (hgoesOn : start.session.cancelled = false) :
    expander.Stops file nesting start (settingOf (pre ++ .expr (.call call) span :: s :: post))
      (pre ++ .expr (.call call) span :: s :: post)
      (.error (.atSpan (negativeCount ⟨firstId + 2⟩ n) call.span file.source)) := by
  obtain ⟨before, hfirst, hsame⟩ := hpre.runFrom_append h.hasLocalMacros
    ⟨halike pre (pre ++ .expr (.call call) span :: s :: post), by rw [hdepth, hdepth]⟩
    (.refl _ _) [] (.expr (.call call) span :: s :: post)
  rw [Stops, hsame]
  cases nesting with
  | zero =>
    obtain ⟨_, hrun, -⟩ := hpre
    cases hrun
  | succ nesting =>
    have hpoll : ExpandM.checkCancelled.runFrom before = (.ok (), before) := by
      rw [ExpandM.runFrom_checkCancelled, hfirst.steady.cancelled.trans hgoesOn]
      rfl
    obtain ⟨limit, hlimit⟩ : ∃ limit, expander.config.maxDepth = limit + 1 :=
      ⟨expander.config.maxDepth - 1, by omega⟩
    rw [FileWalk.splitWalk_of_lt _ _ _ _ (Nat.zero_lt_succ _), ExpandM.runFrom_bind_of_ok hpoll]
    dsimp only
    rw [hlimit]
    exact congrArg Prod.fst (ExpandM.runFrom_bind_of_error (Prod.ext
      (FileWalk.settleSplit_repeat_negative h hcall hn hfirst.steady hidle ((hdepth _).trans_le hat))
      rfl))

end

end MacroExpansion
