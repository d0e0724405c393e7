import Mathlib
import MacroExpansion.Proofs.Recording
import MacroExpansion.Proofs.WalkAgrees
import MacroExpansion.Symbol.Table
import MacroExpansion.Tree.Build

/-! # Statements as a worklist

The plainest account of how a sequence is expanded: a machine that keeps the settled statements and
those to come, and looks at the first one to come. While that one has a call to expand, the call is
expanded and its output put in its place, a run together with the statements that the call captured.
Once it has none, what is nested in it is expanded by the same machine, and it is settled.

The machine knows no pending splices, no inner sequences for inserted runs, no bound on expansions
and no cancellation. `walk_refines_worklist` says that a walk that none of these bounds ends comes
to what the machine comes to, with the same progress, and so with the same macros invoked at the
same sites in the same order. -/

namespace MacroExpansion

/-- The ways in which a walk ends that the machine does not know. -/
inductive Stop.IsBound : Stop → Prop where
  /-- Too many walks are under way within each other. -/
  | exhausted : IsBound .exhausted
  /-- The host asked for the end. -/
  | cancelled : IsBound (.error .cancelled)
  /-- A statement took too many expansions, or a run was inserted through too many others. -/
  | depthLimit (callee : String) (limit : Nat) (span : Span) (source : Option SourceText) :
      IsBound (.error (.atSpan (.depthLimit callee limit) span source))

namespace Worklist

variable {σ : Type}

/-! ## The machine -/

/-- What a macro sees that is called in the next statement. -/
def site (scope : Scope) (span : Span) (split : Split) (stmt : Stmt) (path : String) (call : Call) :
    Site where
  file := path
  call
  statement := stmt
  enclosing :=
    match scope.enclosing, scope.function with
    | .function _, some context => .function (context.plug ⟨split.statements, span⟩)
    | other, _ => other
  function := scope.function.map (·.plug ⟨split.statements, span⟩)
  block := ⟨split.statements, span⟩
  index := split.done.length

/-- What surrounds the content of a slot of the next statement. -/
def inside (scope : Scope) (span : Span) (split : Split) (stmt : Stmt) (slot : Slot) : Scope where
  enclosing :=
    match slot with
    | .lambda n => ((stmt.ownLambdas[n]?).map .lambda).getD scope.enclosing
    | _ => scope.enclosing
  function :=
    scope.function.map
      (·.enter { statements := split.statements, span, index := split.done.length, slot })

/-- Expands what the slots of the next statement hold. -/
def expandBodies (expandBody : Scope → Block → ExpandM σ (Flow (List Stmt))) (scope : Scope)
    (span : Span) (split : Split) : List Slot → Stmt → ExpandM σ (Flow Stmt)
  | [], stmt => return .proceed stmt
  | slot :: rest, stmt =>
      match slot.content? stmt with
      | none => expandBodies expandBody scope span split rest stmt
      | some content => do
          let flow ← expandBody (inside scope span (split.withStmt stmt) stmt slot) content
          flow.followedBy fun statements =>
            expandBodies expandBody scope span split rest (slot.fill { content with statements } stmt)

/-- Puts the output of a call in its place: the statement of the call stands between the settled
ones and `rest`. -/
def put (source : Option SourceText) (bound : BoundCall) (done : List Stmt) (stmt : Stmt)
    (rest : List Stmt) : Placement → Except ExpansionError (Flow Split)
  | .empty => .ok (.proceed ⟨done, .empty stmt.span :: rest⟩)
  | .inPlace expr =>
      match stmt.replaceCall? bound.site.call expr with
      | some stmt => .ok (.proceed ⟨done, stmt :: rest⟩)
      | none =>
          .error (.atSpan (.callVanished bound.site.call.callee) bound.site.call.span source)
  | .statement stmt => .ok (.proceed ⟨done, stmt :: rest⟩)
  | .function decl => .ok (.replaceFunction decl)
  | .splice run => .ok (.proceed ⟨done, run ++ rest.drop bound.captured⟩)

/-- Expands the next call of a statement, or settles it. -/
def step (expander : Expander) (file : FileOrigin)
    (expandBody : Scope → Block → ExpandM σ (Flow (List Stmt))) (scope : Scope) (span : Span)
    (done : List Stmt) (stmt : Stmt) (rest : List Stmt) : ExpandM σ (Flow Split) := do
  let split : Split := ⟨done, stmt :: rest⟩
  match ← ExpandM.require (expander.firstBound? file.source (site scope span split stmt file.path)
      stmt.ownCalls) with
  | none =>
      let flow ← expandBodies expandBody scope span split (Slot.all stmt) stmt
      flow.followedBy fun stmt => return .proceed ⟨done ++ [stmt], rest⟩
  | some bound =>
      let placement ←
        ExpandM.located bound.site.call.span file.source (expander.expandCall file.source bound)
      ExpandM.require (put file.source bound done stmt rest placement)

/-- Runs the machine until nothing is to come, at most `fuel` steps within each other and after each
other. Gives the settled statements. -/
def run (expander : Expander) (file : FileOrigin) :
    (fuel : Nat) → Scope → Span → Split → ExpandM σ (Flow (List Stmt))
  | 0, _, _, _ => throw .exhausted
  | fuel + 1, scope, span, ⟨done, todo⟩ =>
      match todo with
      | [] => return .proceed done
      | stmt :: rest => do
          let expandBody (scope : Scope) (body : Block) :=
            run expander file fuel scope body.span ⟨[], body.statements⟩
          let flow ← step expander file expandBody scope span done stmt rest
          flow.followedBy (run expander file fuel scope span)

/-! ## Enough fuel -/

/-- What a program comes to, the machine comes to with enough fuel, unless the program ends in a way
that the machine does not know. -/
def Refines (R : α → β → Prop) (program : ExpandM σ α) (machine : Nat → ExpandM σ β) : Prop :=
  ∀ progress, match program.runFrom progress with
    | (.ok value, ended) =>
        ∃ result, R value result ∧ ExpandM.ComesTo machine progress (.ok result, ended)
    | (.error stop, ended) => stop.IsBound ∨ ExpandM.ComesTo machine progress (.error stop, ended)

namespace Refines

variable {R : α → β → Prop} {S : γ → δ → Prop}

/-- A value is refined by one that is related to it. -/
theorem pure {value : α} {result : β} (h : R value result) :
    Refines R (Pure.pure value : ExpandM σ α) fun _ => Pure.pure result :=
  fun _ => ⟨result, h, .const rfl⟩

/-- Parts that are followed are refined when the parts and what follows them are. -/
theorem followedBy {program : ExpandM σ (Flow α)} {machine : Nat → ExpandM σ (Flow β)}
    {next : α → ExpandM σ (Flow γ)} {next' : Nat → β → ExpandM σ (Flow δ)}
    (h : Refines (Flow.Related R) program machine)
    (hnext : ∀ value result, R value result →
      Refines (Flow.Related S) (next value) fun fuel => next' fuel result) :
    Refines (Flow.Related S) (program >>= (·.followedBy next)) fun fuel =>
      machine fuel >>= (·.followedBy (next' fuel)) := by
  intro progress
  have hp := h progress
  rcases hrun : program.runFrom progress with ⟨stop | flow, middle⟩
  · rw [ExpandM.runFrom_bind_of_error hrun]
    rw [hrun] at hp
    exact hp.imp_right ExpandM.ComesTo.bind_error
  · rw [ExpandM.runFrom_bind_of_ok hrun]
    rw [hrun] at hp
    obtain ⟨flow', hrelated, hmachine⟩ := hp
    cases hrelated with
    | replaceFunction decl =>
      exact ⟨.replaceFunction decl, .replaceFunction decl, hmachine.bind (.const rfl)⟩
    | proceed hR =>
      have hlast := hnext _ _ hR middle
      simp only [Flow.proceed_followedBy]
      rcases hrunNext : (next _).runFrom middle with ⟨stop | last, ended⟩
      all_goals rw [hrunNext] at hlast
      · exact hlast.imp_right hmachine.bind
      · obtain ⟨result, hS, hresult⟩ := hlast
        exact ⟨result, hS, hmachine.bind hresult⟩

/-- Unless the program ends in a way that the machine does not know, the machine comes to the same
with enough fuel. -/
theorem run_eq {f : α → β} {program : ExpandM σ (Flow α)} {machine : Nat → ExpandM σ (Flow β)}
    (h : Refines (Flow.Related fun value result => f value = result) program machine)
    (progress : Progress σ) :
    (∃ stop, (program.runFrom progress).1 = .error stop ∧ stop.IsBound) ∨
      ExpandM.ComesTo machine progress
        ((program.runFrom progress).1.map (Flow.map f), (program.runFrom progress).2) := by
  have hp := h progress
  rcases hrun : program.runFrom progress with ⟨stop | flow, ended⟩
  all_goals rw [hrun] at hp
  · exact hp.imp_left fun hbound => ⟨stop, rfl, hbound⟩
  · obtain ⟨flow', hrelated, hmachine⟩ := hp
    rw [hrelated.eq_map] at hmachine
    exact .inr hmachine

end Refines

/-! ## Following a walk -/

variable {expander : Expander} {file : FileOrigin} {scope : Scope} {span : Span}

/-- What the machine comes to from a parted sequence. -/
abbrev Yields (expander : Expander) (file : FileOrigin) (scope : Scope) (span : Span)
    (split : Split) (progress : Progress σ) (outcome : Except Stop (Flow (List Stmt)) × Progress σ) :
    Prop :=
  ExpandM.ComesTo (fun fuel => run expander file fuel scope span split) progress outcome

/-- What a part of a walk comes to, the machine comes to as well: where the walk goes on, the
machine gets there, and where it ends, the machine ends. -/
def Follows (expander : Expander) (file : FileOrigin) (scope : Scope) (span : Span)
    (split : Split) (progress : Progress σ) : Except Stop (Flow Split) × Progress σ → Prop
  | (.ok (.proceed last), ended) =>
      ∀ outcome, Yields expander file scope span last ended outcome →
        Yields expander file scope span split progress outcome
  | (.ok (.replaceFunction decl), ended) =>
      Yields expander file scope span split progress (.ok (.replaceFunction decl), ended)
  | (.error stop, ended) =>
      stop.IsBound ∨ Yields expander file scope span split progress (.error stop, ended)

/-- Nothing is settled any more where nothing is to come. -/
theorem yields_done (statements : List Stmt) (progress : Progress σ) :
    Yields expander file scope span ⟨statements, []⟩ progress
      (.ok (.proceed statements), progress) :=
  .succ (.const rfl)

/-- One step of the machine with its bodies expanded by the machine itself. -/
abbrev stepWith (expander : Expander) (file : FileOrigin) (scope : Scope) (span : Span)
    (done : List Stmt) (stmt : Stmt) (rest : List Stmt) (fuel : Nat) : ExpandM σ (Flow Split) :=
  step expander file (fun scope body => run expander file fuel scope body.span ⟨[], body.statements⟩)
    scope span done stmt rest

section Steps

variable {done rest : List Stmt} {stmt : Stmt} {progress middle ended : Progress σ}

/-- The machine goes on from where a step leads. -/
theorem yields_of_step {split : Split} {outcome : Except Stop (Flow (List Stmt)) × Progress σ}
    (h : ExpandM.ComesTo (stepWith expander file scope span done stmt rest) progress
      (.ok (.proceed split), middle))
    (hnext : Yields expander file scope span split middle outcome) :
    Yields expander file scope span ⟨done, stmt :: rest⟩ progress outcome :=
  .succ (h.bind hnext)

/-- What a walk does after a step of the machine is followed from there. -/
theorem follows_of_step {split : Split} {result : Except Stop (Flow Split) × Progress σ}
    (h : ExpandM.ComesTo (stepWith expander file scope span done stmt rest) progress
      (.ok (.proceed split), middle))
    (hnext : Follows expander file scope span split middle result) :
    Follows expander file scope span ⟨done, stmt :: rest⟩ progress result := by
  obtain ⟨(stop | ⟨last | decl⟩), ended⟩ := result
  · exact hnext.imp_right (yields_of_step h)
  · exact fun outcome houtcome => yields_of_step h (hnext outcome houtcome)
  · exact yields_of_step h hnext

/-- A step that ends the machine is followed to its end. -/
theorem follows_of_last_step {result : Except Stop (Flow Split) × Progress σ}
    (h : ExpandM.ComesTo (stepWith expander file scope span done stmt rest) progress result) :
    Follows expander file scope span ⟨done, stmt :: rest⟩ progress result := by
  obtain ⟨(stop | ⟨last | decl⟩), ended⟩ := result
  · exact .inr (.succ h.bind_error)
  · exact fun outcome houtcome => yields_of_step h houtcome
  · exact .succ (h.bind (.const rfl))

/-- A part of a walk that is refined by one step is followed. -/
theorem follows_of_refines {program : ExpandM σ (Flow Split)}
    (h : Refines (Flow.Related Eq) program (stepWith expander file scope span done stmt rest))
    (progress : Progress σ) :
    Follows expander file scope span ⟨done, stmt :: rest⟩ progress (program.runFrom progress) := by
  have hp := h progress
  rcases hrun : program.runFrom progress with ⟨stop | flow, ended⟩
  all_goals rw [hrun] at hp
  · exact hp.elim .inl follows_of_last_step
  · obtain ⟨flow', hrelated, hmachine⟩ := hp
    rw [hrelated.eq]
    exact follows_of_last_step hmachine

/-- A step ends where the look for a call does. -/
theorem comesTo_step_of_error {error : ExpansionError}
    (h : expander.firstBound? file.source (site scope span ⟨done, stmt :: rest⟩ stmt file.path)
      stmt.ownCalls = .error error) (progress : Progress σ) :
    ExpandM.ComesTo (stepWith expander file scope span done stmt rest) progress
      (.error (.error error), progress) := by
  refine ⟨0, fun fuel _ => ?_⟩
  rw [stepWith, step, h]
  rfl

/-- A step that finds a call expands it and puts its output in its place. -/
theorem stepWith_of_bound {bound : BoundCall}
    (h : expander.firstBound? file.source (site scope span ⟨done, stmt :: rest⟩ stmt file.path)
      stmt.ownCalls = .ok (some bound)) (fuel : Nat) :
    stepWith (σ := σ) expander file scope span done stmt rest fuel =
      ExpandM.located bound.site.call.span file.source (expander.expandCall file.source bound) >>=
        fun placement => ExpandM.require (put file.source bound done stmt rest placement) := by
  rw [stepWith, step, h]
  rfl

/-- Parts of a walk are followed one after the other. -/
theorem follows_followedBy {split : Split} {program : ExpandM σ (Flow Split)}
    {next : Split → ExpandM σ (Flow Split)}
    (h : Follows expander file scope span split progress (program.runFrom progress))
    (hnext : ∀ last ended, program.runFrom progress = (.ok (.proceed last), ended) →
      Follows expander file scope span last ended ((next last).runFrom ended)) :
    Follows expander file scope span split progress
      ((program >>= (·.followedBy next)).runFrom progress) := by
  rcases hp : program.runFrom progress with ⟨(stop | ⟨last | decl⟩), middle⟩
  · rw [ExpandM.runFrom_bind_of_error hp]
    rw [hp] at h
    exact h
  · rw [ExpandM.runFrom_bind_of_ok hp, Flow.proceed_followedBy]
    rw [hp] at h
    have hlast := hnext last middle hp
    rcases hn : (next last).runFrom middle with ⟨(stop | ⟨final | decl⟩), ended⟩
    all_goals rw [hn] at hlast
    · exact hlast.imp_right (h _)
    · exact fun outcome houtcome => h outcome (hlast outcome houtcome)
    · exact h _ hlast
  · rw [ExpandM.runFrom_bind_of_ok hp]
    rw [hp] at h
    exact h

end Steps

/-! ## The walk of a parted sequence -/

variable {setting : Setting} {done rest : List Stmt} {stmt : Stmt}

/-- Both see the same at a statement. -/
theorem site_cursor (setting : Setting) (done rest : List Stmt) (stmt : Stmt) (path : String) :
    (setting.cursor ⟨done, stmt :: rest⟩).site path =
      site setting.scope setting.span ⟨done, stmt :: rest⟩ stmt path := by
  have h := Cursor.Shows.of_split setting ⟨done, stmt :: rest⟩
  funext call
  simp only [Cursor.site, site, Cursor.enclosing, h.function?, h.block, h.blockIndex, h.stmt, h.scope,
    List.getElem?_cons_zero, Option.getD_some, Site.mk.injEq, true_and, and_true]
  cases setting.scope.enclosing <;> cases setting.scope.function <;> rfl

/-- Both see the same around what a statement holds. -/
theorem inside_cursor (setting : Setting) (done rest : List Stmt) (stmt : Stmt) (slot : Slot) :
    (setting.cursor ⟨done, stmt :: rest⟩).inside slot =
      inside setting.scope setting.span ⟨done, stmt :: rest⟩ stmt slot := by
  have h := Cursor.Shows.of_split setting ⟨done, stmt :: rest⟩
  cases slot <;> simp only [Cursor.inside, inside, h.block, h.blockIndex, h.stmt, h.scope, h.span,
    List.getElem?_cons_zero, Option.getD_some]

/-- A walk whose every part is followed. -/
def Followed (expander : Expander) (file : FileOrigin) (walkSplit : SplitWalk σ) : Prop :=
  ∀ setting tail split progress, Follows expander file setting.scope setting.span split progress
    ((walkSplit setting tail split).runFrom progress)

/-- A followed walk of a whole sequence is refined by the machine. -/
theorem refines_onSequence {walkSplit : SplitWalk σ} (hfollowed : Followed expander file walkSplit)
    (hadvances : walkSplit.Advances) (scope : Scope) (depth : Nat) (span : Span)
    (statements : List Stmt) :
    Refines (Flow.Related fun walked result => walked.statements = result)
      (walkSplit.onSequence scope depth span statements 0 statements.length)
      fun fuel => run expander file fuel scope span ⟨[], statements⟩ := by
  intro progress
  unfold SplitWalk.onSequence
  rw [Nat.sub_self, List.take_zero, List.drop_zero]
  have hfollows := hfollowed ⟨scope, depth, span⟩ 0 ⟨[], statements⟩ progress
  rcases hrun : (walkSplit ⟨scope, depth, span⟩ 0 ⟨[], statements⟩).runFrom progress with
    ⟨(stop | ⟨⟨done, todo⟩ | decl⟩), ended⟩
  all_goals rw [hrun] at hfollows
  · rw [ExpandM.runFrom_bind_of_error hrun]
    exact hfollows
  · rw [ExpandM.runFrom_bind_of_ok hrun]
    -- nothing is left to come
    obtain ⟨-, hlength⟩ := hadvances _ _ _ _ _ _ hrun _ rfl
    obtain rfl : todo = [] := List.eq_nil_of_length_eq_zero (Nat.le_zero.mp hlength)
    exact ⟨_, .proceed (List.append_nil done), hfollows _ (yields_done done ended)⟩
  · rw [ExpandM.runFrom_bind_of_ok hrun]
    exact ⟨_, .replaceFunction decl, hfollows⟩

/-- What the slots of a statement hold is walked as the machine expands it. -/
theorem refines_walkSlots {walkSplit : SplitWalk σ} (hfollowed : Followed expander file walkSplit)
    (hadvances : walkSplit.Advances) (setting : Setting) (done rest : List Stmt) (first : Stmt)
    (slots : List Slot) (stmt : Stmt) :
    Refines (Flow.Related Eq)
      (FileWalk.walkSlots walkSplit.onSequence (setting.cursor ⟨done, stmt :: rest⟩) slots)
      fun fuel => expandBodies
        (fun scope body => run expander file fuel scope body.span ⟨[], body.statements⟩)
        setting.scope setting.span ⟨done, first :: rest⟩ slots stmt := by
  induction slots generalizing stmt with
  | nil =>
    rw [FileWalk.walkSlots, Setting.stmt_cursor]
    exact .pure (.proceed rfl)
  | cons slot slots ih =>
    unfold FileWalk.walkSlots expandBodies
    rw [Setting.stmt_cursor]
    cases slot.content? stmt with
    | none => exact ih stmt
    | some content =>
      rw [inside_cursor]
      refine (refines_onSequence hfollowed hadvances _ _ _ _).followedBy ?_
      rintro walked _ rfl
      simp only [Setting.withStmt_cursor]
      exact ih _

/-- A statement without calls to expand is settled as the machine settles it. -/
theorem follows_settled {walkSplit : SplitWalk σ} (hfollowed : Followed expander file walkSplit)
    (hadvances : walkSplit.Advances) (setting : Setting) (done rest : List Stmt) (stmt : Stmt)
    (progress : Progress σ)
    (hnone : expander.firstBound? file.source
      (site setting.scope setting.span ⟨done, stmt :: rest⟩ stmt file.path) stmt.ownCalls = .ok none) :
    Follows expander file setting.scope setting.span ⟨done, stmt :: rest⟩ progress
      ((FileWalk.walkSlots walkSplit.onSequence (setting.cursor ⟨done, stmt :: rest⟩)
        (Slot.all stmt) >>= (·.followedBy fun stmt =>
          return .proceed (Split.mk (done ++ [stmt]) rest))).runFrom progress) := by
  refine follows_of_refines ?_ progress
  have hstep (fuel : Nat) : stepWith expander file setting.scope setting.span done stmt rest fuel =
      expandBodies (fun scope body => run (σ := σ) expander file fuel scope body.span
        ⟨[], body.statements⟩) setting.scope setting.span ⟨done, stmt :: rest⟩ (Slot.all stmt) stmt >>=
        (·.followedBy fun stmt => return .proceed ⟨done ++ [stmt], rest⟩) := by
    rw [stepWith, step, hnone]
    rfl
  rw [funext hstep]
  refine (refines_walkSlots hfollowed hadvances setting done rest stmt _ stmt).followedBy ?_
  rintro stmt _ rfl
  exact .pure (.proceed rfl)

/-- Once the machine has put the output of a call in its place, what the walk does with it is
followed. -/
theorem follows_placeSplit {walkRun : SplitWalk σ} (hfollowed : Followed expander file walkRun)
    {setting : Setting} {done rest : List Stmt} {stmt : Stmt} {progress middle : Progress σ}
    {settle : Split → ExpandM σ (Flow Split)}
    (hsettle : ∀ stmt, Follows expander file setting.scope setting.span ⟨done, stmt :: rest⟩ middle
      ((settle ⟨done, stmt :: rest⟩).runFrom middle)) {bound : BoundCall} {placement : Placement}
    (hput : ExpandM.ComesTo (stepWith expander file setting.scope setting.span done stmt rest)
      progress ((ExpandM.require (put file.source bound done stmt rest placement)).runFrom middle)) :
    Follows expander file setting.scope setting.span ⟨done, stmt :: rest⟩ progress
      ((FileWalk.placeSplit { expander, file } walkRun settle setting ⟨done, stmt :: rest⟩ bound
        placement).runFrom middle) := by
  cases placement with
  | empty =>
    simp only [FileWalk.placeSplit, Setting.stmt_cursor]
    exact follows_of_step hput (hsettle _)
  | statement stmt => exact follows_of_step hput (hsettle stmt)
  | function decl => exact follows_of_last_step hput
  | inPlace expr =>
    simp only [FileWalk.placeSplit, Setting.stmt_cursor]
    cases hreplace : stmt.replaceCall? bound.site.call expr with
    | none =>
      simp only [put, hreplace] at hput
      exact follows_of_last_step hput
    | some stmt =>
      simp only [put, hreplace] at hput
      exact follows_of_step hput (hsettle stmt)
  | splice run => exact follows_of_step hput (hfollowed setting.deeper _ _ middle)

/-- Settling the next statement of a parted sequence is followed. -/
theorem follows_settleSplit {walkRun : SplitWalk σ} (hfollowed : Followed expander file walkRun)
    (hadvances : walkRun.Advances) (setting : Setting) (allowed : Nat) (done rest : List Stmt)
    (stmt : Stmt) (progress : Progress σ) :
    Follows expander file setting.scope setting.span ⟨done, stmt :: rest⟩ progress
      ((FileWalk.settleSplit { expander, file } walkRun walkRun.onSequence setting allowed
        ⟨done, stmt :: rest⟩).runFrom progress) := by
  induction allowed generalizing stmt progress with
  | zero =>
    unfold FileWalk.settleSplit
    simp only [Setting.stmt_cursor, site_cursor]
    cases hfirst : expander.firstBound? file.source
      (site setting.scope setting.span ⟨done, stmt :: rest⟩ stmt file.path) stmt.ownCalls with
    | error error => exact follows_of_last_step (comesTo_step_of_error hfirst progress)
    | ok next =>
      cases next with
      | none => exact follows_settled hfollowed hadvances setting done rest stmt progress hfirst
      -- the machine knows no limit
      | some bound => exact .inl (.depthLimit _ _ _ _)
  | succ allowed ih =>
    unfold FileWalk.settleSplit
    simp only [Setting.stmt_cursor, site_cursor]
    -- both look for the same call
    cases hfirst : expander.firstBound? file.source
      (site setting.scope setting.span ⟨done, stmt :: rest⟩ stmt file.path) stmt.ownCalls with
    | error error => exact follows_of_last_step (comesTo_step_of_error hfirst progress)
    | ok next =>
      cases next with
      | none => exact follows_settled hfollowed hadvances setting done rest stmt progress hfirst
      | some bound =>
        cases hdepth : decide (setting.depth ≤ expander.config.maxDepth) with
        | false => exact .inl (.depthLimit _ _ _ _)
        | true =>
          simp only [ExpandM.require_ok, pure_bind]
          rcases hcall : (ExpandM.located bound.site.call.span file.source
            (expander.expandCall file.source bound)).runFrom progress with ⟨stop | placement, middle⟩
          · rw [ExpandM.runFrom_bind_of_error hcall]
            refine follows_of_last_step ?_
            rw [funext (stepWith_of_bound hfirst)]
            exact .bind_error (.const hcall)
          · rw [ExpandM.runFrom_bind_of_ok hcall]
            refine follows_placeSplit hfollowed (fun stmt => ih stmt middle) ?_
            rw [funext (stepWith_of_bound hfirst)]
            exact .bind (.const hcall) (.const rfl)

/-- The statements of a parted sequence are followed one after the other. -/
theorem follows_walkSplit {walkRun : SplitWalk σ} (hfollowed : Followed expander file walkRun)
    (hadvances : walkRun.Advances) (setting : Setting) (tail steps : Nat) (split : Split)
    (progress : Progress σ) :
    Follows expander file setting.scope setting.span split progress
      ((FileWalk.walkSplit { expander, file } walkRun walkRun.onSequence setting tail steps
        split).runFrom progress) := by
  induction steps generalizing split progress with
  | zero => exact fun _ houtcome => houtcome
  | succ steps ih =>
    unfold FileWalk.walkSplit
    split
    · -- the machine does not ask the host
      have hpoll := ExpandM.runFrom_checkCancelled progress
      cases hcancelled : progress.session.cancelled with
      | true =>
        rw [hcancelled, if_pos rfl] at hpoll
        rw [ExpandM.runFrom_bind_of_error hpoll]
        exact .inl .cancelled
      | false =>
        rw [hcancelled, if_neg Bool.false_ne_true] at hpoll
        rw [ExpandM.runFrom_bind_of_ok hpoll]
        obtain ⟨done, todo⟩ := split
        cases todo with
        | nil => exact absurd ‹tail < _› (Nat.not_lt_zero tail)
        | cons stmt rest =>
          exact follows_followedBy
            (follows_settleSplit hfollowed hadvances setting _ done rest stmt progress)
            fun last ended _ => ih last ended
    · exact fun _ houtcome => houtcome

/-- The walk of a parted sequence is followed. -/
theorem followed_splitWalk (expander : Expander) (file : FileOrigin) (nesting : Nat) :
    Followed expander file (FileWalk.splitWalk (σ := σ) { expander, file } nesting) := by
  induction nesting with
  | zero => exact fun _ _ _ _ => .inl .exhausted
  | succ nesting ih =>
    exact fun setting tail split progress =>
      follows_walkSplit ih (FileWalk.splitWalk_advances _ nesting) setting tail _ split progress

end Worklist

/-- The walk of a whole sequence is refined by the machine. -/
theorem Worklist.refines_walk {σ : Type} (expander : Expander) (file : FileOrigin)
    (nesting : Nat) (scope : Scope) (depth : Nat) (span : Span) (statements : List Stmt) :
    Refines (Flow.Related fun walked result => walked.statements = result)
      (FileWalk.walk (σ := σ) { expander, file } nesting scope depth span statements 0
        statements.length)
      fun fuel => run expander file fuel scope span ⟨[], statements⟩ := by
  rw [expander.walk_whole]
  exact refines_onSequence (followed_splitWalk expander file nesting)
    (FileWalk.splitWalk_advances _ nesting) scope depth span statements

/-- A walk of a whole sequence comes to what the machine comes to with enough fuel, unless one of its
bounds or the host ends it: to the same statements, the same replacement of the function or the same
error, with the same progress. In doing so both invoke the same macros at the same sites in the same
order. -/
theorem walk_refines_worklist {σ : Type} (expander : Expander) (file : FileOrigin) (nesting : Nat)
    (scope : Scope) (depth : Nat) (span : Span) (statements : List Stmt) (progress : Progress σ) :
    let walked := (FileWalk.walk { expander, file } nesting scope depth span statements 0
      statements.length).runFrom progress
    let walkedOnRecord := (FileWalk.walk { expander, file } nesting scope depth span statements 0
      statements.length).runFrom progress.recorded
    (∃ stop, walked.1 = .error stop ∧ stop.IsBound) ∨
      ∃ enough, ∀ fuel, enough ≤ fuel →
        (Worklist.run expander file fuel scope span ⟨[], statements⟩).runFrom progress =
          (walked.1.map (Flow.map Walked.statements), walked.2) ∧
        ((Worklist.run expander file fuel scope span ⟨[], statements⟩).runFrom
          progress.recorded).2.invocations = walkedOnRecord.2.invocations := by
  intro walked walkedOnRecord
  have hrefines := (Worklist.refines_walk expander file nesting scope depth span
    statements).run_eq progress
  have hrefinesOnRecord := (Worklist.refines_walk expander file nesting scope depth span
    statements).run_eq progress.recorded
  obtain ⟨later, -, hrecorded⟩ := FileWalk.walk_recorded (σ := σ) expander file nesting scope depth
    span statements progress []
  rcases hrefines with hbound | ⟨first, hfirst⟩
  · exact .inl hbound
  rcases hrefinesOnRecord with hbound | ⟨second, hsecond⟩
  · -- the walk on record ends like the walk
    rw [hrecorded] at hbound
    exact .inl hbound
  · refine .inr ⟨max first second, fun fuel hfuel => ⟨hfirst fuel (by omega), ?_⟩⟩
    rw [hsecond fuel (by omega)]

/-! ### A run that reaches beyond its end -/

/-- A macro that captures a statement. -/
def echoMacro : MethodSymbol where
  id := ⟨0⟩
  declaringType := "Meta"
  name := "Echo"
  params := [{ name := "body", type := .statement, default := some .null }, .quote "quote"]

/-- The macro writes the captured statement twice. -/
def expandEcho (invocation : Invocation) : BodyM Unit Unit := do
  let body ← BodyM.require (invocation.statement 0)
  let quote ← BodyM.require invocation.quote
  BodyM.emit quote (.stmt body)
  BodyM.emit quote (.stmt body)

/-- A macro that captures nothing. -/
def leadMacro : MethodSymbol where
  id := ⟨1⟩
  declaringType := "Meta"
  name := "Lead"
  params := [.quote "quote"]

/-- The macro writes a run that ends in a call of the other one. -/
def expandLead (invocation : Invocation) : BodyM Unit Unit := do
  let quote ← BodyM.require invocation.quote
  BodyM.emit quote (.stmt (.evaluate (.callOf "Log" [])))
  BodyM.emit quote (.stmt (.evaluate (.callOf "Echo" [])))

/-- The last call of an inserted run captures the statement behind the run. The walk, which walks the
run by itself and counts what it took beyond it, and the machine, which goes on in one sequence, come to
the same, and both calls are invoked with the same statements behind them. -/
theorem walk_refines_worklist_overrun :
    let expander : Expander :=
      { model := ((({} : SymbolTable).declare echoMacro).declare leadMacro).model }
    let file : FileOrigin := { path := "lead.cs", text := none }
    let scope : Scope := ⟨.topLevel, none⟩
    let progress : Progress Unit :=
      { session := { host := () }
        registry := (({} : Registry Unit).registerBody echoMacro expandEcho).registerBody leadMacro
          expandLead }
    let log := Stmt.evaluate (.callOf "Log" [])
    let behind := Stmt.ofExpr (.ofName "behind")
    let statements := [.evaluate (.callOf "Lead" []), behind, .nothing]
    let walked :=
      (FileWalk.walk { expander, file } 3 scope 0 default statements 0 3).runFrom progress
    walked.1 = .ok (.proceed ⟨[log, behind, behind, .nothing], 3⟩) ∧
      ∃ enough, ∀ fuel, enough ≤ fuel →
        ((Worklist.run expander file fuel scope default ⟨[], statements⟩).runFrom progress).1 =
          .ok (.proceed [log, behind, behind, .nothing]) ∧
        ((Worklist.run expander file fuel scope default ⟨[], statements⟩).runFrom
            progress.recorded).2.invocations.map (fun made => (made.1, made.2.site.following)) =
          [("Meta.Lead", [behind, .nothing]), ("Meta.Echo", [behind, .nothing])] := by
  intro expander file scope progress log behind statements walked
  have hwalked : walked.1 = .ok (.proceed ⟨[log, behind, behind, .nothing], 3⟩) := by
    subst expander file scope progress log behind statements walked
    cbv
  have hinvoked : ((FileWalk.walk { expander, file } 3 scope 0 default statements 0 3).runFrom
      progress.recorded).2.invocations.map (fun made => (made.1, made.2.site.following)) =
        [("Meta.Lead", [behind, .nothing]), ("Meta.Echo", [behind, .nothing])] := by
    subst expander file scope progress log behind statements walked
    cbv
  refine ⟨hwalked, ?_⟩
  rcases walk_refines_worklist expander file 3 scope 0 default statements progress with
    ⟨stop, hstop, -⟩ | ⟨enough, hsame⟩
  · cases hwalked.symm.trans hstop
  · refine ⟨enough, fun fuel hfuel => ?_⟩
    obtain ⟨hmachine, hinvocations⟩ := hsame fuel hfuel
    constructor
    · rw [hmachine]
      exact congrArg (Except.map (Flow.map Walked.statements)) hwalked
    · rw [hinvocations]
      exact hinvoked

end MacroExpansion
