import Mathlib.Data.List.Induction
import MacroExpansion.Call.Invocation

/-! # The life of a call binding

Everything that one thread does with the call binding is a sequence of `BindingStep`s: scopes are
entered and ended, replacements are asked for, and macros are invoked, in a scope or outside of one.
A binding that is active after such a sequence is that of the last scope that was entered while none
was open, with what was last asked for since then (`active_after_iff`). Nothing from an earlier scope
is left in it. -/

namespace MacroExpansion

variable {σ : Type}

/-- What a thread can do with the call binding. -/
inductive BindingStep (σ : Type) where
  /-- A scope is entered for a call. -/
  | enter (site : Site)
  /-- The open scope is ended for its replacement. -/
  | exit
  /-- The open scope is given up. -/
  | drop
  /-- The call is to become an expression. -/
  | replaceExpression (expr : Expr)
  /-- The statement of the call is to become other statements. -/
  | replaceStatements (statements : List Stmt)
  /-- Somebody asks for the published call. -/
  | look
  /-- A macro is invoked. -/
  | invoke (implementation : Implementation σ) (invocation : Invocation) (config : ExpansionConfig)
      (source : Option SourceText) (buffers : Buffers)

/-- What the thread gets in return. -/
inductive BindingReply where
  /-- It is done. -/
  | done
  /-- It is refused. -/
  | refused (error : ExpansionError)
  /-- A scope was ended with a replacement. -/
  | handedOut (replacement : List Fragment)
  /-- The place of the published call. -/
  | seen (site : Option Site)
  /-- What came of a macro. -/
  | came (outcome : Except Stop (List Fragment))

/-- A change of the binding that may be refused. -/
def Session.rebind (session : Session σ) (change : Except ExpansionError CallBinding) :
    BindingReply × Session σ :=
  match change with
  | .ok binding => (.done, { session with binding })
  | .error error => (.refused error, session)

namespace BindingStep

/-- What a step does to the session of its thread. -/
def run (step : BindingStep σ) (session : Session σ) : BindingReply × Session σ :=
  match step with
  | enter site => session.rebind (session.binding.enter site)
  | exit => (.handedOut session.binding.exit.1, { session with binding := session.binding.exit.2 })
  | drop => (.done, { session with binding := session.binding.close })
  | replaceExpression expr => session.rebind (session.binding.replaceWithExpression expr)
  | replaceStatements statements => session.rebind (session.binding.replaceWithStatements statements)
  | look => (.seen session.binding.site?, session)
  | invoke implementation invocation config source buffers =>
      let invoked := MacroExpansion.invoke implementation invocation config source buffers session
      (.came invoked.outcome, invoked.session)

/-- The step ends a scope. -/
def EndsScope : BindingStep σ → Prop
  | exit | drop => True
  | _ => False

/-- The replacement that the step asks for. -/
def write? : BindingStep σ → Option (List Fragment)
  | replaceExpression expr => some [.expr expr]
  | replaceStatements statements => some (statements.map .stmt)
  | _ => none

/-- The last replacement that steps ask for; none is an empty one. -/
def lastWrite (steps : List (BindingStep σ)) : List Fragment :=
  (steps.filterMap write?).getLast?.getD []

/-- Without any step nothing is asked for. -/
@[simp] theorem lastWrite_nil : lastWrite ([] : List (BindingStep σ)) = [] := rfl

/-- The last step counts if it asks for something. -/
@[simp] theorem lastWrite_concat (steps : List (BindingStep σ)) (step : BindingStep σ) :
    lastWrite (steps ++ [step]) = step.write?.getD (lastWrite steps) := by
  unfold lastWrite
  rw [List.filterMap_append]
  cases hwrite : step.write? with
  | none => simp [hwrite]
  | some replacement => simp [hwrite]

end BindingStep

/-- The session of a thread after steps. -/
def Session.after (session : Session σ) (steps : List (BindingStep σ)) : Session σ :=
  steps.foldl (fun session step => (step.run session).2) session

namespace Session

variable {session : Session σ} {steps : List (BindingStep σ)} {step : BindingStep σ}

/-- Steps are taken one part after the other. -/
@[simp] theorem after_append (session : Session σ) (first second : List (BindingStep σ)) :
    session.after (first ++ second) = (session.after first).after second :=
  List.foldl_append

/-- One step is taken as it is run. -/
@[simp] theorem after_singleton (session : Session σ) (step : BindingStep σ) :
    session.after [step] = (step.run session).2 := rfl

end Session

/-! ## Single steps -/

namespace CallBinding

variable {binding : CallBinding} {site : Site} {active : ActiveCall}

/-- While a call is active no other one is entered. -/
theorem enter_of_active (h : binding.active = some active) (site : Site) :
    binding.enter site = .error (.unlocated (.reentered site.call.callee)) := by
  rw [enter, h]

/-- A call is entered when none is active. -/
theorem enter_of_inactive (h : binding.active = none) (site : Site) :
    binding.enter site = .ok ⟨some { site }⟩ := by
  rw [enter, h]

/-- A replacement is asked for the active call. -/
theorem replaceWith_of_active (h : binding.active = some active) (replacement : List Fragment) :
    binding.replaceWith replacement = .ok ⟨some { active with replacement }⟩ := by
  rw [replaceWith, h]

/-- Without an active call no replacement can be asked for. -/
theorem replaceWith_of_inactive (h : binding.active = none) (replacement : List Fragment) :
    binding.replaceWith replacement = .error (.unlocated .noActiveCall) := by
  rw [replaceWith, h]

end CallBinding

/-- A macro that is invoked in an open scope is refused and leaves everything as it is. -/
theorem invoke_of_active (implementation : Implementation σ) (invocation : Invocation)
    (config : ExpansionConfig) (source : Option SourceText) (buffers : Buffers)
    {session : Session σ} (h : session.binding.isActive = true) :
    invoke implementation invocation config source buffers session =
      { outcome := .error (.error (.unlocated (.reentered invocation.site.call.callee)))
        buffers, session } := by
  obtain ⟨active, hactive⟩ := Option.isSome_iff_exists.mp h
  rw [invoke, CallBinding.enter_of_active hactive]

/-- However a body ends, the binding is what it was before. -/
theorem binding_invoke (implementation : Implementation σ) (invocation : Invocation)
    (config : ExpansionConfig) (source : Option SourceText) (buffers : Buffers)
    (session : Session σ) :
    (invoke implementation invocation config source buffers session).session.binding =
      session.binding := by
  obtain ⟨⟨active⟩, cancelled, host⟩ := session
  cases active with
  | some active => rfl
  | none => rfl

namespace BindingStep

variable {session : Session σ} {active : ActiveCall}

/-- In an open scope every step but its end keeps the scope; only what it asks for is put down. -/
theorem active_run_of_active (h : session.binding.active = some active) {step : BindingStep σ}
    (hends : ¬step.EndsScope) :
    (step.run session).2.binding.active =
      some { active with replacement := step.write?.getD active.replacement } := by
  cases step with
  | enter site =>
    rw [run, CallBinding.enter_of_active h]
    exact h
  | exit => exact absurd True.intro hends
  | drop => exact absurd True.intro hends
  | replaceExpression expr =>
    rw [run, CallBinding.replaceWithExpression, CallBinding.replaceWith_of_active h]
    rfl
  | replaceStatements statements =>
    rw [run, CallBinding.replaceWithStatements, CallBinding.replaceWith_of_active h]
    rfl
  | look => exact h
  | invoke implementation invocation config source buffers =>
    have hactive : session.binding.isActive = true := Option.isSome_iff_exists.mpr ⟨active, h⟩
    rw [run, invoke_of_active implementation invocation config source buffers hactive]
    exact h

/-- While no scope is open, only entering opens one. -/
theorem active_run_of_inactive (h : session.binding.active = none) (step : BindingStep σ) :
    (step.run session).2.binding.active =
      match step with
      | .enter site => some { site }
      | _ => none := by
  cases step with
  | enter site =>
    rw [run, CallBinding.enter_of_inactive h]
    rfl
  | exit => rfl
  | drop => rfl
  | replaceExpression expr =>
    rw [run, CallBinding.replaceWithExpression, CallBinding.replaceWith_of_inactive h]
    exact h
  | replaceStatements statements =>
    rw [run, CallBinding.replaceWithStatements, CallBinding.replaceWith_of_inactive h]
    exact h
  | look => exact h
  | invoke implementation invocation config source buffers =>
    rw [run, binding_invoke]
    exact h

/-- The end of a scope leaves none open. -/
theorem active_run_of_endsScope {step : BindingStep σ} (h : step.EndsScope) (session : Session σ) :
    (step.run session).2.binding.active = none := by
  cases step with
  | exit => rfl
  | drop => rfl
  | _ => exact h.elim

end BindingStep

/-! ## Sequences -/

open BindingStep

/-- A scope is opened by the steps, and it stays open: it was entered while none was open and not ended
since. -/
def BindingStep.Opens (steps : List (BindingStep σ)) (session : Session σ) (active : ActiveCall) :
    Prop :=
  ∃ before site during, steps = before ++ .enter site :: during ∧
    (session.after before).binding.active = none ∧ (∀ step ∈ during, ¬step.EndsScope) ∧
    active = { site, replacement := lastWrite during }

namespace Session

variable {session : Session σ} {steps : List (BindingStep σ)}

/-- A scope stays open until it is ended, with what was last asked for in it. -/
theorem active_after {site : Site} (h : session.binding.active = some { site })
    (hsteps : ∀ step ∈ steps, ¬step.EndsScope) :
    (session.after steps).binding.active = some { site, replacement := lastWrite steps } := by
  induction steps using List.reverseRecOn with
  | nil => exact h
  | append_singleton steps step ih =>
    have hactive := ih fun other hother => hsteps other (List.mem_append_left _ hother)
    rw [after_append, after_singleton, active_run_of_active hactive (hsteps step (by simp)),
      lastWrite_concat]

/-- A scope that was entered while none was open stays open until it is ended. -/
theorem active_after_of_entered {before during : List (BindingStep σ)} {site : Site}
    (hbefore : (session.after before).binding.active = none)
    (hduring : ∀ step ∈ during, ¬step.EndsScope) :
    (session.after (before ++ .enter site :: during)).binding.active =
      some { site, replacement := lastWrite during } := by
  rw [after_append, ← List.singleton_append, after_append, after_singleton]
  exact active_after (active_run_of_inactive hbefore (.enter site)) hduring

/-- What is open after steps is what they opened. -/
theorem active_after_iff (hidle : session.binding.active = none) {active : ActiveCall} :
    (session.after steps).binding.active = some active ↔ Opens steps session active := by
  refine ⟨fun h => ?_, ?_⟩
  · induction steps using List.reverseRecOn generalizing active with
    | nil =>
      rw [show session.after [] = session from rfl, hidle] at h
      cases h
    | append_singleton steps step ih =>
      rw [after_append, after_singleton] at h
      cases hopen : (session.after steps).binding.active with
      | none =>
        -- nothing was open, so this step entered the scope
        rw [active_run_of_inactive hopen] at h
        cases step with
        | enter site =>
          cases h
          exact ⟨steps, site, [], rfl, hopen, fun _ hmem => absurd hmem List.not_mem_nil, rfl⟩
        | _ => cases h
      | some open' =>
        have hends : ¬step.EndsScope := by
          intro hends
          rw [active_run_of_endsScope hends] at h
          cases h
        rw [active_run_of_active hopen hends] at h
        obtain ⟨before, site, during, rfl, hbefore, hduring, rfl⟩ := ih hopen
        refine ⟨before, site, during ++ [step], by simp, hbefore, ?_, ?_⟩
        · exact List.forall_mem_append.mpr ⟨hduring, List.forall_mem_singleton.mpr hends⟩
        · rw [lastWrite_concat]
          exact (Option.some.inj h).symm
  · rintro ⟨before, site, during, rfl, hbefore, hduring, rfl⟩
    exact active_after_of_entered hbefore hduring

end Session

/-! ## Macro bodies -/

/-- A session in which a call is published. -/
def Session.publishing (session : Session σ) (site : Site) : Session σ :=
  { session with binding := ⟨some { site }⟩ }

/-- From a state on, a body does with the binding what the steps do, whatever else it does, and
ends. -/
def BodyM.Takes (body : BodyM σ Unit) (start : BodyState σ) (steps : List (BindingStep σ))
    (ended : Except Halt Unit) : Prop :=
  (body.run.run start).1 = ended ∧
    (body.run.run start).2.session.binding = (start.session.after steps).binding

/-- What an invocation hands out is what its body last asked for, and that only if the body ends
normally. -/
theorem invoke_of_takes {implementation : Implementation σ} {invocation : Invocation}
    {source : Option SourceText} {buffers : Buffers} {session : Session σ}
    {steps : List (BindingStep σ)} {ended : Except Halt Unit} (config : ExpansionConfig)
    (hidle : session.binding.active = none) (hsteps : ∀ step ∈ steps, ¬step.EndsScope)
    (hbody : (implementation.body invocation).Takes
      { buffers, session := session.publishing invocation.site } steps ended) :
    (invoke implementation invocation config source buffers session).outcome.toOption =
      ended.toOption.map fun _ => lastWrite steps := by
  obtain ⟨hended, hbinding⟩ := hbody
  have hactive := Session.active_after
    (show (session.publishing invocation.site).binding.active = some { site := invocation.site }
      from rfl) hsteps
  rcases hrun : (implementation.body invocation).run.run
    { buffers, session := session.publishing invocation.site } with ⟨outcome, state⟩
  rw [hrun] at hended hbinding
  rw [← hbinding] at hactive
  dsimp only at hactive hended
  rw [invoke, CallBinding.enter_of_inactive hidle]
  dsimp only
  rw [show ({ session with binding := ⟨some { site := invocation.site }⟩ } : Session σ) =
    session.publishing invocation.site from rfl, hrun]
  simp only [CallBinding.exit, hactive, ← hended]
  cases outcome with
  | ok => rfl
  | error halt =>
    cases halt with
    | failure text => rfl
    | panic payload => cases config.catchPanics <;> rfl

end MacroExpansion
