import MacroExpansion.Proofs.DepthLimit
import MacroExpansion.Proofs.Recording

/-! # Calls stay in their statements

The walk reports itself to be at fault if the call that it has expanded is not found in its
statement, or if a function is to come in place of code that has no function around it. It never has
to: it expands a call right where it collected the call from, replacing finds whatever collecting
finds, and a function is placed only where the site of the call shows one. -/

namespace MacroExpansion

/-- The causes for which the walk has lost track of its calls or of its function. -/
def Fault.IsOfLoss : Fault → Prop
  | .callVanished _ | .functionEscaped _ => True
  | _ => False

/-- A way to stop without having lost track. -/
def Stop.KeepsTrack (stop : Stop) : Prop :=
  ∀ failure, stop = .error (.failed failure) → ¬failure.fault.IsOfLoss

variable {σ : Type}

/-- Walks keep track of their calls, and replace a function only where there is one. -/
def WalkSpec.keepsTrack : WalkSpec σ where
  inv _ := True
  stops := Stop.KeepsTrack
  pending _ _ _ _ := True
  replaces scope _ := scope.function.isSome

/-- An error at a place keeps track if its cause is none of a loss. -/
theorem Stop.keepsTrack_atSpan {fault : Fault} (h : ¬fault.IsOfLoss) (span : Span)
    (source : Option SourceText) : Stop.KeepsTrack (.error (.atSpan fault span source)) := by
  intro failure he
  cases he
  exact h

/-- The errors of calls keep track. -/
theorem ExpansionError.IsOfCall.keepsTrack {source : Option SourceText} {error : ExpansionError}
    (h : error.IsOfCall source) : Stop.KeepsTrack (.error error) := by
  obtain ⟨fault, span, rfl, hfault⟩ := h
  refine Stop.keepsTrack_atSpan (fun hloss => hfault ?_) span source
  cases fault <;> first | exact hloss | exact True.intro

/-- Whatever ends the expansion of a call keeps track. -/
theorem Stop.IsOfCall.keepsTrack {config : ExpansionConfig} {source : Option SourceText}
    {registry : Registry σ} {stop : Stop} (h : stop.IsOfCall config source registry) :
    stop.KeepsTrack := by
  cases h with
  | error herror => exact herror.keepsTrack
  | panic => exact fun _ he => nomatch he

/-- Fragments become a function only if there is no other, and at a site that shows one. -/
theorem Placement.of_fragments_function {symbol : MethodSymbol} {site : Site}
    {fragments : List Fragment} {decl : FunctionDecl}
    (h : ofFragments symbol site fragments = .ok (.function decl)) :
    fragments = [.function decl] ∧ site.function.isSome := by
  unfold ofFragments at h
  split at h
  · split at h
    · cases h
    · split at h <;> cases h
  · cases h
  · cases h
  · split at h
    · cases h
      exact ⟨rfl, ‹_›⟩
    · cases h
  · split at h <;> cases h

/-- A single function is placed, and only at a site that shows one. -/
theorem BoundCall.of_place_function {bound : BoundCall} {fragments : List Fragment}
    {decl : FunctionDecl} (h : bound.place fragments = .ok (.function decl)) :
    fragments = [.function decl] ∧ bound.site.function.isSome := by
  unfold place at h
  cases hplaced : Placement.ofFragments bound.symbol bound.site fragments with
  | error fault =>
    rw [hplaced] at h
    cases h
  | ok placement =>
    -- with or without captured statements, nothing but a function becomes a function
    have hfunction : placement = .function decl := by
      rw [hplaced] at h
      have hover := Except.ok.inj h
      split at hover
      · exact hover
      · cases placement <;> first | exact hover | cases hover
    exact Placement.of_fragments_function (hfunction ▸ hplaced)

namespace FileWalk

/-- The output of an own call of the statement at a cursor can be placed there. -/
theorem places_keepsTrack {walk : FileWalk σ} {cursor : Cursor} {bound : BoundCall} {allowed : Nat}
    (hcall : bound.site.call ∈ cursor.stmt.ownCalls)
    (hfunction : bound.site.function = cursor.function?) {fragments : List Fragment}
    {placement : Placement} (h : bound.place fragments = .ok placement) :
    walk.Places .keepsTrack cursor bound.site.call allowed placement := by
  cases placement with
  | empty | statement | splice => first | exact True.intro | exact fun _ _ => True.intro
  | inPlace expr =>
    have hfound : (cursor.stmt.replaceCall? bound.site.call expr).isSome :=
      Stmt.isSome_replaceCall? hcall
    obtain ⟨stmt, hstmt⟩ := Option.isSome_iff_exists.mp hfound
    simp only [Places, hstmt]
    exact True.intro
  | function decl =>
    have hsome := (BoundCall.of_place_function h).2
    rw [hfunction, Cursor.function?, Option.isSome_map] at hsome
    exact hsome

/-- The steps of an expansion keep track. -/
theorem obeys_keepsTrack (expander : Expander) (file : FileOrigin) :
    Obeys (σ := σ) { expander, file } .keepsTrack where
  exhausted := fun _ he => nomatch he
  poll _ := .checkCancelled fun _ he => nomatch he
  next := by
    intro cursor allowed _
    refine keeps_next_bound (fun error herror => herror.keepsTrack) ?_
    intro call hcall symbol bound _ hbind
    obtain ⟨-, hsite, -⟩ := BindingRules.bind_some hbind
    refine ⟨fun _ => Stop.keepsTrack_atSpan id _ _, fun _ => ?_⟩
    refine Expander.keeps_expandCall (fun _ _ _ hstop => hstop.keepsTrack) ?_ _
    intro progress ended placement _ houtcome
    cases houtcome with
    | placed _ _ _ hplace =>
      exact ⟨places_keepsTrack (hsite ▸ hcall) (hsite ▸ rfl) hplace, True.intro⟩
  nested _ _ _ _ := fun _ _ => True.intro
  outward {cursor _ _} h := by
    change (cursor.scope.function.map _).isSome at h
    rw [Option.isSome_map] at h
    exact h
  replaced _ := fun _ _ => True.intro
  replacedOften _ := Stop.keepsTrack_atSpan id _ _
  escaped hscope h := by
    change Option.isSome _ at h
    rw [hscope] at h
    cases h

end FileWalk

/-- No expansion ends because the walk has lost a call or a function. Wherever a macro is invoked, its
statement stands at its position and contains the call, so that an expression can always be put in
place of the call; and only a walk with a function around it ends by replacing the function. -/
theorem expansion_loses_no_call (expander : Expander) (nesting : Nat) (tree : SyntaxTree)
    (workspace : Workspace σ) :
    (∀ failure,
      (expander.expandWithin nesting tree workspace).1 = .error (.error (.failed failure)) →
        (∀ callee, failure.fault ≠ .callVanished callee) ∧
        ∀ name, failure.fault ≠ .functionEscaped name) ∧
    (∀ entry ∈ (expander.expandWithin nesting tree workspace.recorded).2.session.host.invocations,
      entry.2.site.block.statements[entry.2.site.index]? = some entry.2.site.statement ∧
        entry.2.site.call ∈ entry.2.site.statement.ownCalls ∧
        ∀ expr, (entry.2.site.statement.replaceCall? entry.2.site.call expr).isSome) ∧
    ∀ file scope depth span statements (progress ended : Progress σ) decl,
      (FileWalk.walk { expander, file } nesting scope depth span statements 0
        statements.length).runFrom progress = (.ok (.replaceFunction decl), ended) →
      scope.function.isSome := by
  refine ⟨fun failure hfailure => ?_, fun entry hentry => ?_, ?_⟩
  · have hinv : WalkSpec.keepsTrack.inv { toWorkspace := workspace } := True.intro
    have hkeeps := Expander.expandBy_keeps (Expander.itemsProgram_keeps tree
      (FileWalk.obeys_keepsTrack expander _) nesting fun item _ => item.allStmts_trivial) hinv
    rw [Expander.expandWithin] at hfailure
    rw [hfailure] at hkeeps
    have htrack : ¬failure.fault.IsOfLoss := hkeeps failure rfl
    exact ⟨fun _ he => htrack (he ▸ True.intro), fun _ he => htrack (he ▸ True.intro)⟩
  · obtain ⟨later, hlater, hrun⟩ := expander.expandWithin_recorded nesting tree workspace []
    rw [hrun] at hentry
    have hbinds := hlater entry hentry
    exact ⟨hbinds.statement, hbinds.call, fun _ => Stmt.isSome_replaceCall? hbinds.call⟩
  · intro file scope depth span statements progress ended decl hrun
    have hkeeps := FileWalk.walk_meets (FileWalk.obeys_keepsTrack (σ := σ) expander file) nesting scope
      depth span statements 0 statements.length (Nat.le_refl _) (fun _ _ => True.intro) progress
      True.intro
    rw [hrun] at hkeeps
    exact hkeeps.1 decl rfl

/-- What is invoked in a statement with two calls: the names of the macros with what they received. -/
def twoCallsInvocations : List (String × Invocation) :=
  ((oneExpander 2).expandWithin 4 twoCallsFile oneWorkspace.recorded).2.session.host.invocations

/-- Both calls are found in the statement, the second one once the first has become a value. -/
theorem expansion_loses_no_call_two :
    twoCallsInvocations.length = 2 ∧ ∀ entry ∈ twoCallsInvocations,
      (entry.2.site.statement.replaceCall? entry.2.site.call (.ofInt 1)).isSome := by
  refine ⟨by cbv, fun entry hentry => ?_⟩
  exact ((expansion_loses_no_call (oneExpander 2) 4 twoCallsFile oneWorkspace).2.1 entry
    hentry).2.2 (.ofInt 1)

end MacroExpansion
