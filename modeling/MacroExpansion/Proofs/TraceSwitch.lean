import MacroExpansion.Proofs.InStep

/-! # Recording the trace or not

Nothing that an expansion does depends on the steps that it has recorded. So an expansion that records
none is the one that records them all, with the trace left out. -/

namespace MacroExpansion

variable {σ : Type} {expander : Expander}

/-- The same settings, with the trace recorded or not. -/
def Expander.withTrace (expander : Expander) (recordTrace : Bool) : Expander :=
  { expander with config := { expander.config with recordTrace } }

/-- A progress without its trace. -/
def Progress.withoutTrace (progress : Progress σ) : Progress σ :=
  { progress with trace := #[] }

/-- An expanded file, with its trace kept or left out. -/
def Expansion.traceIf (expansion : Expansion) (recordTrace : Bool) : Expansion :=
  { expansion with trace := if recordTrace then expansion.trace else [] }

/-- Programs and those that do the same without a trace. -/
def WalkRelation.untraced : WalkRelation σ σ :=
  .inStep (fun progress other => other = progress.withoutTrace)
    (ExpandM.SameStop fun progress other => other = progress.withoutTrace)

/-- A call is expanded alike with and without the trace. -/
theorem Expander.expandCall_untraced (expander : Expander) (source : Option SourceText)
    (bound : BoundCall) :
    WalkRelation.untraced.Rel ((expander.withTrace true).expandCall (σ := σ) source bound)
      ((expander.withTrace false).expandCall source bound) := by
  unfold expandCall
  refine .bind (.of_map fun _ => rfl) fun _ => .bind (.of_map fun progress => ?_)
    fun implementation => .bind (.require_same _) fun typeArgs => .bind (.of_map fun progress => ?_)
      fun output => .bind (.require_same _) fun fragments => .bind (.require_same _)
        fun placement => ?_
  · rw [ExpandM.runFrom_resolve, ExpandM.runFrom_resolve]
    rfl
  · rw [ExpandM.runFrom_runBody, ExpandM.runFrom_runBody]
    rfl
  · -- the step that is recorded is left out again
    have hrecord (step : ExpansionStep) :
        WalkRelation.untraced.Rel (ExpandM.record (σ := σ) step) (pure ()) := .of_map fun _ => rfl
    exact .bind (hrecord _) fun _ => .pure placement

/-- The steps of an expansion are the same with and without the trace. -/
theorem Expander.covers_untraced (expander : Expander) (file : FileOrigin) :
    (WalkRelation.untraced (σ := σ)).Covers { expander := expander.withTrace true, file }
      { expander := expander.withTrace false, file } := by
  refine WalkRelation.covers_inStep rfl rfl ?_ (fun _ _ _ _ hframe => ⟨rfl, hframe⟩) fun _ =>
    .located_same (expander.expandCall_untraced file.source _) _ _
  rintro progress _ rfl
  rfl

/-- Whether the trace is recorded or not makes no difference but for the trace. -/
theorem Expander.expandWithin_withTrace (expander : Expander) (recordTrace : Bool) (nesting : Nat)
    (tree : SyntaxTree) (workspace : Workspace σ) :
    (expander.withTrace recordTrace).expandWithin nesting tree workspace =
      (((expander.withTrace true).expandWithin nesting tree workspace).1.map (·.traceIf recordTrace),
        ((expander.withTrace true).expandWithin nesting tree workspace).2) := by
  cases recordTrace with
  | true =>
    rcases (expander.withTrace true).expandWithin nesting tree workspace with
      ⟨stop | expansion, left⟩ <;> rfl
  | false =>
    have hitems : WalkRelation.untraced.Rel
        (itemsProgram (σ := σ) (·.walk nesting) (expander.withTrace true) tree)
        (itemsProgram (·.walk nesting) (expander.withTrace false) tree) :=
      itemsProgram_sideBySide (expander.covers_untraced _) rfl nesting
    have hrun := hitems.runFrom_map { toWorkspace := workspace }
    change ExpandM.runFrom _ { toWorkspace := workspace } = _ at hrun
    unfold expandWithin
    rw [expandBy_eq, expandBy_eq]
    dsimp only
    rw [hrun]
    rcases (itemsProgram (σ := σ) (·.walk nesting) (expander.withTrace true) tree).runFrom
      { toWorkspace := workspace } with ⟨stop | items, ended⟩ <;> rfl

/-- An expansion is the one with the trace recorded, with the trace left out if it records none. -/
theorem Expander.expandWithin_eq_traced (expander : Expander) (nesting : Nat) (tree : SyntaxTree)
    (workspace : Workspace σ) :
    expander.expandWithin nesting tree workspace =
      (((expander.withTrace true).expandWithin nesting tree workspace).1.map
          (·.traceIf expander.config.recordTrace),
        ((expander.withTrace true).expandWithin nesting tree workspace).2) :=
  expander.expandWithin_withTrace expander.config.recordTrace nesting tree workspace

end MacroExpansion
