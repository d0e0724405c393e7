import MacroExpansion.Proofs.BodyYields
import MacroExpansion.Proofs.WalkRelation

/-! # Programs that come to the same wherever they are run

With local macros, what was brought about before a part of an expansion makes no difference to it
(`ExpandM.Unaffected`). Run once, it tells what it comes to from every steady progress, and what it adds
there (`ExpandM.Gives`, `ExpandM.Refuses`). So programs can be put together from what their parts come
to. -/

namespace MacroExpansion

variable {σ α β : Type}

namespace ExpandM

/-- From every steady progress the program comes to the same value, and adds the same steps and
warnings. -/
def Gives (rules : BindingRules) (start : Workspace σ) (program : ExpandM σ α) (value : α)
    (notes : Yield) : Prop :=
  ∀ progress : Progress σ, progress.IsSteady rules start →
    ∃ ended, program.runFrom progress = (.ok value, ended) ∧ progress.Adds rules start notes ended

/-- From every steady progress the program ends early in the same way. -/
def Refuses (rules : BindingRules) (start : Workspace σ) (program : ExpandM σ α) (stop : Stop) : Prop :=
  ∀ progress : Progress σ, progress.IsSteady rules start → (program.runFrom progress).1 = .error stop

/-- What is behind a progress makes no difference to the program. -/
def Unaffected (rules : BindingRules) (start : Workspace σ) (program : ExpandM σ α) : Prop :=
  ∀ trace warnings, Simulates (Progress.Trails rules start trace warnings) False Eq program program

variable {rules : BindingRules} {start : Workspace σ} {program : ExpandM σ α} {next : α → ExpandM σ β}
  {value : α} {result : β} {notes notes' : Yield} {stop : Stop} {progress ended : Progress σ}

namespace Gives

/-- Programs come to what their parts come to, one after the other. -/
theorem bind (h : Gives rules start program value notes)
    (hnext : Gives rules start (next value) result notes') :
    Gives rules start (program >>= next) result (notes ++ notes') := by
  intro progress hsteady
  obtain ⟨middle, hrun, hadds⟩ := h progress hsteady
  obtain ⟨ended, hrun', hadds'⟩ := hnext middle hadds.steady
  exact ⟨ended, (runFrom_bind_of_ok hrun).trans hrun', hadds.append hadds'⟩

/-- What is made of the value adds nothing. -/
theorem followed (h : Gives rules start program value notes) (hnext : next value = Pure.pure result) :
    Gives rules start (program >>= next) result notes := by
  intro progress hsteady
  obtain ⟨ended, hrun, hadds⟩ := h progress hsteady
  refine ⟨ended, ?_, hadds⟩
  rw [runFrom_bind_of_ok hrun, hnext]
  rfl

/-- A later part may refuse to go on. -/
theorem refuses_bind (h : Gives rules start program value notes)
    (hnext : Refuses rules start (next value) stop) : Refuses rules start (program >>= next) stop := by
  intro progress hsteady
  obtain ⟨middle, hrun, hadds⟩ := h progress hsteady
  rw [runFrom_bind_of_ok hrun]
  exact hnext middle hadds.steady

end Gives

/-- What a first part refuses is refused. -/
theorem Refuses.bind (h : Refuses rules start program stop) (next : α → ExpandM σ β) :
    Refuses rules start (program >>= next) stop := by
  intro progress hsteady
  rw [runFrom_bind_of_error (Prod.ext (h progress hsteady) rfl)]

namespace Unaffected

/-- A program that came to a value comes to it everywhere. -/
theorem gives (h : Unaffected rules start program) (hsteady : progress.IsSteady rules start)
    (hrun : program.runFrom progress = (.ok value, ended)) :
    ∃ notes, Gives rules start program value notes ∧ progress.Adds rules start notes ended := by
  -- what it comes to from a fresh start is what it comes to from all progresses that trail behind it
  have htrails := h _ _ _ progress hsteady.trails
  rw [hrun] at htrails
  rcases hfresh : program.runFrom { toWorkspace := start } with ⟨stop | value', fresh⟩
  all_goals rw [hfresh] at htrails
  · cases htrails.resolve_left id
  · obtain ⟨_, _, hsame, rfl, hadded⟩ := htrails
    cases hsame
    refine ⟨⟨[], fresh.trace.toList, fresh.warnings.toList⟩, fun other hother => ?_,
      hadded.adds rfl rfl⟩
    have hothers := h _ _ _ other hother.trails
    rw [hfresh] at hothers
    obtain ⟨_, ended', hrun', rfl, hadded'⟩ := hothers
    exact ⟨ended', hrun', hadded'.adds rfl rfl⟩

/-- A program that ended early does so everywhere. -/
theorem refuses (h : Unaffected rules start program) (hsteady : progress.IsSteady rules start)
    (hrun : (program.runFrom progress).1 = .error stop) : Refuses rules start program stop := by
  have htrails := h _ _ _ progress hsteady.trails
  rcases hfresh : program.runFrom { toWorkspace := start } with ⟨stop' | value', fresh⟩
  all_goals rw [hfresh] at htrails
  · obtain rfl := Except.error.inj ((htrails.resolve_left id).symm.trans hrun)
    intro other hother
    have hothers := h _ _ _ other hother.trails
    rw [hfresh] at hothers
    exact hothers.resolve_left id
  · obtain ⟨_, _, hsame, -⟩ := htrails
    rw [hsame] at hrun
    cases hrun

end Unaffected

end ExpandM

/-- Programs that are unaffected by what is behind them. -/
def WalkRelation.unaffected (rules : BindingRules) (start : Workspace σ) : WalkRelation σ σ where
  Rel program program' := ∀ trace warnings,
    ExpandM.Simulates (Progress.Trails rules start trace warnings) False Eq program program'
  pure _ _ _ := .pure rfl
  bind h hnext trace warnings := (h trace warnings).bind fun value _ hvalue => by
    subst hvalue
    exact hnext value trace warnings

/-- With local macros, the steps of an expansion are unaffected by what is behind them. -/
theorem Expander.covers_unaffected {expander : Expander} {start : Workspace σ}
    (hlocal : expander.rules.HasLocalMacros start.registry) (file : FileOrigin) :
    (WalkRelation.unaffected expander.rules start).Covers { expander, file } { expander, file } := by
  refine WalkRelation.covers_of_expansions rfl rfl (fun _ _ => .throw _) (fun _ _ _ _ => .throw _)
    (fun _ _ => (keepsFrame_trails hlocal file _ _).poll) ?_ ?_
  · intro site calls
    cases expander.firstBound? file.source site calls with
    | ok next => rfl
    | error error => exact ⟨error, rfl, fun _ _ => .throw _⟩
  · intro setting done rest stmt bound hbound trace warnings
    have hresembles : bound.Resembles expander.rules file.source bound := by
      obtain ⟨hleads, hbinds⟩ := binds_of_firstBound?_some (fun _ => rfl) hbound
      exact ⟨⟨rfl, rfl, rfl, rfl, rfl, fun _ => rfl⟩, (BindingRules.seenAt_of_bind hbinds).symm,
        hleads, hbinds, hbinds⟩
    exact ((keepsFrame_trails hlocal file trace warnings).expandCall hresembles).located _ _

end MacroExpansion
