import MacroExpansion.Expansion.Files
import MacroExpansion.Proofs.WalkSpec

/-! # Reports of files

Every error that ends the expansion of a file stands at a place of the file and comes with its text:
the walk gives its own errors a place, and those of a call are located at the call. So a file that
fails is reported by one error in it, a file that is expanded by warnings in it, and no file by
both. -/

namespace MacroExpansion

variable {σ : Type}

/-- The record is a warning about a place of the file. -/
def DiagnosticRecord.IsWarningIn (path : String) (record : DiagnosticRecord) : Prop :=
  record.severity = .warning ∧ ∃ span, record.location = some { file := path, span }

/-- Placeholders are warned about at the call that received them. -/
theorem BoundCall.isWarningIn_placeholderWarnings (bound : BoundCall) :
    ∀ warning ∈ bound.placeholderWarnings, warning.IsWarningIn bound.site.file := by
  intro warning hwarning
  obtain ⟨parameter, -, rfl⟩ := List.mem_map.mp hwarning
  exact ⟨rfl, bound.site.call.span, rfl⟩

/-- The ways in which the expansion of a file may end early, when it began with a registry. -/
inductive Stop.EndsFile (config : ExpansionConfig) (source : Option SourceText)
    (registry : Registry σ) : Stop → Prop where
  /-- By an error at a place of the file. -/
  | failed (fault : Fault) (span : Span) :
      EndsFile config source registry (.error (.atSpan fault span source))
  /-- On the demand of the host. -/
  | cancelled : EndsFile config source registry (.error .cancelled)
  /-- By a panic of a macro body, when panics are not caught. -/
  | panic {implementation : Implementation σ} {payload : Option String}
      (hcatch : config.catchPanics = false) (hhas : registry.Has implementation)
      (h : implementation.Panics payload) : EndsFile config source registry (.panic payload)
  /-- By the bound on nested walks. -/
  | exhausted : EndsFile config source registry .exhausted

/-- Whatever is walked, the warnings are warnings of the file, the implementations are those that
were there, and the walk ends as the expansion of a file may. -/
def reportSpec (config : ExpansionConfig) (file : FileOrigin) (registry : Registry σ) :
    WalkSpec σ where
  inv progress :=
    (∀ implementation, progress.registry.Has implementation → registry.Has implementation) ∧
      ∀ warning ∈ progress.warnings.toList, warning.IsWarningIn file.path
  stops := Stop.EndsFile config file.source registry
  pending _ _ _ _ := True
  replaces _ _ := True

namespace FileWalk

variable {expander : Expander} {file : FileOrigin} {registry : Registry σ}

/-- All that a call may come to is as specified, wherever it is placed. -/
theorem places_reportSpec (cursor : Cursor) (call : Call) (allowed : Nat) (placement : Placement) :
    Places { expander, file } (reportSpec expander.config file registry) cursor call allowed
      placement := by
  cases placement with
  | inPlace expr =>
    dsimp only [Places]
    cases cursor.stmt.replaceCall? call expr with
    | some stmt => exact True.intro
    | none => exact .failed _ _
  | splice run => exact fun _ _ => True.intro
  | _ => exact True.intro

/-- A call of the file is expanded as specified. -/
theorem expands_reportSpec {cursor : Cursor} {bound : BoundCall} (hfile : bound.site.file = file.path)
    (allowed : Nat) :
    Expands { expander, file } (reportSpec expander.config file registry) cursor bound allowed where
  limit _ := .failed _ _
  expand _ := by
    refine Expander.keeps_expandCall ?_ ?_ _
    · rintro progress ⟨hregistry, -⟩ stop hstop
      cases hstop with
      | error hcall =>
        obtain ⟨fault, span, rfl, -⟩ := hcall
        exact .failed fault span
      | panic hcatch hhas hpanics => exact .panic hcatch (hregistry _ hhas) hpanics
    · rintro progress ended placement ⟨hregistry, hwarnings⟩ houtcome
      refine ⟨places_reportSpec _ _ _ _, fun implementation hhas => ?_, fun warning hwarning => ?_⟩
      · exact hregistry implementation (houtcome.has hhas)
      · rw [houtcome.warnings_eq] at hwarning
        rcases List.mem_append.mp hwarning with hbefore | hnew
        · exact hwarnings warning hbefore
        · exact hfile ▸ bound.isWarningIn_placeholderWarnings warning hnew

/-- The steps of a walk end the expansion in no other way. -/
theorem obeys_reportSpec (expander : Expander) (file : FileOrigin) (registry : Registry σ) :
    Obeys { expander, file } (reportSpec expander.config file registry) where
  exhausted := .exhausted
  poll _ := .checkCancelled .cancelled
  next := by
    intro cursor allowed _
    refine keeps_next_bound ?_ fun call _ symbol bound _ hbind => expands_reportSpec ?_ allowed
    · rintro error ⟨fault, span, rfl, -⟩
      exact .failed fault span
    · rw [(BindingRules.bind_some hbind).2.1]
      rfl
  nested _ _ _ _ _ _ := True.intro
  outward _ := True.intro
  replaced _ _ _ := True.intro
  replacedOften _ := .failed _ _
  escaped _ _ span := .failed _ span

end FileWalk

/-- An expansion warns about the file, or it ends as the expansion of a file may. -/
theorem Expander.expandWithin_reports (expander : Expander) (nesting : Nat) (tree : SyntaxTree)
    (workspace : Workspace σ) :
    match (expander.expandWithin nesting tree workspace).1 with
    | .ok expansion => ∀ warning ∈ expansion.warnings, warning.IsWarningIn tree.path
    | .error stop => stop.EndsFile expander.config tree.sourceText workspace.registry := by
  have hkeeps := itemsProgram_keeps tree
    (FileWalk.obeys_reportSpec expander { path := tree.path, text := tree.source }
      workspace.registry) nesting fun item _ => item.allStmts_trivial
  have hrun := expandBy_keeps hkeeps ⟨fun _ => id, fun _ => (nomatch ·)⟩
  unfold expandWithin
  rcases hended : (expandBy (·.walk nesting) expander tree workspace).1 with stop | expansion
  all_goals rw [hended] at hrun
  · exact hrun
  · obtain ⟨-, ended, hinv, -, hwarnings⟩ := hrun
    intro warning hwarning
    rw [hwarnings] at hwarning
    exact hinv.2 warning hwarning

/-- A file is reported as a whole. An expanded one adds its own warnings, in their order, all of them
about places of the file; a failed one adds one error, which stands at a place of the file and comes
with its text, and none of the warnings that it had until then; a cancelled one adds nothing. A panic
goes through only where panics are not caught and a macro that can be reached does panic. -/
theorem file_is_reported_as_a_whole (expander : Expander) (tree : SyntaxTree)
    (reporting : ReportingWorkspace σ) :
    let result := (expander.expandFile tree reporting).1
    let before := reporting.sink.records
    let after := (expander.expandFile tree reporting).2.sink.records
    match (expander.expand tree reporting.toWorkspace).1 with
    | .ok expansion =>
        result = .ok (some expansion.tree) ∧ after = before ++ expansion.warnings ∧
          ∀ warning ∈ expansion.warnings, warning.severity = .warning ∧
            ∃ span, warning.location = some { file := tree.path, span }
    | .error (.error (.failed failure)) =>
        result = .ok none ∧
          ∃ span, failure.span = some span ∧
            failure.source = tree.source.map (fun text => { name := tree.path, text }) ∧
            after = before ++
              [{ severity := .error
                 code := failure.fault.kind.code
                 message := (ExpansionError.failed failure).text
                 location := some { file := tree.path, span } }]
    | .error (.error .cancelled) => result = .ok none ∧ after = before
    | .error (.panic payload) =>
        result = .error (.panic payload) ∧ after = before ∧ expander.config.catchPanics = false ∧
          ∃ implementation, reporting.registry.Has implementation ∧ implementation.Panics payload
    | .error .exhausted => result = .error .exhausted ∧ after = before := by
  intro result before after
  have hends := expander.expandWithin_reports Expander.nestingBound tree reporting.toWorkspace
  change match (expander.expand tree reporting.toWorkspace).1 with
    | .ok expansion => ∀ warning ∈ expansion.warnings, warning.IsWarningIn tree.path
    | .error stop => stop.EndsFile expander.config tree.sourceText reporting.registry at hends
  rcases hrun : expander.expand tree reporting.toWorkspace with ⟨stop | expansion, workspace⟩
  all_goals
    simp only [hrun] at hends
    simp only [result, after, before, Expander.expandFile, hrun, true_and]
  · cases hends with
    | failed fault span => exact ⟨rfl, span, rfl, rfl, rfl⟩
    | cancelled => exact ⟨rfl, rfl⟩
    | panic hcatch hhas hpanics => exact ⟨rfl, rfl, hcatch, _, hhas, hpanics⟩
    | exhausted => exact ⟨rfl, rfl⟩
  · exact ⟨DiagnosticSink.records_reportAll _ _, hends⟩

end MacroExpansion
