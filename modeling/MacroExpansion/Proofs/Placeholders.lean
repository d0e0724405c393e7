import MacroExpansion.Proofs.Rewriting

/-! # Placeholders for missing arguments

A required parameter without an argument is an error, or it receives a placeholder that is warned
about, as the settings say. A call is bound without placeholders in one case just where it is bound at
all in the other one (`BindingRules.bind_strict_iff`). `ExpandM.Relaxes` says of two programs that
the first one comes to a result just where the second one comes to it without adding a warning; as
warnings are never taken back, it composes along `bind`, and so it holds of whole expansions. -/

namespace MacroExpansion

variable {σ : Type}

/-- The same rules with another policy for missing arguments. -/
def BindingRules.withMissing (rules : BindingRules) (missing : MissingArgumentPolicy) :
    BindingRules :=
  { rules with missing }

/-- The same settings with another policy for missing arguments. -/
def Expander.withMissing (expander : Expander) (missingArguments : MissingArgumentPolicy) :
    Expander :=
  { expander with config := { expander.config with missingArguments } }

/-- Of two values, the first one is there just where the second one is and has a property. -/
theorem except_strict_cases {ε α : Type} {P : α → Prop} {strict lenient : Except ε α}
    (h : ∀ value, strict = .ok value ↔ lenient = .ok value ∧ P value) :
    (∃ error error', strict = .error error ∧ lenient = .error error') ∨
      (∃ value, strict = .ok value ∧ lenient = .ok value ∧ P value) ∨
        ∃ error value, strict = .error error ∧ lenient = .ok value ∧ ¬P value := by
  cases strict with
  | ok value =>
    obtain ⟨hlenient, hvalue⟩ := (h value).mp rfl
    exact .inr (.inl ⟨value, rfl, hlenient, hvalue⟩)
  | error error =>
    cases lenient with
    | error error' => exact .inl ⟨error, error', rfl, rfl⟩
    | ok value =>
      have hlacks : ¬P value := fun hvalue => nomatch (h value).mpr ⟨rfl, hvalue⟩
      exact .inr (.inr ⟨error, value, rfl, rfl, hlacks⟩)

/-! ## Binding -/

namespace BindingRules

variable {rules : BindingRules} {symbol : MethodSymbol} {site : Site} {source : Option SourceText}

/-- A captured statement is no placeholder. -/
theorem ne_missing_of_capture {param : ParameterSymbol} {captured : Nat} {arg : Argument}
    (h : capture symbol param site captured source = .ok arg) : arg ≠ .missing := by
  rintro rfl
  unfold capture at h
  split at h
  · cases h
  · split at h <;> cases h

/-- A strict policy supplies what a lenient one supplies, except placeholders. -/
theorem supplied_strict_iff {index : Nat} {param : ParameterSymbol} {arg : Argument} :
    (rules.withMissing .error).supplied symbol index param site source = .ok arg ↔
      (rules.withMissing .placeholder).supplied symbol index param site source = .ok arg ∧
        arg ≠ .missing := by
  unfold supplied withMissing
  cases site.call.args[index]? with
  | some expr =>
    dsimp only
    refine (and_iff_left_of_imp fun h => ?_).symm
    rintro rfl
    split at h <;> cases h
  | none =>
    refine ⟨fun h => (nomatch h), ?_⟩
    rintro ⟨h, hmissing⟩
    cases h
    exact absurd rfl hmissing

/-- A parameter receives something else than a placeholder in both cases alike. -/
theorem bindParam_strict_iff {root : Quote} {param : ParameterSymbol} {index captured taken : Nat}
    {arg : Argument} :
    (rules.withMissing .error).bindParam symbol root source param index captured = .ok (arg, taken) ↔
      (rules.withMissing .placeholder).bindParam symbol root source param index captured =
          .ok (arg, taken) ∧ arg ≠ .missing := by
  have hrole (missing : MissingArgumentPolicy) :
      (rules.withMissing missing).role symbol index param = rules.role symbol index param := rfl
  unfold bindParam
  rw [hrole, hrole]
  -- only an argument that is not supplied is told apart
  cases rules.role symbol index param with
  | quote =>
    refine (and_iff_left_of_imp fun h => ?_).symm
    cases h
    exact nofun
  | default value =>
    refine (and_iff_left_of_imp fun h => ?_).symm
    cases h
    exact nofun
  | capture =>
    refine (and_iff_left_of_imp fun h => ?_).symm
    obtain ⟨captive, hcapture, h⟩ := except_map_ok.mp h
    cases h
    exact ne_missing_of_capture hcapture
  | argument =>
    simp only [except_map_ok, supplied_strict_iff, Prod.mk.injEq]
    constructor
    · rintro ⟨_, ⟨hsupplied, hmissing⟩, rfl, htaken⟩
      exact ⟨⟨_, hsupplied, rfl, htaken⟩, hmissing⟩
    · rintro ⟨⟨_, hsupplied, rfl, htaken⟩, hmissing⟩
      exact ⟨_, ⟨hsupplied, hmissing⟩, rfl, htaken⟩

/-- Parameters are bound without placeholders in both cases alike. -/
theorem bindParams_strict_iff {root : Quote} {params : List ParameterSymbol}
    {index captured last : Nat} {args : List Argument} :
    (rules.withMissing .error).bindParams symbol root source params index captured =
        .ok (args, last) ↔
      (rules.withMissing .placeholder).bindParams symbol root source params index captured =
          .ok (args, last) ∧ .missing ∉ args := by
  induction params generalizing index captured args with
  | nil =>
    refine (and_iff_left_of_imp fun h => ?_).symm
    cases h
    exact List.not_mem_nil
  | cons param rest ih =>
    rw [bindParams_cons_ok, bindParams_cons_ok]
    constructor
    · rintro ⟨arg, taken, others, hfirst, hrest, rfl⟩
      obtain ⟨hfirst, hmissing⟩ := bindParam_strict_iff.mp hfirst
      obtain ⟨hrest, hothers⟩ := ih.mp hrest
      exact ⟨⟨arg, taken, others, hfirst, hrest, rfl⟩,
        List.not_mem_cons_of_ne_of_not_mem hmissing.symm hothers⟩
    · rintro ⟨⟨arg, taken, others, hfirst, hrest, rfl⟩, hmissing⟩
      have harg : arg ≠ .missing := fun heq => hmissing (heq ▸ List.mem_cons_self)
      exact ⟨arg, taken, others, bindParam_strict_iff.mpr ⟨hfirst, harg⟩,
        ih.mpr ⟨hrest, fun hmem => hmissing (List.mem_cons_of_mem arg hmem)⟩, rfl⟩

/-- The parameters that received a placeholder are as many as the placeholders. -/
theorem length_placeholders_boundWith {args : List Argument} (h : args.length = symbol.params.length)
    (captured : Nat) :
    (boundWith symbol site args captured).placeholders.length = args.count .missing := by
  have hsecond : args = (symbol.params.zip args).map Prod.snd :=
    (List.map_snd_zip (Nat.le_of_eq h)).symm
  rw [hsecond, List.count, List.countP_map, List.countP_eq_length_filter, ← hsecond]
  exact List.length_map _

/-- A call is bound without placeholders in both cases alike. -/
theorem bind_strict_iff {next : Option BoundCall} :
    (rules.withMissing .error).bind symbol site source = .ok next ↔
      (rules.withMissing .placeholder).bind symbol site source = .ok next ∧
        ∀ bound ∈ next, bound.placeholders = [] := by
  have hforwards (missing : MissingArgumentPolicy) :
      (rules.withMissing missing).forwardsAmbientQuote symbol site =
        rules.forwardsAmbientQuote symbol site := rfl
  rw [bind_eq, bind_eq, hforwards, hforwards]
  cases rules.forwardsAmbientQuote symbol site with
  | true =>
    refine (and_iff_left_of_imp fun h => ?_).symm
    cases h
    exact nofun
  | false =>
    simp only [Bool.false_eq_true, if_false, except_map_ok, Prod.exists, bindParams_strict_iff]
    -- placeholders are reported for the arguments that are missing, and for no others
    have hnone {args : List Argument} {captured : Nat}
        (hparams : (rules.withMissing .placeholder).bindParams symbol
          (Quote.of site (Buffers.create {}).1) source symbol.params 0 0 = .ok (args, captured)) :
        .missing ∉ args ↔ (boundWith symbol site args captured).placeholders = [] := by
      rw [← List.length_eq_zero_iff,
        length_placeholders_boundWith (length_of_bindParams hparams), List.count_eq_zero]
    constructor
    · rintro ⟨args, captured, ⟨hparams, hmissing⟩, rfl⟩
      refine ⟨⟨args, captured, hparams, rfl⟩, ?_⟩
      rintro _ ⟨⟩
      exact (hnone hparams).mp hmissing
    · rintro ⟨⟨args, captured, hparams, rfl⟩, hplaceholders⟩
      exact ⟨args, captured, ⟨hparams, (hnone hparams).mpr (hplaceholders _ rfl)⟩, rfl⟩

end BindingRules

/-- The next call is found without placeholders in both cases alike. -/
theorem Expander.firstBound?_strict_iff {expander : Expander} {source : Option SourceText}
    {site : Call → Site} {calls : List Call} {next : Option BoundCall} :
    (expander.withMissing .error).firstBound? source site calls = .ok next ↔
      (expander.withMissing .placeholder).firstBound? source site calls = .ok next ∧
        ∀ bound ∈ next, bound.placeholders = [] := by
  induction calls with
  | nil =>
    refine (and_iff_left_of_imp fun h => ?_).symm
    cases h
    rintro _ ⟨⟩
  | cons call rest ih =>
    have hcandidate (missing : MissingArgumentPolicy) :
        (expander.withMissing missing).rules.candidate? call = expander.rules.candidate? call := rfl
    have hrules (missing : MissingArgumentPolicy) :
        (expander.withMissing missing).rules = expander.rules.withMissing missing := rfl
    unfold firstBound?
    rw [hcandidate, hcandidate]
    cases expander.rules.candidate? call with
    | none => exact ih
    | some symbol =>
      have hbind (next : Option BoundCall) :
          (expander.rules.withMissing .error).bind symbol (site call) source = .ok next ↔
            (expander.rules.withMissing .placeholder).bind symbol (site call) source = .ok next ∧
              ∀ bound ∈ next, bound.placeholders = [] :=
        BindingRules.bind_strict_iff
      dsimp only
      rw [hrules, hrules]
      -- both fail, both find the same, or only the strict one fails
      rcases except_strict_cases hbind with
        ⟨error, error', hstrict, hlenient⟩ | ⟨found, hstrict, hlenient, hnone⟩ |
          ⟨error, found, hstrict, hlenient, hsome⟩
      all_goals rw [hstrict, hlenient]
      · constructor
        · rintro ⟨⟩
        · rintro ⟨⟨⟩, -⟩
      · cases found with
        | none => exact ih
        | some bound =>
          refine (and_iff_left_of_imp fun h => ?_).symm
          cases h
          exact hnone
      · cases found with
        | none =>
          refine absurd ?_ hsome
          rintro _ ⟨⟩
        | some bound =>
          constructor
          · rintro ⟨⟩
          · rintro ⟨⟨⟩, hnext⟩
            exact absurd hnext hsome

/-! ## Programs -/

/-- The first program comes to a result just where the second one comes to it without a warning. -/
structure ExpandM.Relaxes {α : Type} (strict lenient : ExpandM σ α) : Prop where
  /-- Warnings are not taken back. -/
  adds {progress ended : Progress σ} {value : α} (h : lenient.runFrom progress = (.ok value, ended)) :
    progress.warnings.toList <+: ended.warnings.toList
  /-- Without warnings they come to the same. -/
  agrees {progress ended : Progress σ} {value : α} :
    strict.runFrom progress = (.ok value, ended) ↔
      lenient.runFrom progress = (.ok value, ended) ∧ ended.warnings = progress.warnings

namespace ExpandM.Relaxes

variable {α β : Type} {strict lenient : ExpandM σ α}

/-- A program that adds no warning. -/
theorem refl {program : ExpandM σ α}
    (h : ∀ progress value ended, program.runFrom progress = (.ok value, ended) →
      ended.warnings = progress.warnings) : Relaxes program program where
  adds hrun := by rw [h _ _ _ hrun]
  agrees := (and_iff_left_of_imp (h _ _ _)).symm

/-- No result is the same as no result. -/
theorem throw (stop stop' : Stop) :
    Relaxes (MonadExcept.throw stop : ExpandM σ α) (MonadExcept.throw stop') where
  adds h := nomatch h
  agrees := ⟨nofun, nofun⟩

/-- No result is the same as results that are warned of. -/
theorem of_warns {stop : Stop}
    (h : ∀ progress value ended, lenient.runFrom progress = (.ok value, ended) →
      ∃ warnings, warnings ≠ [] ∧
        progress.warnings.toList ++ warnings <+: ended.warnings.toList) :
    Relaxes (MonadExcept.throw stop) lenient where
  adds hrun := by
    obtain ⟨warnings, -, hadded⟩ := h _ _ _ hrun
    exact (List.prefix_append _ _).trans hadded
  agrees := by
    refine ⟨nofun, ?_⟩
    rintro ⟨hrun, hsame⟩
    obtain ⟨warnings, hwarnings, hadded⟩ := h _ _ _ hrun
    have hle := hadded.length_le
    rw [hsame, List.length_append] at hle
    exact absurd (List.length_eq_zero_iff.mp (by omega)) hwarnings

/-- Parts that relax others do so one after the other. -/
theorem bind {next next' : α → ExpandM σ β} (h : Relaxes strict lenient)
    (hnext : ∀ value, Relaxes (next value) (next' value)) :
    Relaxes (strict >>= next) (lenient >>= next') where
  adds hrun := by
    obtain ⟨value, middle, hfirst, hsecond⟩ := bind_ok hrun
    exact (h.adds hfirst).trans ((hnext value).adds hsecond)
  agrees {progress ended result} := by
    constructor
    · intro hrun
      obtain ⟨value, middle, hfirst, hsecond⟩ := bind_ok hrun
      obtain ⟨hfirst, hwarnings⟩ := h.agrees.mp hfirst
      obtain ⟨hsecond, hwarnings'⟩ := (hnext value).agrees.mp hsecond
      rw [runFrom_bind_of_ok hfirst]
      exact ⟨hsecond, hwarnings'.trans hwarnings⟩
    · rintro ⟨hrun, hwarnings⟩
      obtain ⟨value, middle, hfirst, hsecond⟩ := bind_ok hrun
      -- what neither part takes back, neither of them added
      have hmiddle : middle.warnings = progress.warnings := by
        have hle := (h.adds hfirst).length_le
        have hle' := ((hnext value).adds hsecond).length_le
        rw [hwarnings] at hle'
        exact Array.ext' ((h.adds hfirst).eq_of_length (Nat.le_antisymm hle hle')).symm
      rw [runFrom_bind_of_ok (h.agrees.mpr ⟨hfirst, hmiddle⟩)]
      exact (hnext value).agrees.mpr ⟨hsecond, hwarnings.trans hmiddle.symm⟩

end ExpandM.Relaxes

/-- Programs with errors for missing arguments and those with placeholders. -/
def WalkRelation.relaxes : WalkRelation σ σ where
  Rel := ExpandM.Relaxes
  pure value := .refl fun _ _ _ h => by cases h; rfl
  bind := ExpandM.Relaxes.bind

/-! ## Whole expansions -/

namespace Expander

/-- The steps of an expansion with errors for missing arguments and with placeholders. -/
theorem covers_relaxes (expander : Expander) (file : FileOrigin) :
    (WalkRelation.relaxes (σ := σ)).Covers { expander := expander.withMissing .error, file }
      { expander := expander.withMissing .placeholder, file } where
  path := rfl
  maxDepth := rfl
  exhausted := .throw _ _
  fault _ _ := .throw _ _
  poll _ := .refl fun progress value ended hrun => by
    rw [ExpandM.runFrom_checkCancelled] at hrun
    split at hrun
    · cases hrun
    · cases hrun
      rfl
  attend {_ setting done rest stmt limited settled settled' place place'} hsettled hplace := by
    have hfound (next : Option BoundCall) :
        (expander.withMissing .error).firstBound? file.source
            ((setting.cursor ⟨done, stmt :: rest⟩).site file.path) stmt.ownCalls = .ok next ↔
          (expander.withMissing .placeholder).firstBound? file.source
              ((setting.cursor ⟨done, stmt :: rest⟩).site file.path) stmt.ownCalls = .ok next ∧
            ∀ bound ∈ next, bound.placeholders = [] :=
      firstBound?_strict_iff
    rw [FileWalk.attend_expansion, FileWalk.attend_expansion]
    dsimp only
    rcases except_strict_cases hfound with
      ⟨error, error', hstrict, hlenient⟩ | ⟨next, hstrict, hlenient, hnone⟩ |
        ⟨error, next, hstrict, hlenient, hsome⟩
    all_goals rw [hstrict, hlenient]
    · exact .throw _ _
    · cases next with
      | none => exact hsettled
      | some bound =>
        cases limited with
        | true => exact .throw _ _
        | false =>
          refine ExpandM.Relaxes.bind (.refl fun progress placement ended hrun => ?_)
            fun placement => hplace bound placement
          have hwarnings := (placed_of_expandCall hrun).warnings_eq
          rw [BoundCall.placeholderWarnings, hnone bound rfl, List.map_nil, List.append_nil]
            at hwarnings
          exact Array.ext' hwarnings
    · -- where one expansion stops at a missing argument, the other one warns of it
      cases next with
      | none =>
        refine absurd ?_ hsome
        rintro _ ⟨⟩
      | some bound =>
        have hplaceholders : bound.placeholderWarnings ≠ [] := by
          refine fun hnil => hsome ?_
          rintro _ ⟨⟩
          exact List.map_eq_nil_iff.mp hnil
        cases limited with
        | true => exact .throw _ _
        | false =>
          refine .of_warns fun progress value ended hrun => ⟨_, hplaceholders, ?_⟩
          obtain ⟨placement, middle, hcall, hrest⟩ := ExpandM.bind_ok hrun
          rw [← (placed_of_expandCall hcall).warnings_eq]
          exact (hplace bound placement).adds hrest

/-- With errors for missing arguments a file is expanded just where it is expanded with placeholders
and without a warning, and to the same. -/
theorem expandWithin_strict_iff {expander : Expander} {nesting : Nat} {tree : SyntaxTree}
    {workspace left : Workspace σ} {expansion : Expansion} :
    (expander.withMissing .error).expandWithin nesting tree workspace = (.ok expansion, left) ↔
      (expander.withMissing .placeholder).expandWithin nesting tree workspace =
          (.ok expansion, left) ∧ expansion.warnings = [] := by
  have hitems : (WalkRelation.relaxes (σ := σ)).Rel
      (itemsProgram (·.walk nesting) (expander.withMissing .error) tree)
      (itemsProgram (·.walk nesting) (expander.withMissing .placeholder) tree) :=
    itemsProgram_sideBySide (expander.covers_relaxes _) rfl nesting
  have hagrees {items : List Item} {ended : Progress σ} :
      (itemsProgram (·.walk nesting) (expander.withMissing .error) tree).runFrom
          { toWorkspace := workspace } = (.ok items, ended) ↔
        (itemsProgram (·.walk nesting) (expander.withMissing .placeholder) tree).runFrom
            { toWorkspace := workspace } = (.ok items, ended) ∧ ended.warnings = #[] :=
    ExpandM.Relaxes.agrees hitems
  unfold expandWithin
  rw [expandBy_ok_iff, expandBy_ok_iff]
  constructor
  · rintro ⟨items, ended, hrun, rfl, rfl⟩
    obtain ⟨hrun, hwarnings⟩ := hagrees.mp hrun
    exact ⟨⟨items, ended, hrun, rfl, rfl⟩, congrArg Array.toList hwarnings⟩
  · rintro ⟨⟨items, ended, hrun, rfl, rfl⟩, hwarnings⟩
    exact ⟨items, ended, hagrees.mpr ⟨hrun, Array.ext' hwarnings⟩, rfl, rfl⟩

/-- The warnings about the placeholders among the arguments that a macro body received. -/
def placeholderWarnings (expander : Expander) (invocation : Invocation) : List DiagnosticRecord :=
  match expander.rules.candidate? invocation.site.call with
  | none => []
  | some symbol =>
      ((symbol.params.zip invocation.args).filter fun (_, arg) => arg == .missing).map
        fun (param, _) =>
          .warning placeholderCode
            ("macro '" ++ symbol.qualifiedName ++ "' received no argument for parameter '"
              ++ param.name ++ "'")
            invocation.site.file invocation.site.call.span

end Expander

namespace PlacedCall

variable {expander : Expander} {file : FileOrigin} {call : PlacedCall}

/-- What is warned of at a call is what its macro received. -/
theorem IsOf.placeholderWarnings_eq (h : call.IsOf expander file) :
    call.bound.placeholderWarnings = expander.placeholderWarnings call.invocation := by
  have hplaceholders := congrArg BoundCall.placeholders (BindingRules.eq_boundWith_of_bind h.binds)
  unfold BoundCall.placeholderWarnings Expander.placeholderWarnings
  rw [hplaceholders]
  simp only [invocation, h.leads, BindingRules.boundWith, List.map_map]
  rfl

/-- There is one warning for every placeholder. -/
theorem IsOf.length_placeholderWarnings (h : call.IsOf expander file) :
    call.bound.placeholderWarnings.length = call.invocation.args.count .missing := by
  have hbound := BindingRules.eq_boundWith_of_bind h.binds
  obtain ⟨-, -, -, -, hparams⟩ := BindingRules.bind_some_cases h.binds
  rw [BoundCall.placeholderWarnings, List.length_map, congrArg BoundCall.placeholders hbound]
  exact BindingRules.length_placeholders_boundWith (BindingRules.length_of_bindParams hparams) _

end PlacedCall

namespace Expander

/-- The warnings of an expanded file are about the placeholders that its macros received. -/
theorem warnings_of_expandWithin {expander : Expander} {nesting : Nat} {tree : SyntaxTree}
    {workspace : Workspace σ} {expansion : Expansion}
    (h : (expander.expandWithin nesting tree workspace).1 = .ok expansion) :
    let invocations := (expander.expandWithin nesting tree workspace.recorded).2.session.host.invocations
    expansion.warnings = invocations.flatMap (expander.placeholderWarnings ·.2) ∧
      expansion.warnings.length = (invocations.map (·.2.args.count .missing)).sum := by
  obtain ⟨calls, hplaces, hwarnings, -⟩ := places_of_expandWithin h
  intro invocations
  rw [show invocations = _ from hplaces.invocations, hwarnings, List.flatMap_map, List.map_map,
    List.length_flatMap]
  refine ⟨?_, ?_⟩
  · exact List.flatMap_congr fun call hcall => (hplaces.isOf call hcall).placeholderWarnings_eq
  · exact congrArg List.sum
      (List.map_congr_left fun call hcall => (hplaces.isOf call hcall).length_placeholderWarnings)

/-- Where missing arguments are errors, no macro receives a placeholder. -/
theorem no_placeholder_received (expander : Expander) (nesting : Nat) (tree : SyntaxTree)
    (workspace : Workspace σ) :
    ∀ entry ∈ ((expander.withMissing .error).expandWithin nesting tree
      workspace.recorded).2.session.host.invocations, .missing ∉ entry.2.args := by
  have hcovers : (ProgramRelation.recordsEach (σ := σ) fun invocation =>
      .missing ∉ invocation.args).Covers (expander.withMissing .error) ⟨tree.path, tree.source⟩ := by
    refine covers_recordsEach fun {_ _ _ _ bound invocation} hfirst _ hargs _ => ?_
    obtain ⟨-, hbind⟩ := binds_of_firstBound?_some (fun _ => rfl) hfirst
    obtain ⟨-, -, -, -, hparams⟩ := BindingRules.bind_some_cases hbind
    have hparams' : (expander.rules.withMissing .error).bindParams _ _ _ _ _ _ = _ := hparams
    rw [hargs]
    exact (BindingRules.bindParams_strict_iff.mp hparams').2
  obtain ⟨later, hlater, hrun⟩ := expandWithin_recordsEach hcovers nesting workspace []
  intro entry hentry
  rw [hrun] at hentry
  exact hlater entry hentry

end Expander

/-! ## The two policies -/

/-- Placeholders are a conservative extension. With errors for missing arguments a file is expanded
just where it is expanded with placeholders and without a warning, and then to the same; no macro
receives a placeholder, whatever becomes of the file. With placeholders there is one warning for every
placeholder that a macro received, at the call of the macro: in the order of the invocations, and for
each of them in the order of the parameters. -/
theorem placeholders_extend_errors (expander : Expander) (nesting : Nat) (tree : SyntaxTree)
    (workspace : Workspace σ) :
    let strict := expander.withMissing .error
    let lenient := expander.withMissing .placeholder
    (∀ expansion left, strict.expandWithin nesting tree workspace = (.ok expansion, left) ↔
        lenient.expandWithin nesting tree workspace = (.ok expansion, left) ∧
          expansion.warnings = []) ∧
      (∀ expansion, (lenient.expandWithin nesting tree workspace).1 = .ok expansion →
        let invocations :=
          (lenient.expandWithin nesting tree workspace.recorded).2.session.host.invocations
        expansion.warnings = invocations.flatMap (lenient.placeholderWarnings ·.2) ∧
          expansion.warnings.length = (invocations.map (·.2.args.count .missing)).sum) ∧
      ∀ entry ∈ (strict.expandWithin nesting tree workspace.recorded).2.session.host.invocations,
        .missing ∉ entry.2.args := by
  intro strict lenient
  exact ⟨fun _ _ => Expander.expandWithin_strict_iff,
    fun _ => Expander.warnings_of_expandWithin,
    expander.no_placeholder_received nesting tree workspace⟩

/-- A macro that takes two numbers. -/
def pairMacro : MethodSymbol where
  id := ⟨0⟩
  declaringType := "Host"
  name := "Pair"
  params := [{ name := "first", type := .int }, { name := "second", type := .int }]
  markers := [.macroFunction]

/-- A workspace in which the macro does nothing. -/
def pairWorkspace : Workspace Unit where
  session := { host := () }
  registry := ({} : Registry Unit).registerBody pairMacro fun _ => pure ()

/-- Two calls that leave out one and two arguments bring about three warnings, in their order. -/
theorem placeholders_extend_errors_pair :
    let lenient := Expander.withMissing { model := (({} : SymbolTable).declare pairMacro).model }
      .placeholder
    let file := blockFile
      [.evaluate (.callOf "Pair" [.literal (.int 1) default]), .evaluate (.callOf "Pair" [])]
    ∃ expansion, (lenient.expandWithin 3 file pairWorkspace).1 = .ok expansion ∧
      expansion.warnings.map (·.message) =
        ["macro 'Host.Pair' received no argument for parameter 'second'",
          "macro 'Host.Pair' received no argument for parameter 'first'",
          "macro 'Host.Pair' received no argument for parameter 'second'"] ∧
      let invocations := (lenient.expandWithin 3 file pairWorkspace.recorded).2.session.host.invocations
      expansion.warnings = invocations.flatMap (lenient.placeholderWarnings ·.2) ∧
        3 = (invocations.map (·.2.args.count .missing)).sum := by
  intro lenient file
  have hrun : (lenient.expandWithin 3 file pairWorkspace).1.map
      (·.warnings.map DiagnosticRecord.message) =
        .ok ["macro 'Host.Pair' received no argument for parameter 'second'",
          "macro 'Host.Pair' received no argument for parameter 'first'",
          "macro 'Host.Pair' received no argument for parameter 'second'"] := by cbv
  obtain ⟨-, hwarned, -⟩ := placeholders_extend_errors
    { model := (({} : SymbolTable).declare pairMacro).model } 3 file pairWorkspace
  cases h : (lenient.expandWithin 3 file pairWorkspace).1 with
  | error stop =>
    rw [h] at hrun
    cases hrun
  | ok expansion =>
    rw [h] at hrun
    have hmessages := Except.ok.inj hrun
    obtain ⟨hwarnings, hlength⟩ := hwarned expansion h
    refine ⟨expansion, rfl, hmessages, hwarnings, ?_⟩
    rw [← hlength, ← List.length_map DiagnosticRecord.message]
    exact (congrArg List.length hmessages).symm

end MacroExpansion
