import MacroExpansion.Proofs.InStep
import MacroExpansion.Proofs.LocalMacros
import MacroExpansion.Proofs.Reporting

/-! # The text of a file

An expansion hands the text of its file on to the errors that it ends by, and makes no other use of
it. So each of its parts comes to the same without the text, up to the text that errors show, and the
expansions of a file with one text and with another one differ in nothing else. -/

namespace MacroExpansion

/-- The error with another text around its place. -/
def ExpansionError.withSource (error : ExpansionError) (source : Option SourceText) :
    ExpansionError :=
  error.modify fun failure => { failure with source }

/-- The early end with another text in its error, if it is one by an error. -/
def Stop.withSource (stop : Stop) (source : Option SourceText) : Stop :=
  match stop with
  | .error failed => .error (failed.withSource source)
  | stop => stop

/-- The last text counts. -/
theorem Stop.withSource_withSource (stop : Stop) (source source' : Option SourceText) :
    (stop.withSource source).withSource source' = stop.withSource source' := by
  cases stop with
  | error error => cases error <;> rfl
  | _ => rfl

/-- An error gets its place whatever text it shows. -/
theorem Stop.withSource_located (stop : Stop) (span : Span) (source : Option SourceText) :
    (stop.located span source).withSource none = (stop.withSource none).located span none := by
  cases stop with
  | error error => cases error <;> rfl
  | _ => rfl

/-! ## Parts of a call -/

/-- A value, or an error that shows no text. -/
def textless {α : Type} (value : Except ExpansionError α) : Except ExpansionError α :=
  value.mapError (·.withSource none)

section textless

variable {α β : Type}

/-- A value has no text to leave out. -/
@[simp] theorem textless_pure (value : α) : textless (pure value) = pure value := rfl

/-- The text is left out of each of two parts. -/
@[simp] theorem textless_bind (first : Except ExpansionError α)
    (next : α → Except ExpansionError β) :
    textless (first >>= next) = textless first >>= fun value => textless (next value) := by
  cases first <;> rfl

/-- Without the text there is a value where there is one, and an error where there is one. -/
theorem textless_cases {value value' : Except ExpansionError α} (h : textless value' = textless value) :
    (∃ result, value = .ok result ∧ value' = .ok result) ∨
      ∃ error error', value = .error error ∧ value' = .error error' ∧
        error'.withSource none = error.withSource none := by
  cases value with
  | ok result =>
    cases value' with
    | ok result' =>
      cases h
      exact .inl ⟨result, rfl, rfl⟩
    | error error' => cases h
  | error error =>
    cases value' with
    | ok result' => cases h
    | error error' => exact .inr ⟨error, error', rfl, rfl, Except.error.inj h⟩

/-- The text is left out for each of the values. -/
theorem textless_mapM (next : α → Except ExpansionError β) (values : List α) :
    textless (values.mapM next) = values.mapM fun value => textless (next value) := by
  induction values with
  | nil => rfl
  | cons value rest ih =>
    rw [List.mapM_cons, List.mapM_cons, textless_bind]
    refine congrArg (_ >>= ·) (funext fun result => ?_)
    rw [textless_bind, ih]
    rfl

end textless

namespace BindingRules

variable {rules : BindingRules} {symbol : MethodSymbol} {site : Site}

/-- What a call captures does not depend on the text. -/
theorem textless_capture (param : ParameterSymbol) (captured : Nat) (source : Option SourceText) :
    textless (capture symbol param site captured source) =
      capture symbol param site captured none := by
  unfold capture
  cases site.following? captured with
  | none => rfl
  | some next => cases param.type <;> first | rfl | (cases next <;> rfl)

/-- What a parameter is supplied with does not depend on the text. -/
theorem textless_supplied (index : Nat) (param : ParameterSymbol) (source : Option SourceText) :
    textless (rules.supplied symbol index param site source) =
      rules.supplied symbol index param site none := by
  unfold supplied
  cases site.call.args[index]? with
  | none => cases rules.missing <;> rfl
  | some expr =>
    dsimp only
    cases rules.model.constantValue expr <;> rfl

/-- How parameters are bound does not depend on the text. -/
theorem textless_bindParams (root : Quote) (source : Option SourceText)
    (params : List ParameterSymbol) (index captured : Nat) :
    textless (rules.bindParams symbol root source params index captured) =
      rules.bindParams symbol root none params index captured := by
  induction params generalizing index captured with
  | nil => rfl
  | cons param rest ih =>
    unfold bindParams
    cases rules.role symbol index param <;>
      simp only [textless_bind, textless_capture, textless_supplied, textless_pure, ih]

/-- A call is bound alike without the text. -/
theorem textless_bind_call (source : Option SourceText) :
    textless (rules.bind symbol site source) = rules.bind symbol site none := by
  unfold bind
  cases rules.forwardsAmbientQuote symbol site with
  | true => rfl
  | false => simp only [textless_bind, textless_bindParams, textless_pure, Bool.false_eq_true, if_false]

end BindingRules

/-- The next call is found alike without the text. -/
theorem Expander.textless_firstBound? (expander : Expander) (source : Option SourceText)
    (site : Call → Site) (calls : List Call) :
    textless (expander.firstBound? source site calls) = expander.firstBound? none site calls := by
  induction calls with
  | nil => rfl
  | cons call rest ih =>
    unfold firstBound?
    cases expander.rules.candidate? call with
    | none => exact ih
    | some symbol =>
      dsimp only
      rw [← BindingRules.textless_bind_call source]
      rcases expander.rules.bind symbol (site call) source with error | _ | bound
      · rfl
      · exact ih
      · rfl

/-- Type arguments are known alike without the text. -/
theorem textless_resolveTypeArgs (symbol : MethodSymbol) (site : Site) (metadata : TypeMetadata)
    (source : Option SourceText) :
    textless (resolveTypeArgs symbol site metadata source) =
      resolveTypeArgs symbol site metadata none := by
  unfold resolveTypeArgs
  dsimp only
  split
  · rfl
  · rw [textless_mapM]
    refine congrArg (fun next => List.mapM next site.call.typeArgs) (funext fun type => ?_)
    cases metadata type <;> rfl

variable {σ : Type}

/-- Implementations are looked up alike without the text. -/
theorem Registry.textless_resolve (registry : Registry σ) (symbol : MethodSymbol) (site : Site)
    (source : Option SourceText) :
    registry.resolve symbol site none =
      (textless (registry.resolve symbol site source).1, (registry.resolve symbol site source).2) := by
  rw [resolve_eq, resolve_eq]
  cases (registry.discover symbol).1 <;> rfl

/-- A fault of a call is the same without the text. -/
theorem BoundCall.textless_atCall {α : Type} (bound : BoundCall) (source : Option SourceText)
    (result : Except Fault α) :
    textless (bound.atCall source result) = bound.atCall none result := by
  cases result <;> rfl

/-- A body is run alike without the text. -/
theorem invoke_textless (implementation : Implementation σ) (invocation : Invocation)
    (config : ExpansionConfig) (source : Option SourceText) (buffers : Buffers)
    (session : Session σ) :
    let invoked := invoke implementation invocation config source buffers session
    invoke implementation invocation config none buffers session =
      { invoked with outcome := invoked.outcome.mapError (·.withSource none) } := by
  unfold invoke
  cases hentered : session.binding.enter invocation.site with
  | error error =>
    -- the error of the call binding shows no text at first
    unfold CallBinding.enter at hentered
    split at hentered <;> cases hentered
    rfl
  | ok binding =>
    dsimp only
    rcases (implementation.body invocation).run.run
      { buffers, session := { session with binding } } with ⟨halt | done, state⟩
    · cases halt with
      | failure text => rfl
      | panic payload => cases config.catchPanics <;> rfl
    · rfl

/-! ## Whole expansions -/

namespace WalkRelation

/-- Programs that do the same, up to the text that their errors show. -/
def sameButText : WalkRelation σ σ :=
  .inStep (fun progress other => other = progress) fun stop progress stop' other =>
    stop'.withSource none = stop.withSource none ∧ other = progress

variable {α : Type} {first second : ExpandM σ α}

/-- Programs are the same but for the text of errors if they end alike, with that text left out, and
in the same progress. -/
theorem sameButText_iff : sameButText.Rel first second ↔ ∀ progress,
    (second.runFrom progress).1.mapError (·.withSource none) =
        (first.runFrom progress).1.mapError (·.withSource none) ∧
      (second.runFrom progress).2 = (first.runFrom progress).2 := by
  have hstep (progress : Progress σ) :
      ExpandM.InStepAt (fun progress other => other = progress)
          (fun stop progress stop' other =>
            stop'.withSource none = stop.withSource none ∧ other = progress)
          first second progress progress ↔
        (second.runFrom progress).1.mapError (·.withSource none) =
            (first.runFrom progress).1.mapError (·.withSource none) ∧
          (second.runFrom progress).2 = (first.runFrom progress).2 := by
    unfold ExpandM.InStepAt
    rcases first.runFrom progress with ⟨stop | value, ended⟩
    all_goals
      rcases second.runFrom progress with ⟨stop' | value', ended'⟩
      all_goals simp [Except.mapError, and_comm]
  refine ⟨fun h progress => (hstep progress).mp (h progress progress rfl), ?_⟩
  rintro h progress other rfl
  exact (hstep other).mpr (h other)

/-- A program is the same as itself. -/
theorem sameButText_refl (program : ExpandM σ α) : sameButText.Rel program program :=
  sameButText_iff.mpr fun _ => ⟨rfl, rfl⟩

/-- Errors that differ in their text only are the same. -/
theorem sameButText_fail {error error' : ExpansionError}
    (h : error'.withSource none = error.withSource none) :
    sameButText.Rel (ExpandM.fail error : ExpandM σ α) (ExpandM.fail error') :=
  ExpandM.InStep.throw fun _ _ hframe => ⟨congrArg Stop.error h, hframe⟩

/-- What has to be there is asked for in the same way. -/
theorem sameButText_require {value value' : Except ExpansionError α}
    (h : textless value' = textless value) :
    (sameButText (σ := σ)).Rel (ExpandM.require value) (ExpandM.require value') := by
  rcases textless_cases h with ⟨result, rfl, rfl⟩ | ⟨error, error', rfl, rfl, herrors⟩
  · exact sameButText_refl _
  · exact sameButText_fail herrors

/-- An implementation is found in the same way. -/
theorem sameButText_resolve (symbol : MethodSymbol) (site : Site)
    (source source' : Option SourceText) :
    (sameButText (σ := σ)).Rel (ExpandM.resolve symbol site source)
      (ExpandM.resolve symbol site source') := by
  refine sameButText_iff.mpr fun progress => ?_
  have hresolve := (progress.registry.textless_resolve symbol site source').symm.trans
    (progress.registry.textless_resolve symbol site source)
  obtain ⟨hfound, hregistry⟩ := Prod.mk.inj hresolve
  have herrors (value : Except ExpansionError (Implementation σ)) :
      (value.mapError Stop.error).mapError (·.withSource none) =
        (textless value).mapError Stop.error := by
    cases value <;> rfl
  rw [ExpandM.runFrom_resolve, ExpandM.runFrom_resolve]
  dsimp only
  rw [herrors, herrors, hfound, hregistry]
  exact ⟨rfl, rfl⟩

/-- A body is run in the same way. -/
theorem sameButText_runBody (implementation : Implementation σ) (invocation : Invocation)
    (config : ExpansionConfig) (source source' : Option SourceText) (buffers : Buffers)
    (buffer : BufferId) :
    sameButText.Rel (ExpandM.runBody implementation invocation config source buffers buffer)
      (ExpandM.runBody implementation invocation config source' buffers buffer) := by
  refine sameButText_iff.mpr fun progress => ?_
  have hinvoke :=
    (invoke_textless implementation invocation config source' buffers progress.session).symm.trans
      (invoke_textless implementation invocation config source buffers progress.session)
  obtain ⟨houtcome, hbuffers, hsession⟩ := Invoked.mk.inj hinvoke
  have hresults {α β : Type} (f : α → β) (outcome : Except Stop α) :
      (outcome.map f).mapError (·.withSource none) =
        (outcome.mapError (·.withSource none)).map f := by
    cases outcome <;> rfl
  rw [ExpandM.runFrom_runBody, ExpandM.runFrom_runBody]
  dsimp only
  rw [hresults, hresults, houtcome, hbuffers, hsession]
  exact ⟨rfl, rfl⟩

/-- Errors are located in the same way. -/
theorem sameButText_located (h : sameButText.Rel first second) (span : Span)
    (source source' : Option SourceText) :
    sameButText.Rel (ExpandM.located span source first) (ExpandM.located span source' second) := by
  refine ExpandM.InStep.located h ?_
  rintro stop progress stop' other ⟨hstop, hother⟩
  refine ⟨?_, hother⟩
  rw [Stop.withSource_located, Stop.withSource_located, hstop]

end WalkRelation

open WalkRelation

namespace Expander

/-- A call is expanded alike with another text. -/
theorem expandCall_sameButText (expander : Expander) (source source' : Option SourceText)
    (bound : BoundCall) :
    sameButText.Rel (expander.expandCall (σ := σ) source bound)
      (expander.expandCall source' bound) := by
  have hrequire {α : Type} {value : Option SourceText → Except ExpansionError α}
      (h : ∀ source, textless (value source) = value none) :
      (sameButText (σ := σ)).Rel (ExpandM.require (value source)) (ExpandM.require (value source')) :=
    sameButText_require ((h source').trans (h source).symm)
  unfold expandCall
  exact sameButText.bind (sameButText_refl _) fun _ =>
    sameButText.bind (sameButText_resolve _ _ _ _) fun implementation =>
    sameButText.bind (hrequire (textless_resolveTypeArgs _ _ _)) fun typeArgs =>
    sameButText.bind (sameButText_runBody _ _ _ _ _ _ _) fun output =>
    sameButText.bind (hrequire (bound.textless_atCall · _)) fun fragments =>
    sameButText.bind (hrequire (bound.textless_atCall · _)) fun placement => sameButText_refl _

/-- The steps of an expansion are the same with another text. -/
theorem covers_sameButText (expander : Expander) (path : String) (text text' : Option String) :
    (sameButText (σ := σ)).Covers { expander, file := ⟨path, text⟩ }
      { expander, file := ⟨path, text'⟩ } := by
  refine covers_of_expansions rfl rfl (sameButText_refl _) (fun _ _ => sameButText_fail rfl)
    (sameButText_refl _) (fun site calls => ?_)
    fun _ => sameButText_located (expander.expandCall_sameButText _ _ _) _ _ _
  have hsame := (expander.textless_firstBound? (FileOrigin.mk path text').source site calls).trans
    (expander.textless_firstBound? (FileOrigin.mk path text).source site calls).symm
  rcases textless_cases hsame with ⟨next, hfirst, hfirst'⟩ | ⟨error, error', hfirst, hfirst', herrors⟩
  · rw [hfirst]
    exact hfirst'
  · rw [hfirst]
    exact ⟨error', hfirst', sameButText_fail herrors⟩

end Expander

/-- The errors of a file show its text. -/
theorem Stop.EndsFile.withSource_eq {config : ExpansionConfig} {source : Option SourceText}
    {registry : Registry σ} {stop : Stop} (h : stop.EndsFile config source registry) :
    stop.withSource source = stop := by
  cases h <;> rfl

/-- A file with another text is expanded to the same, up to the text of the tree and the text that an
error shows. -/
theorem Expander.expandWithin_withSource (expander : Expander) (nesting : Nat) (tree : SyntaxTree)
    (source : Option String) (workspace : Workspace σ) :
    let ended := expander.expandWithin nesting tree workspace
    expander.expandWithin nesting { tree with source } workspace =
      ((ended.1.mapError (·.withSource { tree with source }.sourceText)).map fun expansion =>
          { expansion with tree := { expansion.tree with source } },
        ended.2) := by
  have hitems : sameButText.Rel (itemsProgram (σ := σ) (·.walk nesting) expander tree)
      (itemsProgram (·.walk nesting) expander { tree with source }) :=
    itemsProgram_sideBySide (expander.covers_sameButText tree.path tree.source source) (by rfl) nesting
  obtain ⟨hresult, hleft⟩ := sameButText_iff.mp hitems { toWorkspace := workspace }
  have hends := expander.expandWithin_reports nesting { tree with source } workspace
  unfold expandWithin at hends ⊢
  rw [expandBy_eq] at hends
  rw [expandBy_eq, expandBy_eq]
  dsimp only at hends ⊢
  generalize (itemsProgram (σ := σ) (·.walk nesting) expander tree).runFrom
    { toWorkspace := workspace } = ended at hresult hleft ⊢
  generalize (itemsProgram (σ := σ) (·.walk nesting) expander { tree with source }).runFrom
    { toWorkspace := workspace } = ended' at hresult hleft hends ⊢
  -- the errors agree up to their text, and the second run shows the one that it was given
  have hshown : ended'.1 = ended.1.mapError (·.withSource { tree with source }.sourceText) := by
    have hagain (result : Except Stop (List Item)) :
        (result.mapError (·.withSource none)).mapError
            (·.withSource { tree with source }.sourceText) =
          result.mapError (·.withSource { tree with source }.sourceText) := by
      rcases result with stop | items
      · exact congrArg Except.error (stop.withSource_withSource none _)
      · rfl
    rw [← hagain, ← hresult, hagain]
    rcases ended' with ⟨stop | items, left⟩
    · exact congrArg Except.error (Stop.EndsFile.withSource_eq hends).symm
    · rfl
  rw [hshown, hleft]
  rcases ended with ⟨stop | items, left⟩ <;> rfl

end MacroExpansion
