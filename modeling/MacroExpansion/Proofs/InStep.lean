import MacroExpansion.Proofs.ProgramRelation

/-! # Programs in step

Two programs are in step when, from progresses in a frame, they come to the same value and to
progresses in the frame again, or both stop, in ways that belong together. Unlike
`ExpandM.Simulates`, the two may run on different hosts, and what a stop leaves behind counts too.
Whole expansions are in step when the steps of their walks are. -/

namespace MacroExpansion

/-- Gives a stop by an error a place, where it has none. -/
def Stop.located (stop : Stop) (span : Span) (source : Option SourceText) : Stop :=
  match stop with
  | .error failure => .error (failure.located span source)
  | stop => stop

namespace ExpandM

variable {σ τ α β : Type}

/-- Giving errors a place changes neither results nor progress. -/
theorem runFrom_located_eq (span : Span) (source : Option SourceText) (program : ExpandM σ α)
    (progress : Progress σ) :
    (located span source program).runFrom progress =
      ((program.runFrom progress).1.mapError (·.located span source),
        (program.runFrom progress).2) := by
  rw [runFrom_located]
  rcases program.runFrom progress with ⟨stop | value, ended⟩
  · cases stop <;> rfl
  · rfl

/-- From the two progresses, the programs come to the same value and to progresses in the frame, or
both stop, in ways that belong together. -/
def InStepAt (frame : Progress σ → Progress τ → Prop)
    (stops : Stop → Progress σ → Stop → Progress τ → Prop) (first : ExpandM σ α)
    (second : ExpandM τ α) (progress : Progress σ) (other : Progress τ) : Prop :=
  match first.runFrom progress with
  | (.ok value, ended) =>
      ∃ ended', second.runFrom other = (.ok value, ended') ∧ frame ended ended'
  | (.error stop, ended) =>
      ∃ stop' ended', second.runFrom other = (.error stop', ended') ∧ stops stop ended stop' ended'

/-- The programs are in step from all progresses in the frame. -/
def InStep (frame : Progress σ → Progress τ → Prop)
    (stops : Stop → Progress σ → Stop → Progress τ → Prop) (first : ExpandM σ α)
    (second : ExpandM τ α) : Prop :=
  ∀ progress other, frame progress other → InStepAt frame stops first second progress other

variable {frame : Progress σ → Progress τ → Prop}
  {stops : Stop → Progress σ → Stop → Progress τ → Prop} {first : ExpandM σ α} {second : ExpandM τ α}
  {progress : Progress σ} {other : Progress τ}

/-- What follows two parts in step is compared from where they came to. -/
theorem InStepAt.bind {next : α → ExpandM σ β} {next' : α → ExpandM τ β}
    (h : InStepAt frame stops first second progress other)
    (hnext : ∀ value ended ended', first.runFrom progress = (.ok value, ended) →
      second.runFrom other = (.ok value, ended') → frame ended ended' →
      InStepAt frame stops (next value) (next' value) ended ended') :
    InStepAt frame stops (first >>= next) (second >>= next') progress other := by
  unfold InStepAt at h
  rcases hrun : first.runFrom progress with ⟨stop | value, middle⟩
  all_goals rw [hrun] at h
  · obtain ⟨stop', middle', hrun', hstops⟩ := h
    unfold InStepAt
    rw [runFrom_bind_of_error hrun]
    exact ⟨stop', middle', runFrom_bind_of_error hrun', hstops⟩
  · obtain ⟨middle', hrun', hframe⟩ := h
    have hlast := hnext value middle middle' hrun hrun' hframe
    unfold InStepAt at hlast ⊢
    rw [runFrom_bind_of_ok hrun, runFrom_bind_of_ok hrun']
    exact hlast

/-- The programs stop in the same way, and what they leave behind is in the frame. -/
def SameStop (frame : Progress σ → Progress τ → Prop) (stop : Stop) (ended : Progress σ)
    (stop' : Stop) (ended' : Progress τ) : Prop :=
  stop' = stop ∧ frame ended ended'

namespace InStep

/-- Values are reached without a step. -/
theorem pure (value : α) :
    InStep frame stops (Pure.pure value : ExpandM σ α) (Pure.pure value) :=
  fun _ other hframe => ⟨other, rfl, hframe⟩

/-- Programs may stop in ways that belong together. -/
theorem throw {stop stop' : Stop}
    (h : ∀ progress other, frame progress other → stops stop progress stop' other) :
    InStep frame stops (MonadExcept.throw stop : ExpandM σ α) (MonadExcept.throw stop') :=
  fun progress other hframe => ⟨stop', other, rfl, h progress other hframe⟩

/-- Programs are in step when their parts are. -/
theorem bind {next : α → ExpandM σ β} {next' : α → ExpandM τ β} (h : InStep frame stops first second)
    (hnext : ∀ value, InStep frame stops (next value) (next' value)) :
    InStep frame stops (first >>= next) (second >>= next') :=
  fun progress other hframe =>
    (h progress other hframe).bind fun value ended ended' _ _ => hnext value ended ended'

/-- Stops that belong together may be given places. -/
theorem located (h : InStep frame stops first second) {span : Span}
    {source source' : Option SourceText}
    (hlocated : ∀ stop progress stop' other, stops stop progress stop' other →
      stops (stop.located span source) progress (stop'.located span source') other) :
    InStep frame stops (ExpandM.located span source first)
      (ExpandM.located span source' second) := by
  intro progress other hframe
  have hp := h progress other hframe
  unfold InStepAt at hp ⊢
  rw [runFrom_located_eq, runFrom_located_eq]
  rcases hrun : first.runFrom progress with ⟨stop | value, ended⟩
  all_goals rw [hrun] at hp
  · obtain ⟨stop', ended', hrun', hstops⟩ := hp
    rw [hrun']
    exact ⟨_, ended', rfl, hlocated _ _ _ _ hstops⟩
  · obtain ⟨ended', hrun', hframe⟩ := hp
    rw [hrun']
    exact ⟨ended', rfl, hframe⟩

/-- The same early end is one that belongs to itself. -/
theorem throw_same (stop : Stop) :
    InStep frame (SameStop frame) (MonadExcept.throw stop : ExpandM σ α) (MonadExcept.throw stop) :=
  throw fun _ _ hframe => ⟨rfl, hframe⟩

/-- The same value is required in step. -/
theorem require_same (value : Except ExpansionError α) :
    InStep frame (SameStop frame) (ExpandM.require value) (ExpandM.require value) := by
  cases value with
  | ok value => exact pure value
  | error error => exact throw_same _

/-- A host that was asked the same gives the same answer. -/
theorem checkCancelled
    (hcancelled : ∀ progress other, frame progress other →
      other.session.cancelled = progress.session.cancelled)
    (hstop : ∀ progress other, frame progress other →
      stops (.error .cancelled) progress (.error .cancelled) other) :
    InStep frame stops ExpandM.checkCancelled ExpandM.checkCancelled := by
  intro progress other hframe
  unfold InStepAt
  rw [runFrom_checkCancelled, runFrom_checkCancelled, hcancelled progress other hframe]
  cases progress.session.cancelled with
  | true => exact ⟨_, other, rfl, hstop progress other hframe⟩
  | false => exact ⟨other, rfl, hframe⟩

/-- The same place is given to the same errors. -/
theorem located_same (h : InStep frame (SameStop frame) first second) (span : Span)
    (source : Option SourceText) :
    InStep frame (SameStop frame) (ExpandM.located span source first)
      (ExpandM.located span source second) :=
  h.located fun _ _ _ _ hsame => ⟨congrArg (Stop.located · span source) hsame.1, hsame.2⟩

/-- A program does the same from the image of a progress, and goes to the image of where it goes. -/
theorem of_map {change : Progress σ → Progress τ}
    (h : ∀ progress, second.runFrom (change progress) =
      ((first.runFrom progress).1, change (first.runFrom progress).2)) :
    InStep (fun progress other => other = change progress)
      (SameStop fun progress other => other = change progress) first second := by
  rintro progress _ rfl
  unfold InStepAt
  rw [h]
  rcases first.runFrom progress with ⟨stop | value, ended⟩
  · exact ⟨stop, _, rfl, rfl, rfl⟩
  · exact ⟨_, rfl, rfl⟩

/-- What is in step with an image comes to the image of what the program comes to. -/
theorem runFrom_map {change : Progress σ → Progress τ}
    (h : InStep (fun progress other => other = change progress)
      (SameStop fun progress other => other = change progress) first second)
    (progress : Progress σ) :
    second.runFrom (change progress) =
      ((first.runFrom progress).1, change (first.runFrom progress).2) := by
  have hp := h progress _ rfl
  unfold InStepAt at hp
  rcases hrun : first.runFrom progress with ⟨stop | value, ended⟩
  all_goals rw [hrun] at hp
  · obtain ⟨_, _, hrun', rfl, rfl⟩ := hp
    exact hrun'
  · obtain ⟨_, hrun', rfl⟩ := hp
    exact hrun'

end InStep

end ExpandM

namespace WalkRelation

variable {σ τ : Type}

/-- Programs and those that are in step with them. -/
def inStep (frame : Progress σ → Progress τ → Prop)
    (stops : Stop → Progress σ → Stop → Progress τ → Prop) : WalkRelation σ τ where
  Rel := ExpandM.InStep frame stops
  pure := ExpandM.InStep.pure
  bind := ExpandM.InStep.bind

/-- Two expansions of one file that bind calls alike are in step when they expand them in step. -/
theorem covers_inStep {frame : Progress σ → Progress τ → Prop}
    {stops : Stop → Progress σ → Stop → Progress τ → Prop} {expander expander' : Expander}
    {file : FileOrigin} (hrules : expander'.rules = expander.rules)
    (hdepth : expander'.config.maxDepth = expander.config.maxDepth)
    (hcancelled : ∀ progress other, frame progress other →
      other.session.cancelled = progress.session.cancelled)
    (hstops : ∀ stop progress other, (∀ payload, stop ≠ .panic payload) → frame progress other →
      stops stop progress stop other)
    (hcall : ∀ {bound : BoundCall}, expander.rules.candidate? bound.site.call = some bound.symbol →
      ExpandM.InStep frame stops
        (ExpandM.located bound.site.call.span file.source (expander.expandCall file.source bound))
        (ExpandM.located bound.site.call.span file.source
          (expander'.expandCall file.source bound))) :
    (inStep frame stops).Covers { expander, file } { expander := expander', file } := by
  -- only bodies panic: the errors of a walk and of binding belong to themselves
  have hfail {α : Type} (error : ExpansionError) : ExpandM.InStep frame stops (α := α)
      (ExpandM.fail error) (ExpandM.fail error) :=
    .throw fun progress other => hstops _ progress other fun _ => (nomatch ·)
  refine covers_of_expansions rfl hdepth (.throw fun progress other => hstops _ progress other
    fun _ => (nomatch ·)) (fun _ _ => hfail _) (.checkCancelled hcancelled fun progress other =>
      hstops _ progress other fun _ => (nomatch ·)) (fun site calls => ?_) fun hfirst =>
        hcall (Expander.binds_of_firstBound?_some (fun _ => rfl) hfirst).1
  rw [Expander.firstBound?_congr hrules]
  cases expander.firstBound? file.source site calls with
  | ok next => rfl
  | error error => exact ⟨error, rfl, hfail error⟩

end WalkRelation

end MacroExpansion
