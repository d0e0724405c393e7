import MacroExpansion.Expansion.File

/-! # Runs of expansion programs

`ExpandM.runFrom` reads a program as a function on progress. The laws below follow a run through
the steps of a program, forwards (`runFrom_bind_of_ok`) and backwards (`bind_cases`).

`ExpandM.Matches` compares two programs run from the same progress: unless the first one ends in a
way that is ignored, the second one ends in the same way, with a related result and the same
progress. It composes along `bind`, so two walks are compared by comparing their steps. -/

namespace MacroExpansion

namespace ExpandM

variable {σ α β γ δ : Type}

/-- What a program comes to from a progress. -/
def runFrom (program : ExpandM σ α) (progress : Progress σ) : Except Stop α × Progress σ :=
  program.run.run progress

/-- Programs that come to the same from every progress are the same. -/
theorem ext {first second : ExpandM σ α}
    (h : ∀ progress, first.runFrom progress = second.runFrom progress) : first = second :=
  funext h

/-- A value changes nothing. -/
@[simp] theorem runFrom_pure (value : α) (progress : Progress σ) :
    (pure value : ExpandM σ α).runFrom progress = (.ok value, progress) := rfl

/-- An early end changes nothing. -/
@[simp] theorem runFrom_throw (stop : Stop) (progress : Progress σ) :
    (throw stop : ExpandM σ α).runFrom progress = (.error stop, progress) := rfl

/-- An error changes nothing. -/
@[simp] theorem runFrom_fail (error : ExpansionError) (progress : Progress σ) :
    (fail error : ExpandM σ α).runFrom progress = (.error (.error error), progress) := rfl

/-- A value that is there is given as it is. -/
@[simp] theorem require_ok (value : α) : (require (.ok value) : ExpandM σ α) = pure value := rfl

/-- The progress can be asked for. -/
@[simp] theorem runFrom_get (progress : Progress σ) :
    (get : ExpandM σ (Progress σ)).runFrom progress = (.ok progress, progress) := rfl

/-- A program goes on from where its first part came to. -/
theorem runFrom_bind_of_ok {program : ExpandM σ α} {next : α → ExpandM σ β}
    {progress middle : Progress σ} {value : α}
    (h : program.runFrom progress = (.ok value, middle)) :
    (program >>= next).runFrom progress = (next value).runFrom middle := by
  change ExceptT.bindCont next (program.runFrom progress).1 (program.runFrom progress).2 = _
  rw [h]
  rfl

/-- A program ends where its first part ends early. -/
theorem runFrom_bind_of_error {program : ExpandM σ α} {next : α → ExpandM σ β}
    {progress ended : Progress σ} {stop : Stop}
    (h : program.runFrom progress = (.error stop, ended)) :
    (program >>= next).runFrom progress = (.error stop, ended) := by
  change ExceptT.bindCont next (program.runFrom progress).1 (program.runFrom progress).2 = _
  rw [h]
  rfl

/-- The result of a first part that cannot fail is handed on. -/
@[simp] theorem runFrom_pure_bind (value : α) (next : α → ExpandM σ β) (progress : Progress σ) :
    (pure value >>= next).runFrom progress = (next value).runFrom progress := rfl

/-- A run of two parts either goes through the first one or ends with it. -/
theorem bind_cases {program : ExpandM σ α} {next : α → ExpandM σ β} {progress ended : Progress σ}
    {outcome : Except Stop β} (h : (program >>= next).runFrom progress = (outcome, ended)) :
    (∃ value middle, program.runFrom progress = (.ok value, middle) ∧
        (next value).runFrom middle = (outcome, ended)) ∨
      ∃ stop, program.runFrom progress = (.error stop, ended) ∧ outcome = .error stop := by
  rcases hp : program.runFrom progress with ⟨stop | value, middle⟩
  · rw [runFrom_bind_of_error hp] at h
    cases h
    exact .inr ⟨stop, rfl, rfl⟩
  · rw [runFrom_bind_of_ok hp] at h
    exact .inl ⟨value, middle, rfl, h⟩

/-- A run of two parts that comes to a result goes through the first one. -/
theorem bind_ok {program : ExpandM σ α} {next : α → ExpandM σ β} {progress ended : Progress σ}
    {result : β} (h : (program >>= next).runFrom progress = (.ok result, ended)) :
    ∃ value middle, program.runFrom progress = (.ok value, middle) ∧
      (next value).runFrom middle = (.ok result, ended) := by
  rcases bind_cases h with through | ⟨stop, -, early⟩
  · exact through
  · cases early

/-- Giving errors a place changes neither results nor progress. -/
theorem runFrom_located (span : Span) (source : Option SourceText) (program : ExpandM σ α)
    (progress : Progress σ) :
    (located span source program).runFrom progress =
      match program.runFrom progress with
      | (.ok value, ended) => (.ok value, ended)
      | (.error (.error error), ended) => (.error (.error (error.located span source)), ended)
      | (.error stop, ended) => (.error stop, ended) := by
  rcases hp : program.runFrom progress with ⟨stop | value, ended⟩
  all_goals
    change ((program.runFrom progress).1.mapError _, (program.runFrom progress).2) = _
    rw [hp]
  · cases stop <;> rfl
  · rfl

/-- The host may only end the expansion. -/
theorem runFrom_checkCancelled (progress : Progress σ) :
    checkCancelled.runFrom progress =
      if progress.session.cancelled then (.error (.error .cancelled), progress)
      else (.ok (), progress) := by
  change (if progress.session.cancelled then fail .cancelled else pure () :
    ExpandM σ Unit).runFrom progress = _
  split <;> rfl

/-- The implementation of a macro comes from the registry, which remembers it. -/
theorem runFrom_resolve (symbol : MethodSymbol) (site : Site) (source : Option SourceText)
    (progress : Progress σ) :
    (resolve symbol site source).runFrom progress =
      ((progress.registry.resolve symbol site source).1.mapError .error,
        { progress with registry := (progress.registry.resolve symbol site source).2 }) := by
  unfold resolve
  rw [runFrom_bind_of_ok (runFrom_get progress)]
  rcases progress.registry.resolve symbol site source with ⟨error | implementation, registry⟩
  all_goals rfl

/-- A macro body runs in the session and leaves it changed. -/
theorem runFrom_runBody (implementation : Implementation σ) (invocation : Invocation)
    (config : ExpansionConfig) (source : Option SourceText) (buffers : Buffers) (buffer : BufferId)
    (progress : Progress σ) :
    (runBody implementation invocation config source buffers buffer).runFrom progress =
      let invoked := invoke implementation invocation config source buffers progress.session
      (invoked.outcome.map fun requested => (invoked.buffers.fragments buffer, requested),
        { progress with session := invoked.session }) := by
  unfold runBody
  rw [runFrom_bind_of_ok (runFrom_get progress)]
  rcases invoke implementation invocation config source buffers progress.session with
    ⟨stop | requested, buffers, session⟩
  all_goals rfl

/-! ## Results of programs -/

/-- Every result of a program has a property. -/
def Ensures (P : α → Prop) (program : ExpandM σ α) : Prop :=
  ∀ progress value ended, program.runFrom progress = (.ok value, ended) → P value

namespace Ensures

variable {P : α → Prop} {Q : β → Prop} {program : ExpandM σ α}

/-- The result of a program without steps is its value. -/
theorem pure {value : α} (h : P value) : Ensures P (Pure.pure value : ExpandM σ α) := by
  intro progress result ended hrun
  cases hrun
  exact h

/-- Early ends have no results. -/
theorem throw (stop : Stop) : Ensures P (MonadExcept.throw stop : ExpandM σ α) := by
  intro progress result ended hrun
  cases hrun

/-- A required value is there. -/
theorem require (value : Except ExpansionError α) :
    Ensures (fun result => value = .ok result) (ExpandM.require value : ExpandM σ α) := by
  intro progress result ended hrun
  cases value with
  | error => cases hrun
  | ok =>
    cases hrun
    rfl

/-- What the first part ensures may be used for the second one. -/
theorem bind {next : α → ExpandM σ β} (h : program.Ensures P)
    (hnext : ∀ value, P value → (next value).Ensures Q) : (program >>= next).Ensures Q := by
  intro progress result ended hrun
  obtain ⟨value, middle, hfirst, hsecond⟩ := bind_ok hrun
  exact hnext value (h progress value middle hfirst) middle result ended hsecond

/-- Of a first part nothing may be used but that it came to its value. -/
theorem bind_run {next : α → ExpandM σ β}
    (h : ∀ value progress middle, program.runFrom progress = (.ok value, middle) →
      (next value).Ensures Q) : (program >>= next).Ensures Q := by
  intro progress result ended hrun
  obtain ⟨value, middle, hfirst, hsecond⟩ := bind_ok hrun
  exact h value progress middle hfirst middle result ended hsecond

/-- What is ensured of the results for every member of a list is ensured of all results. -/
theorem mapM {P : β → Prop} {next : α → ExpandM σ β} (h : ∀ value, (next value).Ensures P)
    (values : List α) : (values.mapM next).Ensures fun results => ∀ result ∈ results, P result := by
  induction values with
  | nil =>
    rw [List.mapM_nil]
    exact .pure fun _ hmem => absurd hmem List.not_mem_nil
  | cons value rest ih =>
    rw [List.mapM_cons]
    refine (h value).bind fun first hfirst => ih.bind fun others hothers => .pure ?_
    intro result hmem
    rcases List.mem_cons.mp hmem with rfl | hmem
    · exact hfirst
    · exact hothers result hmem

/-- A weaker property will do. -/
theorem mono {P' : α → Prop} (h : program.Ensures P) (hP : ∀ value, P value → P' value) :
    program.Ensures P' :=
  fun progress value ended hrun => hP value (h progress value ended hrun)

/-- Nothing is ensured of every result. -/
theorem trivial (program : ExpandM σ α) : program.Ensures fun _ => True :=
  fun _ _ _ _ => True.intro

end Ensures

/-! ## Programs that keep an invariant -/

/-- From a progress with an invariant, a program comes to a result with some property and keeps the
invariant, or it stops in one of certain ways. -/
def Keeps (inv : Progress σ → Prop) (stops : Stop → Prop) (P : α → Prop) (program : ExpandM σ α) :
    Prop :=
  ∀ progress, inv progress → match program.runFrom progress with
    | (.ok value, ended) => P value ∧ inv ended
    | (.error stop, _) => stops stop

namespace Keeps

variable {inv : Progress σ → Prop} {stops : Stop → Prop} {P : α → Prop} {Q : β → Prop}
  {program : ExpandM σ α}

/-- A program without steps keeps everything. -/
theorem pure {value : α} (h : P value) : Keeps inv stops P (Pure.pure value : ExpandM σ α) :=
  fun _ hinv => ⟨h, hinv⟩

/-- A program may stop in the ways that are allowed. -/
theorem throw {stop : Stop} (h : stops stop) :
    Keeps inv stops P (MonadExcept.throw stop : ExpandM σ α) :=
  fun _ _ => h

/-- What the first part keeps may be used for the second one. -/
theorem bind {next : α → ExpandM σ β} (h : program.Keeps inv stops P)
    (hnext : ∀ value, P value → (next value).Keeps inv stops Q) :
    (program >>= next).Keeps inv stops Q := by
  intro progress hinv
  have hp := h progress hinv
  rcases hf : program.runFrom progress with ⟨stop | value, middle⟩
  · rw [hf] at hp
    rw [runFrom_bind_of_error hf]
    exact hp
  · rw [hf] at hp
    rw [runFrom_bind_of_ok hf]
    exact hnext value hp.1 middle hp.2

/-- A weaker property will do. -/
theorem mono {P' : α → Prop} (h : program.Keeps inv stops P) (hP : ∀ value, P value → P' value) :
    program.Keeps inv stops P' := by
  intro progress hinv
  have hp := h progress hinv
  rcases hf : program.runFrom progress with ⟨stop | value, ended⟩
  all_goals rw [hf] at hp
  · exact hp
  · exact ⟨hP value hp.1, hp.2⟩

/-- What is known of every member of a list that is gone through is known of all. -/
theorem mapM {P : β → Prop} {next : β → ExpandM σ α}
    (h : ∀ value, (next value).Keeps inv stops fun _ => P value) (values : List β) :
    (values.mapM next).Keeps inv stops fun _ => ∀ value ∈ values, P value := by
  induction values with
  | nil => exact .pure fun _ hmem => absurd hmem List.not_mem_nil
  | cons value rest ih =>
    rw [List.mapM_cons]
    exact (h value).bind fun _ hvalue => ih.bind fun _ hrest =>
      .pure (List.forall_mem_cons.mpr ⟨hvalue, hrest⟩)

/-- A list is gone through when the invariant is kept for each of its members. -/
theorem mapM_mem {values : List β} {next : β → ExpandM σ α}
    (h : ∀ value ∈ values, (next value).Keeps inv stops fun _ => True) :
    (values.mapM next).Keeps inv stops fun _ => True := by
  induction values with
  | nil => exact .pure True.intro
  | cons value rest ih =>
    obtain ⟨hvalue, hrest⟩ := List.forall_mem_cons.mp h
    rw [List.mapM_cons]
    exact hvalue.bind fun _ _ => (ih hrest).bind fun _ _ => .pure True.intro

/-- A host that goes on is asked without effect. -/
theorem checkCancelled_of_goesOn
    (h : ∀ progress, inv progress → progress.session.cancelled = false) :
    (ExpandM.checkCancelled : ExpandM σ Unit).Keeps inv stops fun _ => True := by
  intro progress hinv
  rw [runFrom_checkCancelled, h progress hinv]
  exact ⟨True.intro, hinv⟩

/-- Asking the host changes nothing; it may end the expansion. -/
theorem checkCancelled (h : stops (.error .cancelled)) :
    (ExpandM.checkCancelled : ExpandM σ Unit).Keeps inv stops fun _ => True := by
  intro progress hinv
  rw [runFrom_checkCancelled]
  by_cases hcancelled : progress.session.cancelled = true
  · rw [if_pos hcancelled]
    exact h
  · rw [if_neg hcancelled]
    exact ⟨True.intro, hinv⟩

/-- A program that does not stop does not stop either when its errors are given a place. -/
theorem located (h : program.Keeps inv (fun _ => False) P) (span : Span)
    (source : Option SourceText) : (ExpandM.located span source program).Keeps inv stops P := by
  intro progress hinv
  have hp := h progress hinv
  rw [runFrom_located]
  rcases hf : program.runFrom progress with ⟨stop | value, ended⟩
  all_goals rw [hf] at hp
  · exact hp.elim
  · exact hp

end Keeps

/-! ## Comparing programs -/

/-- Unless the first program ends in an ignored way, the second one ends like it: with a related
result, or with the same error, and with the same progress. -/
def Matches (ignored : Stop → Prop) (R : α → β → Prop) (first : ExpandM σ α)
    (second : ExpandM σ β) : Prop :=
  ∀ progress, match first.runFrom progress with
    | (.ok value, ended) => ∃ result, R value result ∧ second.runFrom progress = (.ok result, ended)
    | (.error stop, ended) => ignored stop ∨ second.runFrom progress = (.error stop, ended)

namespace Matches

variable {ignored : Stop → Prop} {R : α → β → Prop} {S : γ → δ → Prop}
  {first : ExpandM σ α} {second : ExpandM σ β}

/-- A program ends like itself. -/
theorem refl (ignored : Stop → Prop) (program : ExpandM σ α) :
    Matches ignored Eq program program := by
  intro progress
  rcases hp : program.runFrom progress with ⟨stop | value, ended⟩
  · exact .inr rfl
  · exact ⟨value, rfl, rfl⟩

/-- A program ends like itself, with results that it ensures. -/
theorem refl_ensures {P : α → Prop} {program : ExpandM σ α} (h : program.Ensures P) :
    Matches ignored (fun value result => value = result ∧ P value) program program := by
  intro progress
  rcases hp : program.runFrom progress with ⟨stop | value, ended⟩
  · exact .inr rfl
  · exact ⟨value, ⟨rfl, h progress value ended hp⟩, rfl⟩

/-- Related values are related as results. -/
theorem pure {value : α} {result : β} (h : R value result) :
    Matches ignored R (Pure.pure value : ExpandM σ α) (Pure.pure result) :=
  fun _ => ⟨result, h, rfl⟩

/-- Early ends match themselves. -/
theorem throw (stop : Stop) :
    Matches ignored R (MonadExcept.throw stop : ExpandM σ α) (MonadExcept.throw stop) :=
  fun _ => .inr rfl

/-- An early end that is ignored matches everything. -/
theorem of_ignored {stop : Stop} (h : ignored stop) :
    Matches ignored R (MonadExcept.throw stop : ExpandM σ α) second :=
  fun _ => .inl h

/-- Programs match when their parts do. -/
theorem bind {next : α → ExpandM σ γ} {next' : β → ExpandM σ δ} (h : Matches ignored R first second)
    (hnext : ∀ value result, R value result → Matches ignored S (next value) (next' result)) :
    Matches ignored S (first >>= next) (second >>= next') := by
  intro progress
  have hp := h progress
  rcases hf : first.runFrom progress with ⟨stop | value, middle⟩
  · rw [runFrom_bind_of_error hf]
    rw [hf] at hp
    exact hp.imp_right runFrom_bind_of_error
  · rw [hf] at hp
    obtain ⟨result, hR, hs⟩ := hp
    rw [runFrom_bind_of_ok hf, runFrom_bind_of_ok hs]
    exact hnext value result hR middle

/-- A weaker relation between the results will do. -/
theorem mono {R' : α → β → Prop} (h : Matches ignored R first second)
    (hR : ∀ value result, R value result → R' value result) : Matches ignored R' first second := by
  intro progress
  have hp := h progress
  rcases hf : first.runFrom progress with ⟨stop | value, ended⟩
  · rw [hf] at hp
    exact hp
  · rw [hf] at hp
    exact hp.imp fun result => And.imp_left (hR value result)

/-- Programs match when their parts come to the same. -/
theorem bind_same {program program' : ExpandM σ α} {next next' : α → ExpandM σ γ}
    (h : Matches ignored Eq program program')
    (hnext : ∀ value, Matches ignored Eq (next value) (next' value)) :
    Matches ignored Eq (program >>= next) (program' >>= next') :=
  h.bind fun value _ hvalue => hvalue ▸ hnext value

/-- Programs match when only what follows their common first part differs. -/
theorem bind_right {program : ExpandM σ α} {next next' : α → ExpandM σ γ}
    (hnext : ∀ value, Matches ignored Eq (next value) (next' value)) :
    Matches ignored Eq (program >>= next) (program >>= next') :=
  (refl ignored program).bind_same hnext

/-- Lists are mapped alike when their members are. -/
theorem mapM {next next' : β → ExpandM σ α} (h : ∀ value, Matches ignored Eq (next value) (next' value))
    (values : List β) : Matches ignored Eq (values.mapM next) (values.mapM next') := by
  induction values with
  | nil => exact refl ignored _
  | cons value rest ih =>
    rw [List.mapM_cons, List.mapM_cons]
    exact (h value).bind_same fun _ => ih.bind_same fun _ => refl ignored _

/-- Programs that match without exception come to the same. -/
theorem runFrom_eq {second : ExpandM σ α} (h : Matches (fun _ => False) Eq first second)
    (progress : Progress σ) : second.runFrom progress = first.runFrom progress := by
  have hp := h progress
  rcases hf : first.runFrom progress with ⟨stop | value, ended⟩
  · rw [hf] at hp
    exact hp.resolve_left id
  · rw [hf] at hp
    obtain ⟨result, rfl, hs⟩ := hp
    exact hs

end Matches

/-! ## Programs with enough fuel -/

/-- With enough fuel a program comes to an outcome. -/
def ComesTo (program : Nat → ExpandM σ α) (progress : Progress σ)
    (outcome : Except Stop α × Progress σ) : Prop :=
  ∃ enough, ∀ fuel, enough ≤ fuel → (program fuel).runFrom progress = outcome

namespace ComesTo

variable {program : Nat → ExpandM σ α} {next : Nat → α → ExpandM σ β}
  {progress middle ended : Progress σ}

/-- A program that uses no fuel comes to what it comes to. -/
theorem const {program : ExpandM σ α} {outcome : Except Stop α × Progress σ}
    (h : program.runFrom progress = outcome) : ComesTo (fun _ => program) progress outcome :=
  ⟨0, fun _ _ => h⟩

/-- Two parts come to what the second one comes to from where the first one does. -/
theorem bind {value : α} {outcome : Except Stop β × Progress σ}
    (h : ComesTo program progress (.ok value, middle))
    (hnext : ComesTo (fun fuel => next fuel value) middle outcome) :
    ComesTo (fun fuel => program fuel >>= next fuel) progress outcome := by
  obtain ⟨first, hfirst⟩ := h
  obtain ⟨second, hsecond⟩ := hnext
  refine ⟨max first second, fun fuel hfuel => ?_⟩
  rw [runFrom_bind_of_ok (hfirst fuel (by omega)), hsecond fuel (by omega)]

/-- Two parts end where the first one ends early. -/
theorem bind_error {stop : Stop} (h : ComesTo program progress (.error stop, ended)) :
    ComesTo (fun fuel => program fuel >>= next fuel) progress (.error stop, ended) := by
  obtain ⟨enough, henough⟩ := h
  exact ⟨enough, fun fuel hfuel => runFrom_bind_of_error (henough fuel hfuel)⟩

/-- One unit of fuel more makes no difference. -/
theorem succ {program : Nat → ExpandM σ α} {outcome : Except Stop α × Progress σ}
    (h : ComesTo (fun fuel => program (fuel + 1)) progress outcome) :
    ComesTo program progress outcome := by
  obtain ⟨enough, henough⟩ := h
  refine ⟨enough + 1, fun fuel hfuel => ?_⟩
  obtain ⟨fuel, rfl⟩ : ∃ smaller, fuel = smaller + 1 := ⟨fuel - 1, by omega⟩
  exact henough fuel (by omega)

end ComesTo

end ExpandM

namespace Flow

variable {σ α β γ δ : Type}

/-- A flow goes on with nothing but values that have a property. -/
def Holds (P : α → Prop) (flow : Flow α) : Prop :=
  ∀ value, flow = .proceed value → P value

/-- A property of results is one of the result that a part goes on with. -/
@[simp] theorem holds_proceed {P : α → Prop} {value : α} : (Flow.proceed value).Holds P ↔ P value :=
  ⟨fun h => h value rfl, fun h _ e => Flow.proceed.inj e ▸ h⟩

/-- It asks nothing of a replacement of the function. -/
@[simp] theorem holds_replaceFunction {P : α → Prop} {decl : FunctionDecl} :
    (Flow.replaceFunction decl : Flow α).Holds P :=
  fun _ e => nomatch e

/-- Two flows that replace the function alike, or proceed with related results. -/
inductive Related (R : α → β → Prop) : Flow α → Flow β → Prop where
  /-- Both go on. -/
  | proceed {value : α} {result : β} (h : R value result) :
      Related R (.proceed value) (.proceed result)
  /-- Both replace the function by the same one. -/
  | replaceFunction (decl : FunctionDecl) : Related R (.replaceFunction decl) (.replaceFunction decl)

/-- What follows a part gets the result that the part goes on with. -/
@[simp] theorem proceed_followedBy (value : α) (next : α → ExpandM σ (Flow β)) :
    (Flow.proceed value).followedBy next = next value := rfl

/-- Nothing follows a replacement of the function. -/
@[simp] theorem replaceFunction_followedBy (decl : FunctionDecl) (next : α → ExpandM σ (Flow β)) :
    (Flow.replaceFunction decl : Flow α).followedBy next = pure (.replaceFunction decl) := rfl

/-- Nothing is ensured of every value. -/
theorem ensures_trivial (program : ExpandM σ (Flow α)) :
    program.Ensures (Holds fun _ => True) :=
  fun _ _ _ _ _ _ => True.intro

/-- What is ensured one by one is ensured together. -/
theorem ensures_and {P Q : α → Prop} {program : ExpandM σ (Flow α)}
    (hP : program.Ensures (Holds P)) (hQ : program.Ensures (Holds Q)) :
    program.Ensures (Holds fun value => P value ∧ Q value) :=
  fun progress flow ended hrun value hvalue =>
    ⟨hP progress flow ended hrun value hvalue, hQ progress flow ended hrun value hvalue⟩

/-- What a part ensures may be used for what follows it. -/
theorem ensures_followedBy {P : α → Prop} {Q : β → Prop} {program : ExpandM σ (Flow α)}
    {next : α → ExpandM σ (Flow β)} (h : program.Ensures (Holds P))
    (hnext : ∀ value, P value → (next value).Ensures (Holds Q)) :
    (program >>= (·.followedBy next)).Ensures (Holds Q) := by
  refine h.bind fun flow hflow => ?_
  cases flow with
  | proceed value => exact hnext value (holds_proceed.mp hflow)
  | replaceFunction decl => exact .pure holds_replaceFunction

/-- A flow goes on, with a value that has a property. -/
def Proceeds (P : α → Prop) (flow : Flow α) : Prop :=
  ∃ value, flow = .proceed value ∧ P value

/-- What is known of the value of a part that goes on may be used for what follows it. -/
theorem keeps_followedBy {inv : Progress σ → Prop} {stops : Stop → Prop} {P : α → Prop}
    {Q : β → Prop} {program : ExpandM σ (Flow α)} {next : α → ExpandM σ (Flow β)}
    (h : program.Keeps inv stops (Proceeds P))
    (hnext : ∀ value, P value → (next value).Keeps inv stops (Proceeds Q)) :
    (program >>= (·.followedBy next)).Keeps inv stops (Proceeds Q) := by
  refine h.bind ?_
  rintro _ ⟨value, rfl, hvalue⟩
  exact hnext value hvalue

/-- A weaker relation between the results will do. -/
theorem Related.mono {R R' : α → β → Prop} {flow : Flow α} {flow' : Flow β}
    (h : Related R flow flow') (hR : ∀ value result, R value result → R' value result) :
    Related R' flow flow' := by
  cases h with
  | proceed h => exact .proceed (hR _ _ h)
  | replaceFunction decl => exact .replaceFunction decl

/-- A flow with another result. -/
def map (f : α → β) : Flow α → Flow β
  | .proceed value => .proceed (f value)
  | .replaceFunction decl => .replaceFunction decl

/-- A flow that is related by a function is the flow with the results of the function. -/
theorem Related.eq_map {f : α → β} {flow : Flow α} {flow' : Flow β}
    (h : Related (fun value result => f value = result) flow flow') : flow' = flow.map f := by
  cases h with
  | proceed h => rw [map, h]
  | replaceFunction decl => rfl

/-- Flows related by equality are equal. -/
theorem Related.eq {flow flow' : Flow α} (h : Related Eq flow flow') : flow = flow' := by
  cases h with
  | proceed h => rw [h]
  | replaceFunction => rfl

/-- Following twice is following by what is followed. -/
theorem bind_followedBy_assoc (program : ExpandM σ (Flow α)) (next : α → ExpandM σ (Flow β))
    (last : β → ExpandM σ (Flow γ)) :
    (program >>= (·.followedBy next)) >>= (·.followedBy last) =
      program >>= (·.followedBy fun value => next value >>= (·.followedBy last)) := by
  rw [bind_assoc]
  congr 1
  funext flow
  cases flow with
  | proceed value => rfl
  | replaceFunction decl => exact pure_bind _ _

/-- Going on with the value itself adds nothing. -/
theorem bind_followedBy_pure (program : ExpandM σ (Flow α)) :
    program >>= (·.followedBy fun value => pure (.proceed value)) = program := by
  refine Eq.trans (congrArg (program >>= ·) ?_) (bind_pure program)
  funext flow
  cases flow <;> rfl

/-- A program that may replace the function ends like itself, with values that it ensures. -/
theorem matches_refl {ignored : Stop → Prop} {P : α → Prop} {program : ExpandM σ (Flow α)}
    (h : program.Ensures (Holds P)) :
    ExpandM.Matches ignored (Related fun value result => value = result ∧ P value) program
      program := by
  refine (ExpandM.Matches.refl_ensures h).mono ?_
  rintro flow _ ⟨rfl, hflow⟩
  cases flow with
  | proceed value => exact .proceed ⟨rfl, hflow value rfl⟩
  | replaceFunction decl => exact .replaceFunction decl

/-- Parts that are followed match when the parts and what follows them do. -/
theorem matches_followedBy {ignored : Stop → Prop} {R : α → β → Prop} {S : γ → δ → Prop}
    {first : ExpandM σ (Flow α)} {second : ExpandM σ (Flow β)} {next : α → ExpandM σ (Flow γ)}
    {next' : β → ExpandM σ (Flow δ)} (h : ExpandM.Matches ignored (Related R) first second)
    (hnext : ∀ value result, R value result →
      ExpandM.Matches ignored (Related S) (next value) (next' result)) :
    ExpandM.Matches ignored (Related S) (first >>= (·.followedBy next))
      (second >>= (·.followedBy next')) := by
  refine h.bind fun flow flow' related => ?_
  cases related with
  | proceed hR => exact hnext _ _ hR
  | replaceFunction decl => exact .pure (.replaceFunction decl)

/-- Parts are followed alike when they and what follows them come to the same. -/
theorem matches_followedBy_same {ignored : Stop → Prop} {flow flow' : ExpandM σ (Flow α)}
    {next next' : α → ExpandM σ (Flow β)} (h : ExpandM.Matches ignored Eq flow flow')
    (hnext : ∀ value, ExpandM.Matches ignored Eq (next value) (next' value)) :
    ExpandM.Matches ignored Eq (flow >>= (·.followedBy next)) (flow' >>= (·.followedBy next')) := by
  refine h.bind_same fun flow => ?_
  cases flow with
  | proceed value => exact hnext value
  | replaceFunction decl => exact .refl ignored _

end Flow

/-! ## Whole expansions -/

/-- The text that errors of the tree show. -/
def SyntaxTree.sourceText (tree : SyntaxTree) : Option SourceText :=
  FileOrigin.source { path := tree.path, text := tree.source }

namespace Expander

variable {σ : Type} {walkAll : FileWalk σ → SequenceWalk σ} {expander : Expander}
  {tree : SyntaxTree} {workspace : Workspace σ}

/-- The program that expands the items of a file. -/
def itemsProgram (walkAll : FileWalk σ → SequenceWalk σ) (expander : Expander) (tree : SyntaxTree) :
    ExpandM σ (List Item) :=
  let walk : FileWalk σ := { expander, file := { path := tree.path, text := tree.source } }
  tree.items.mapM (walk.expandItem (walkAll walk))

/-- A file is expanded item by item. -/
theorem expandBy_eq :
    expandBy walkAll expander tree workspace =
      let ended := (itemsProgram walkAll expander tree).runFrom { toWorkspace := workspace }
      (ended.1.map fun items =>
        { tree := { tree with items }
          trace := ended.2.trace.toList
          warnings := ended.2.warnings.toList },
        ended.2.toWorkspace) := rfl

/-- A file is expanded when its program comes to items. -/
theorem expandBy_ok_iff {expansion : Expansion} {left : Workspace σ} :
    expandBy walkAll expander tree workspace = (.ok expansion, left) ↔
      ∃ items ended,
        (itemsProgram walkAll expander tree).runFrom { toWorkspace := workspace } =
            (.ok items, ended) ∧
          expansion = ⟨{ tree with items }, ended.trace.toList, ended.warnings.toList⟩ ∧
          left = ended.toWorkspace := by
  rw [expandBy_eq]
  rcases (itemsProgram walkAll expander tree).runFrom { toWorkspace := workspace } with
    ⟨stop | items, ended⟩
  · refine ⟨fun h => (nomatch h), ?_⟩
    rintro ⟨items, ended, ⟨⟩, -⟩
  · constructor
    · intro h
      cases h
      exact ⟨items, ended, rfl, rfl, rfl⟩
    · rintro ⟨_, _, ⟨⟩, rfl, rfl⟩
      rfl

/-- A file is expanded as its program comes to an end: with its items and what it keeps, or in one of
the ways in which it may stop. -/
theorem expandBy_keeps {inv : Progress σ → Prop} {stops : Stop → Prop} {P : List Item → Prop}
    (h : (itemsProgram walkAll expander tree).Keeps inv stops P)
    (hinv : inv { toWorkspace := workspace }) :
    match (expandBy walkAll expander tree workspace).1 with
    | .ok expansion => P expansion.tree.items ∧ ∃ ended, inv ended ∧
        expansion.trace = ended.trace.toList ∧ expansion.warnings = ended.warnings.toList
    | .error stop => stops stop := by
  have hrun := h _ hinv
  rw [expandBy_eq]
  rcases hended : (itemsProgram walkAll expander tree).runFrom { toWorkspace := workspace } with
    ⟨stop | items, ended⟩
  all_goals rw [hended] at hrun
  · exact hrun
  · exact ⟨hrun.1, ended, hrun.2, rfl, rfl⟩

/-- An expanded file consists of its expanded items. -/
theorem expandBy_ok {expansion : Expansion}
    (h : (expandBy walkAll expander tree workspace).1 = .ok expansion) :
    ∃ ended, (itemsProgram walkAll expander tree).runFrom { toWorkspace := workspace } =
      (.ok expansion.tree.items, ended) := by
  rw [expandBy_eq] at h
  rcases hrun : (itemsProgram walkAll expander tree).runFrom { toWorkspace := workspace } with
    ⟨stop | items, ended⟩
  all_goals
    rw [hrun] at h
    cases h
  exact ⟨ended, rfl⟩

end Expander

end MacroExpansion
