import MacroExpansion.Proofs.Program

/-! # Programs that simulate others

A program is run where another one could be run as well, from a progress that differs in what does
not matter. `ExpandM.Simulates` says that it comes to a related result, or stops in the same way; only
where a stop of the other program is ignored it may do as it likes. Unlike `ExpandM.Matches`, the two
runs need not start from the same progress, but from progresses in a relation that they keep.

`Mirrors` says the same of computations without progress. -/

namespace MacroExpansion

/-- A computation that comes to a related result, or to the same error, unless errors are ignored. -/
inductive Mirrors {ε α β : Type} (ignored : Prop) (R : α → β → Prop) :
    Except ε α → Except ε β → Prop where
  /-- Both come to a result. -/
  | ok {value : α} {result : β} (h : R value result) : Mirrors ignored R (.ok value) (.ok result)
  /-- Both come to the same error. -/
  | error (error : ε) : Mirrors ignored R (.error error) (.error error)
  /-- The first one comes to an error that is ignored. -/
  | ignored (h : ignored) (error : ε) (second : Except ε β) :
      Mirrors ignored R (.error error) second

namespace Mirrors

variable {ε α β γ δ : Type} {ignored : Prop} {R : α → β → Prop} {S : γ → δ → Prop}
  {first : Except ε α} {second : Except ε β}

/-- Equal computations mirror each other. -/
theorem of_eq {first second : Except ε α} (h : second = first) : Mirrors ignored Eq first second := by
  rw [h]
  cases first with
  | ok value => exact .ok rfl
  | error error => exact .error error

/-- The results may be related in a weaker way. -/
theorem mono {R' : α → β → Prop} (h : Mirrors ignored R first second)
    (hR : ∀ value result, R value result → R' value result) : Mirrors ignored R' first second := by
  cases h with
  | ok h => exact .ok (hR _ _ h)
  | error error => exact .error error
  | ignored h error second => exact .ignored h error second

/-- More errors may be ignored. -/
theorem weaken {ignored' : Prop} (h : Mirrors ignored R first second) (hignored : ignored → ignored') :
    Mirrors ignored' R first second := by
  cases h with
  | ok h => exact .ok h
  | error error => exact .error error
  | ignored h error second => exact .ignored (hignored h) error second

/-- Outcomes mirror each other part by part. -/
theorem bind (h : Mirrors ignored R first second) {next : α → Except ε γ} {next' : β → Except ε δ}
    (hnext : ∀ value result, R value result → Mirrors ignored S (next value) (next' result)) :
    Mirrors ignored S (first >>= next) (second >>= next') := by
  cases h with
  | ok h => exact hnext _ _ h
  | error error => exact .error error
  | ignored h error second => exact .ignored h error _

end Mirrors

/-- Both flows go on, with related results. -/
def Flow.BothProceed {α β : Type} (R : α → β → Prop) (flow : Flow α) (flow' : Flow β) : Prop :=
  ∃ value result, flow = .proceed value ∧ flow' = .proceed result ∧ R value result

namespace ExpandM

variable {σ α β γ δ : Type}

/-- From progresses in the frame, the second program comes to a related result, and to progresses in
the frame, or it stops in the same way, unless the stops of the first one are ignored. -/
def Simulates (frame : Progress σ → Progress σ → Prop) (ignored : Prop) (R : α → β → Prop)
    (first : ExpandM σ α) (second : ExpandM σ β) : Prop :=
  ∀ progress other, frame progress other → match first.runFrom progress with
    | (.ok value, ended) => ∃ result ended', second.runFrom other = (.ok result, ended') ∧
        R value result ∧ frame ended ended'
    | (.error stop, _) => ignored ∨ (second.runFrom other).1 = .error stop

namespace Simulates

variable {frame : Progress σ → Progress σ → Prop} {ignored ignored' : Prop} {R R' : α → β → Prop}
  {S : γ → δ → Prop} {first : ExpandM σ α} {second : ExpandM σ β}

/-- Related values simulate each other. -/
theorem pure {value : α} {result : β} (h : R value result) :
    Simulates frame ignored R (Pure.pure value) (Pure.pure result) :=
  fun _ other hframe => ⟨result, other, rfl, h, hframe⟩

/-- An early end simulates itself. -/
theorem throw (stop : Stop) :
    Simulates frame ignored R (MonadExcept.throw stop) (MonadExcept.throw stop) :=
  fun _ _ _ => .inr rfl

/-- An early end that is ignored is simulated by everything. -/
theorem of_ignored (h : ignored) (stop : Stop) :
    Simulates frame ignored R (MonadExcept.throw stop) second :=
  fun _ _ _ => .inl h

/-- Where no stop is ignored, the first program simulates the second one as well. -/
theorem symm (h : Simulates frame False R first second) :
    Simulates (fun progress other => frame other progress) ignored (fun result value => R value result)
      second first := by
  intro other progress hframe
  have hfirst := h progress other hframe
  rcases hrun : first.runFrom progress with ⟨stop | value, ended⟩
  all_goals rw [hrun] at hfirst
  · -- no stop is ignored, so the second program stops in the same way
    have hstop := hfirst.resolve_left id
    rcases hrun' : second.runFrom other with ⟨outcome, ended'⟩
    rw [hrun'] at hstop
    rw [show outcome = .error stop from hstop]
    exact .inr rfl
  · obtain ⟨result, ended', hrun', hR, hended⟩ := hfirst
    rw [hrun']
    exact ⟨value, ended, rfl, hR, hended⟩

/-- Programs simulate each other when their parts do. -/
theorem bind {next : α → ExpandM σ γ} {next' : β → ExpandM σ δ}
    (h : Simulates frame ignored R first second)
    (hnext : ∀ value result, R value result →
      Simulates frame ignored S (next value) (next' result)) :
    Simulates frame ignored S (first >>= next) (second >>= next') := by
  intro progress other hframe
  have hfirst := h progress other hframe
  rcases hrun : first.runFrom progress with ⟨stop | value, middle⟩
  all_goals rw [hrun] at hfirst
  · rw [runFrom_bind_of_error hrun]
    refine hfirst.imp_right fun hstop => ?_
    rw [runFrom_bind_of_error (Prod.ext hstop rfl)]
  · obtain ⟨result, middle', hrun', hR, hmiddle⟩ := hfirst
    rw [runFrom_bind_of_ok hrun, runFrom_bind_of_ok hrun']
    exact hnext value result hR middle middle' hmiddle

/-- More stops may be ignored, and the results may be related in a weaker way. -/
theorem mono (h : Simulates frame ignored R first second) (hignored : ignored → ignored')
    (hR : ∀ value result, R value result → R' value result) :
    Simulates frame ignored' R' first second := by
  intro progress other hframe
  have hp := h progress other hframe
  rcases hrun : first.runFrom progress with ⟨stop | value, ended⟩
  all_goals rw [hrun] at hp
  · exact hp.imp_left hignored
  · obtain ⟨result, ended', hrun', hrelated, hended⟩ := hp
    exact ⟨result, ended', hrun', hR _ _ hrelated, hended⟩

/-- The results of the first program have what the program ensures. -/
theorem and_ensures {P : α → Prop} (h : Simulates frame ignored R first second)
    (hP : first.Ensures P) :
    Simulates frame ignored (fun value result => R value result ∧ P value) first second := by
  intro progress other hframe
  have hp := h progress other hframe
  rcases hrun : first.runFrom progress with ⟨stop | value, ended⟩
  all_goals rw [hrun] at hp
  · exact hp
  · obtain ⟨result, ended', hrun', hrelated, hended⟩ := hp
    exact ⟨result, ended', hrun', ⟨hrelated, hP _ _ _ hrun⟩, hended⟩

/-- The results of the first program have what it comes to from the progresses of the frame. -/
theorem and_keeps {inv : Progress σ → Prop} {stops : Stop → Prop} {P : α → Prop}
    (h : Simulates frame ignored R first second)
    (hframe : ∀ progress other, frame progress other → inv progress)
    (hP : first.Keeps inv stops P) :
    Simulates frame ignored (fun value result => R value result ∧ P value) first second := by
  intro progress other hrelated
  have hp := h progress other hrelated
  have hkept := hP progress (hframe progress other hrelated)
  rcases hrun : first.runFrom progress with ⟨stop | value, ended⟩
  all_goals rw [hrun] at hp hkept
  · exact hp
  · obtain ⟨result, ended', hrun', hR, hended⟩ := hp
    exact ⟨result, ended', hrun', ⟨hR, hkept.1⟩, hended⟩

/-- The first program may begin with a part of its own that keeps the frame. -/
theorem of_keeps {P : γ → Prop} {part : ExpandM σ γ} {next : γ → ExpandM σ α}
    (hpart : ∀ other, part.Keeps (frame · other) (fun _ => ignored) P)
    (hnext : ∀ value, P value → Simulates frame ignored R (next value) second) :
    Simulates frame ignored R (part >>= next) second := by
  intro progress other hframe
  have hkept := hpart other progress hframe
  rcases hrun : part.runFrom progress with ⟨stop | value, middle⟩
  all_goals rw [hrun] at hkept
  · rw [runFrom_bind_of_error hrun]
    exact .inl hkept
  · rw [runFrom_bind_of_ok hrun]
    exact hnext value hkept.1 middle other hkept.2

/-- Values are required alike where they mirror each other. -/
theorem require {value : Except ExpansionError α} {result : Except ExpansionError β}
    (h : Mirrors ignored R value result) :
    Simulates frame ignored R (ExpandM.require value) (ExpandM.require result) := by
  cases h with
  | ok h => exact pure h
  | error error => exact throw _
  | ignored h error second => exact fun _ _ _ => .inl h

/-- Errors are given the same place in both programs. -/
theorem located (h : Simulates frame ignored R first second) (span : Span)
    (source : Option SourceText) :
    Simulates frame ignored R (ExpandM.located span source first)
      (ExpandM.located span source second) := by
  intro progress other hframe
  have hp := h progress other hframe
  rw [runFrom_located, runFrom_located]
  rcases hrun : first.runFrom progress with ⟨stop | value, ended⟩
  all_goals rw [hrun] at hp
  · rcases hrun' : second.runFrom other with ⟨outcome, ended'⟩
    rw [hrun'] at hp
    cases stop
    all_goals
      refine hp.imp_right fun hstop => ?_
      rw [show outcome = .error _ from hstop]
  · obtain ⟨result, ended', hrun', hrelated⟩ := hp
    rw [hrun']
    exact ⟨result, ended', rfl, hrelated⟩

/-- Parts that may replace the function are followed alike. -/
theorem followedBy {first : ExpandM σ (Flow α)} {second : ExpandM σ (Flow β)}
    {next : α → ExpandM σ (Flow γ)} {next' : β → ExpandM σ (Flow δ)}
    (h : Simulates frame ignored (Flow.Related R) first second)
    (hnext : ∀ value result, R value result →
      Simulates frame ignored (Flow.Related S) (next value) (next' result)) :
    Simulates frame ignored (Flow.Related S) (first >>= (·.followedBy next))
      (second >>= (·.followedBy next')) := by
  refine h.bind fun flow flow' related => ?_
  cases related with
  | proceed hR => exact hnext _ _ hR
  | replaceFunction decl => exact pure (.replaceFunction decl)

/-- Parts that go on in both programs are followed alike. -/
theorem followedBy_proceeding {first : ExpandM σ (Flow α)} {second : ExpandM σ (Flow β)}
    {next : α → ExpandM σ (Flow γ)} {next' : β → ExpandM σ (Flow δ)}
    {S : Flow γ → Flow δ → Prop} (h : Simulates frame ignored (Flow.BothProceed R) first second)
    (hnext : ∀ value result, R value result →
      Simulates frame ignored S (next value) (next' result)) :
    Simulates frame ignored S (first >>= (·.followedBy next)) (second >>= (·.followedBy next')) := by
  refine h.bind ?_
  rintro _ _ ⟨value, result, rfl, rfl, hR⟩
  exact hnext value result hR

end Simulates

end ExpandM

end MacroExpansion
