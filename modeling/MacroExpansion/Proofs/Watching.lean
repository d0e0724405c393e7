import MacroExpansion.Proofs.CallOutcome
import MacroExpansion.Proofs.CursorShows
import MacroExpansion.Proofs.Recording

/-! # Watched runs

A watching host writes down what an expansion does: that it comes to the statement at a place, and that
it runs a macro body. Both are written down with what the host has asked for by then, whether it wants
the expansion to end. As with recorded runs, the bodies do not see what is written.

`ExpandM.Watches` says that a program on a watching host is the program itself, and adds events of a
form that goes with the way in which it ended (`Ending`). As long as no body takes back what the host
has asked for, the events tell when it was asked for: once they say so they go on saying so
(`Event.Steady`). -/

namespace MacroExpansion

/-- A macro body that was run. -/
structure MacroRun where
  /-- Whether the host had asked for the end when the body was done. -/
  cancelled : Bool
  /-- The name of the macro. -/
  name : String
  /-- What the body received. -/
  invocation : Invocation

/-- What is seen of an expansion. -/
inductive Event where
  /-- It comes to the statement at a place, with the host having asked for the end or not. -/
  | visit (cancelled : Bool) (place : Place)
  /-- It runs a macro body. -/
  | run (run : MacroRun)

/-- Whether the host had asked for the end by then. -/
def Event.cancelled : Event → Bool
  | .visit cancelled _ => cancelled
  | .run made => made.cancelled

/-- What a host keeps for its macro bodies, with what was seen so far. -/
structure Watching (σ : Type) where
  /-- What the bodies see. -/
  host : σ
  /-- The events, oldest first. -/
  events : List Event := []

variable {σ : Type}

/-- A session with earlier events. -/
def Session.watched (session : Session σ) (earlier : List Event) : Session (Watching σ) :=
  session.withHost { host := session.host, events := earlier }

/-- Runs a body on what it can see of a watching host. -/
def BodyM.watched (program : BodyM σ α) : BodyM (Watching σ) α := fun state =>
  let ended := program.run.run
    { buffers := state.buffers, session := state.session.withHost state.session.host.host }
  (ended.1, ⟨ended.2.buffers, ended.2.session.watched state.session.host.events⟩)

/-- An implementation whose runs are seen. -/
def Implementation.watched (implementation : Implementation σ) : Implementation (Watching σ) where
  name := implementation.name
  body invocation := fun state =>
    let ended := (implementation.body invocation).watched.run.run state
    let run : MacroRun := ⟨ended.2.session.cancelled, implementation.name, invocation⟩
    -- a run is seen even if it fails
    (ended.1, { ended.2 with session.host.events := ended.2.session.host.events ++ [.run run] })

/-- A workspace in which all runs are seen. -/
def Workspace.watched (workspace : Workspace σ) (earlier : List Event := []) :
    Workspace (Watching σ) where
  session := workspace.session.watched earlier
  registry := workspace.registry.withBodies Implementation.watched

/-- A progress from which all runs are seen. -/
def Progress.watched (progress : Progress σ) (earlier : List Event) : Progress (Watching σ) where
  toWorkspace := progress.toWorkspace.watched earlier
  trace := progress.trace
  warnings := progress.warnings

/-- Writes down that the walk comes to the statement at a cursor, and ends the expansion when the host
has asked for it. -/
def ExpandM.visit (cursor : Cursor) : ExpandM (Watching σ) Unit := do
  modify fun progress =>
    { progress with
      session.host.events :=
        progress.session.host.events ++ [.visit progress.session.cancelled cursor.place] }
  checkCancelled

/-! ## Asking for the end once and for all -/

/-- The body never takes back what the host has asked for. -/
def Implementation.CancelsForGood (implementation : Implementation σ) : Prop :=
  ∀ invocation state, state.session.cancelled = true →
    ((implementation.body invocation).run.run state).2.session.cancelled = true

/-- No body of the registry takes back what the host has asked for. -/
def Registry.CancelsForGood (registry : Registry σ) : Prop :=
  ∀ implementation, registry.Has implementation → implementation.CancelsForGood

/-- Between two moments, what was asked for stays asked for, as the events tell. -/
def Event.Steady : (before : Bool) → List Event → (after : Bool) → Prop
  | before, [], after => before ≤ after
  | before, event :: rest, after => before ≤ event.cancelled ∧ Steady event.cancelled rest after

namespace Event.Steady

variable {before middle after : Bool} {first second : List Event}

/-- What was asked for before was asked for earlier still. -/
theorem of_le {earlier : Bool} (hle : earlier ≤ before) (h : Steady before first after) :
    Steady earlier first after := by
  cases first with
  | nil => exact Bool.le_trans hle h
  | cons event rest => exact ⟨Bool.le_trans hle h.1, h.2⟩

/-- Events in sequence are steady when both parts are, and the second one begins where the first one
ends. -/
theorem append (h : Steady before first middle) (h' : Steady middle second after) :
    Steady before (first ++ second) after := by
  induction first generalizing before with
  | nil => exact h'.of_le h
  | cons event rest ih => exact ⟨h.1, ih h.2⟩

/-- Later events are steady by themselves. -/
theorem of_append (h : Steady before (first ++ second) after) :
    ∃ middle, before ≤ middle ∧ Steady middle second after := by
  induction first generalizing before with
  | nil => exact ⟨before, Bool.le_refl _, h⟩
  | cons event rest ih =>
    obtain ⟨middle, hle, hsteady⟩ := ih h.2
    exact ⟨middle, Bool.le_trans h.1 hle, hsteady⟩

end Event.Steady

/-! ## Running one body -/

/-- Whether the host asked for the end. -/
def Stop.isCancelled : Stop → Bool
  | .error .cancelled => true
  | _ => false

/-- Whether a program ended because the host had asked for it. -/
def isCancelled {α : Type} : Except Stop α → Bool
  | .error stop => stop.isCancelled
  | .ok _ => false

/-- The ways in which a program ends, as far as they matter to what is seen of it. -/
inductive Ending where
  /-- It comes to a value, and what follows it goes on. -/
  | value
  /-- It fails or panics. -/
  | failure
  /-- The host has asked for the end. -/
  | cancelled
  deriving DecidableEq

/-- The way in which a program ended. -/
def ending {α : Type} : Except Stop α → Ending
  | .ok _ => .value
  | .error stop => if stop.isCancelled then .cancelled else .failure

/-- From a progress, a program on a watching host does what the program itself does, and adds events
of a form that goes with the way in which it ended. -/
def ExpandM.WatchesFrom (form : Ending → List Event → Prop) (program : ExpandM σ α)
    (watching : ExpandM (Watching σ) α) (progress : Progress σ) (earlier : List Event) : Prop :=
  ∃ events,
    let ended := program.runFrom progress
    form (ending ended.1) events ∧
    watching.runFrom (progress.watched earlier) = (ended.1, ended.2.watched (earlier ++ events)) ∧
    (progress.registry.CancelsForGood → ended.2.registry.CancelsForGood ∧
      Event.Steady progress.session.cancelled events ended.2.session.cancelled)

/-- A program on a watching host is the program itself, with events of a certain form added. -/
def ExpandM.Watches (form : Ending → List Event → Prop) (program : ExpandM σ α)
    (watching : ExpandM (Watching σ) α) : Prop :=
  ∀ progress earlier, WatchesFrom form program watching progress earlier

/-- A program of which nothing is seen, and which the host does not end. -/
abbrev ExpandM.Unseen (program : ExpandM σ α) (watching : ExpandM (Watching σ) α) : Prop :=
  Watches (fun ended events => ended ≠ .cancelled ∧ events = []) program watching

namespace ExpandM

variable {α β : Type} {form form' form'' : Ending → List Event → Prop} {program : ExpandM σ α}
  {watching : ExpandM (Watching σ) α} {next : α → ExpandM σ β}
  {next' : α → ExpandM (Watching σ) β} {progress : Progress σ} {earlier : List Event}

/-! ### From one progress -/

/-- A program that leaves session and registry alone is not seen. -/
theorem WatchesFrom.of_eq (hrun : watching.runFrom (progress.watched earlier) =
      ((program.runFrom progress).1, (program.runFrom progress).2.watched earlier))
    (hkept : (program.runFrom progress).2.toWorkspace = progress.toWorkspace)
    (hnil : form (ending (program.runFrom progress).1) []) :
    WatchesFrom form program watching progress earlier := by
  refine ⟨[], hnil, by rw [List.append_nil, hrun], fun hgood => ?_⟩
  rw [hkept]
  exact ⟨hgood, Bool.le_refl _⟩

/-- Events of two parts are added one after the other, those of the first one as it came to a value. -/
theorem WatchesFrom.bind (h : WatchesFrom form program watching progress earlier)
    (hnext : ∀ value, Watches form' (next value) (next' value))
    (hend : ∀ ended first, ended ≠ .value → form ended first → form'' ended first)
    (happend : ∀ ended first second, form .value first → form' ended second →
      form'' ended (first ++ second)) :
    WatchesFrom form'' (program >>= next) (watching >>= next') progress earlier := by
  obtain ⟨first, hfirst, hrun, hgood⟩ := h
  rcases hp : program.runFrom progress with ⟨stop | value, middle⟩
  all_goals rw [hp] at hfirst hrun hgood
  · refine ⟨first, ?_⟩
    rw [runFrom_bind_of_error hp, runFrom_bind_of_error hrun]
    have hstopped : ending (Except.error stop : Except Stop α) ≠ .value := by
      rw [ending]
      split <;> nofun
    exact ⟨hend _ first hstopped hfirst, rfl, hgood⟩
  · -- the second part starts behind the events of the first one
    obtain ⟨second, hsecond, hrun', hgood'⟩ := hnext value middle (earlier ++ first)
    refine ⟨first ++ second, ?_⟩
    rw [runFrom_bind_of_ok hp, runFrom_bind_of_ok hrun]
    refine ⟨happend _ first second hfirst hsecond, ?_, fun hstart => ?_⟩
    · rw [hrun', List.append_assoc]
    · obtain ⟨hmiddle, hsteady⟩ := hgood hstart
      obtain ⟨hended, hsteady'⟩ := hgood' hmiddle
      exact ⟨hended, hsteady.append hsteady'⟩

namespace Watches

/-- Other events may be added as well. -/
theorem mono (h : Watches form program watching)
    (hform : ∀ ended events, form ended events → form' ended events) :
    Watches form' program watching := by
  intro progress earlier
  obtain ⟨events, hevents, hrun⟩ := h progress earlier
  exact ⟨events, hform _ events hevents, hrun⟩

/-- Programs are watched part by part. -/
theorem bind (h : Watches form program watching)
    (hnext : ∀ value, Watches form' (next value) (next' value))
    (hend : ∀ ended first, ended ≠ .value → form ended first → form'' ended first)
    (happend : ∀ ended first second, form .value first → form' ended second →
      form'' ended (first ++ second)) :
    Watches form'' (program >>= next) (watching >>= next') :=
  fun progress earlier => (h progress earlier).bind hnext hend happend

/-- Giving errors a place adds no event. -/
theorem located (h : Watches form program watching) (span : Span) (source : Option SourceText) :
    Watches form (ExpandM.located span source program) (ExpandM.located span source watching) := by
  intro progress earlier
  obtain ⟨events, hevents, hrun, hgood⟩ := h progress earlier
  refine ⟨events, ?_⟩
  rw [runFrom_located, runFrom_located, hrun]
  rcases hp : program.runFrom progress with ⟨stop | value, ended⟩
  all_goals rw [hp] at hevents hgood
  · cases stop with
    | error error =>
      refine ⟨?_, rfl, hgood⟩
      cases error <;> exact hevents
    | panic payload => exact ⟨hevents, rfl, hgood⟩
    | exhausted => exact ⟨hevents, rfl, hgood⟩
  · exact ⟨hevents, rfl, hgood⟩

end Watches

/-- What follows a part of which nothing is seen adds its own events. -/
theorem Unseen.bind (h : Unseen program watching)
    (hnext : ∀ value, Watches form (next value) (next' value)) (hnil : form .failure []) :
    Watches form (program >>= next) (watching >>= next') := by
  refine Watches.bind h hnext ?_ ?_
  · rintro ended _ hstopped ⟨hnot, rfl⟩
    cases ended with
    | value => exact absurd rfl hstopped
    | failure => exact hnil
    | cancelled => exact absurd rfl hnot
  · rintro ended _ second ⟨-, rfl⟩ hsecond
    exact hsecond

/-- Nothing is seen of a value. -/
theorem unseen_pure (value : α) : Unseen (σ := σ) (pure value) (pure value) :=
  fun _ _ => .of_eq rfl rfl ⟨nofun, rfl⟩

end ExpandM

/-! ## Watched calls -/

/-- The events are runs of macro bodies for the call at a site. If the call is expanded, there is at
least one. -/
def Site.Runs (site : Site) (ended : Ending) (events : List Event) : Prop :=
  ended ≠ .cancelled ∧ ∃ runs : List MacroRun,
    (∀ run ∈ runs, run.invocation.site = site) ∧ (ended = .value → runs ≠ []) ∧
      events = runs.map .run

/-- Nothing has to be seen of a call that fails. -/
theorem Site.Runs.nil (site : Site) : site.Runs .failure [] :=
  ⟨nofun, [], List.forall_mem_nil _, nofun, rfl⟩

namespace ExpandM

variable {α β : Type} {form : Ending → List Event → Prop}

end ExpandM

end MacroExpansion
