import MacroExpansion.Proofs.Height
import MacroExpansion.Proofs.Recording
import MacroExpansion.Proofs.Unchanged

/-! # A walk that pauses

`FileWalk.pausedAt` is a walk that stops expanding once a number of invocations is on record: from
then on it goes over the remaining code and puts everything back as it found it. What it comes to is
the code as it stood when the next macro would have been called.

`ExpandM.Tracks` compares a recording program with its paused one: up to that invocation both do the
same, and if the invocation takes place at all, the paused program comes to a value that is related
to the site of the invocation. It composes along `bind`, as long as what follows leaves everything
as it is on pause (`ExpandM.Idles`). -/

namespace MacroExpansion

variable {σ : Type}

namespace ExpandM

variable {α β : Type}

/-- A program that is run only while fewer than `count` invocations are on record. -/
def before (count : Nat) (otherwise : α) (program : ExpandM (Recording σ) α) :
    ExpandM (Recording σ) α := do
  if (← get).invocations.length < count then program else return otherwise

/-- A program runs as long as fewer invocations are on record, and is left out from then on. -/
theorem runFrom_before (count : Nat) (otherwise : α) (program : ExpandM (Recording σ) α)
    (progress : Progress (Recording σ)) :
    (before count otherwise program).runFrom progress =
      if progress.invocations.length < count then program.runFrom progress
      else (.ok otherwise, progress) := by
  unfold before
  rw [runFrom_bind_of_ok (runFrom_get progress)]
  split <;> rfl

/-! ## Programs on pause -/

/-- With so many invocations on record, a program comes to a value and changes nothing. -/
def Idles (count : Nat) (P : α → Prop) (paused : Nat → ExpandM (Recording σ) α) : Prop :=
  ∀ progress, progress.invocations.length = count →
    ∃ value, P value ∧ ComesTo paused progress (.ok value, progress)

namespace Idles

variable {count : Nat} {P : α → Prop} {Q : β → Prop} {paused : Nat → ExpandM (Recording σ) α}

/-- A value is come to on pause as well. -/
theorem pure {value : α} (h : P value) :
    Idles count P fun _ => (Pure.pure value : ExpandM (Recording σ) α) :=
  fun _ _ => ⟨value, h, .const rfl⟩

end Idles

/-! ## Tracking -/

/-- A recording program and its paused one, from a progress with earlier records. -/
structure TracksFrom (count : Nat) (P : Site → α → Prop) (program : ExpandM (Recording σ) α)
    (paused : Nat → ExpandM (Recording σ) α) (progress : Progress σ)
    (earlier : List (String × Invocation)) : Prop where
  /-- The program adds to the records. -/
  records : ∃ (ended : Progress σ) (later : List (String × Invocation)),
    (program.runFrom (progress.recorded earlier)).2 = ended.recorded (earlier ++ later)
  /-- If the invocation takes place, the paused program comes to what its site is related to. -/
  seen : ∀ {name invocation}, earlier.length ≤ count →
    (program.runFrom (progress.recorded earlier)).2.invocations[count]? = some (name, invocation) →
    ∃ value middle, P invocation.site value ∧ middle.invocations.length = count ∧
      ComesTo paused (progress.recorded earlier) (.ok value, middle)
  /-- If it does not, the paused program comes to the result of the program. -/
  same : ∀ {value ended}, program.runFrom (progress.recorded earlier) = (.ok value, ended) →
    ended.invocations.length ≤ count →
    ComesTo paused (progress.recorded earlier) (.ok value, ended)

/-- In a run that starts with `entered` invocations on record, the invocation takes place at the site,
and the paused program comes to the value. -/
def PausesAt (entered count : Nat) (program : ExpandM (Recording σ) α)
    (paused : Nat → ExpandM (Recording σ) α) (site : Site) (value : α) : Prop :=
  ∃ (progress : Progress σ) (earlier : List (String × Invocation)) (stopped : Progress (Recording σ)),
    earlier.length = entered ∧
      ((program.runFrom (progress.recorded earlier)).2.invocations[count]?).map (·.2.site) =
        some site ∧
      stopped.invocations.length = count ∧
      ComesTo paused (progress.recorded earlier) (.ok value, stopped)

/-- A recording program and its paused one. -/
def Tracks (count : Nat) (P : Site → α → Prop) (program : ExpandM (Recording σ) α)
    (paused : Nat → ExpandM (Recording σ) α) : Prop :=
  ∀ progress earlier, TracksFrom count P program paused progress earlier

namespace TracksFrom

variable {count : Nat} {P : Site → α → Prop} {Q : Site → β → Prop}
  {program : ExpandM (Recording σ) α} {paused : Nat → ExpandM (Recording σ) α}
  {progress : Progress σ} {earlier : List (String × Invocation)}

/-- A program that records nothing, and does the same when it is paused, as far as it comes to a
result. -/
theorem of_silent {plain : ExpandM σ α} (h : Silent plain program)
    (hpaused : ∀ {value ended}, program.runFrom (progress.recorded earlier) = (.ok value, ended) →
      ComesTo paused (progress.recorded earlier) (.ok value, ended)) :
    TracksFrom count P program paused progress earlier := by
  obtain ⟨later, rfl, hrun⟩ := h progress earlier
  rw [List.append_nil] at hrun
  refine ⟨⟨(plain.runFrom progress).2, [], ?_⟩, fun hearlier hinvoked => ?_,
    fun hended _ => hpaused hended⟩
  · rw [hrun, List.append_nil]
  · rw [hrun, Progress.invocations_recorded, List.getElem?_eq_none hearlier] at hinvoked
    cases hinvoked

/-- Programs that come to the same are tracked alike. -/
theorem congr {program' : ExpandM (Recording σ) α} {paused' : Nat → ExpandM (Recording σ) α}
    (h : TracksFrom count P program paused progress earlier)
    (hprogram : program'.runFrom (progress.recorded earlier) =
      program.runFrom (progress.recorded earlier))
    (hpaused : ∀ fuel, (paused' fuel).runFrom (progress.recorded earlier) =
      (paused fuel).runFrom (progress.recorded earlier)) :
    TracksFrom count P program' paused' progress earlier := by
  refine ⟨?_, fun hearlier hinvoked => ?_, fun hended hlength => ?_⟩
  · rw [hprogram]
    exact h.records
  · rw [hprogram] at hinvoked
    obtain ⟨value, middle, hP, hmiddle, enough, hcomes⟩ := h.seen hearlier hinvoked
    exact ⟨value, middle, hP, hmiddle, enough, fun fuel hfuel =>
      (hpaused fuel).trans (hcomes fuel hfuel)⟩
  · rw [hprogram] at hended
    obtain ⟨enough, hcomes⟩ := h.same hended hlength
    exact ⟨enough, fun fuel hfuel => (hpaused fuel).trans (hcomes fuel hfuel)⟩

/-- A program that starts when the pause is due is tracked by one that idles, if the next invocation
takes place at the site that the idling result is related to, and no result comes without it. -/
theorem of_due {site : Site} {ended : Progress σ} {later : List (String × Invocation)}
    (hrun : (program.runFrom (progress.recorded earlier)).2 = ended.recorded (earlier ++ later))
    (hsite : ∀ name invocation, later.head? = some (name, invocation) → invocation.site = site)
    (hinvokes : ∀ value, (program.runFrom (progress.recorded earlier)).1 = .ok value → later ≠ [])
    (hidles : Idles count (P site) paused) (hdue : count ≤ earlier.length) :
    TracksFrom count P program paused progress earlier := by
  refine ⟨⟨ended, later, hrun⟩, fun {name invocation} hearlier hinvoked => ?_,
    fun {value last} hended hlength => ?_⟩
  · have hcount : earlier.length = count := Nat.le_antisymm hearlier hdue
    rw [hrun, Progress.invocations_recorded, List.getElem?_append_right (Nat.le_of_eq hcount), hcount,
      Nat.sub_self, ← List.head?_eq_getElem?] at hinvoked
    obtain ⟨value, hP, hcomes⟩ := hidles (progress.recorded earlier) hcount
    exact ⟨value, progress.recorded earlier, hsite name invocation hinvoked ▸ hP, hcount, hcomes⟩
  · -- a result has an invocation behind it that is one too many
    rw [hended] at hrun hinvokes
    obtain rfl : last = ended.recorded (earlier ++ later) := hrun
    have hpos := List.length_pos_iff.mpr (hinvokes value rfl)
    rw [Progress.invocations_recorded, List.length_append] at hlength
    omega

/-- Two parts are tracked when both are, and the second one idles once the invocation took place in
the first one. -/
theorem bind {next : α → ExpandM (Recording σ) β} {next' : Nat → α → ExpandM (Recording σ) β}
    (h : TracksFrom count P program paused progress earlier)
    (hnext : ∀ value, Tracks count Q (next value) fun fuel => next' fuel value)
    (hidles : ∀ site value, P site value → Idles count (Q site) fun fuel => next' fuel value) :
    TracksFrom count Q (program >>= next) (fun fuel => paused fuel >>= next' fuel) progress
      earlier := by
  -- on pause the second part idles behind the first one
  have onPause {name : String} {invocation : Invocation} (hearlier : earlier.length ≤ count)
      (hinvoked : (program.runFrom (progress.recorded earlier)).2.invocations[count]? =
        some (name, invocation)) :
      ∃ value middle, Q invocation.site value ∧ middle.invocations.length = count ∧
        ComesTo (fun fuel => paused fuel >>= next' fuel) (progress.recorded earlier)
          (.ok value, middle) := by
    obtain ⟨first, middle, hP, hlength, hfirst⟩ := h.seen hearlier hinvoked
    obtain ⟨value, hQ, hvalue⟩ := hidles _ first hP middle hlength
    exact ⟨value, middle, hQ, hlength, hfirst.bind hvalue⟩
  obtain ⟨middle, later, hmiddle⟩ := h.records
  rcases hrun : program.runFrom (progress.recorded earlier) with ⟨stop | value, ended⟩
  all_goals
    rw [hrun] at hmiddle onPause
    subst hmiddle
  · have hwhole : (program >>= next).runFrom (progress.recorded earlier) = _ :=
      runFrom_bind_of_error hrun
    refine ⟨⟨middle, later, by rw [hwhole]⟩, fun hearlier hinvoked => ?_, fun hended => ?_⟩
    · rw [hwhole] at hinvoked
      exact onPause hearlier hinvoked
    · rw [hwhole] at hended
      cases hended
  · have hwhole : (program >>= next).runFrom (progress.recorded earlier) = _ :=
      runFrom_bind_of_ok hrun
    have hsecond := hnext value middle (earlier ++ later)
    obtain ⟨last, latest, hlast⟩ := hsecond.records
    refine ⟨⟨last, later ++ latest, ?_⟩, fun hearlier hinvoked => ?_, fun hended hlength => ?_⟩
    · rw [hwhole, hlast, List.append_assoc]
    · rw [hwhole] at hinvoked
      rcases Nat.lt_or_ge count (earlier ++ later).length with hlt | hle
      · -- the invocation took place in the first part
        rw [hlast, Progress.invocations_recorded, List.getElem?_append_left hlt] at hinvoked
        exact onPause hearlier hinvoked
      · obtain ⟨result, resting, hQ, hresting, hcomes⟩ := hsecond.seen hle hinvoked
        exact ⟨result, resting, hQ, hresting, (h.same hrun hle).bind hcomes⟩
    · rw [hwhole] at hended
      have hle : (earlier ++ later).length ≤ count := by
        rw [hended] at hlast
        obtain rfl := hlast
        rw [Progress.invocations_recorded, List.length_append] at hlength
        omega
      exact (h.same hrun hle).bind (hsecond.same hended hlength)

end TracksFrom

namespace Tracks

variable {count : Nat} {P : Site → α → Prop} {Q : Site → β → Prop}

/-- A value is given alike, on pause or not. -/
theorem pure (value : α) :
    Tracks count P (Pure.pure value : ExpandM (Recording σ) α) fun _ => Pure.pure value :=
  fun _ _ => .of_silent (silent_pure value) .const

/-- A program that ends early never comes to its pause. -/
theorem throw (stop : Stop) (paused : Nat → ExpandM (Recording σ) α) :
    Tracks count P (MonadExcept.throw stop : ExpandM (Recording σ) α) paused :=
  fun _ _ => .of_silent (silent_throw stop) fun h => nomatch h

/-- Less may be known of the site and the result on pause. -/
theorem mono {P' : Site → α → Prop} {program : ExpandM (Recording σ) α}
    {paused : Nat → ExpandM (Recording σ) α} (h : Tracks count P program paused)
    (hP : ∀ site value, P site value → P' site value) : Tracks count P' program paused := by
  intro progress earlier
  have hprogress := h progress earlier
  refine ⟨hprogress.records, fun hearlier hinvoked => ?_, hprogress.same⟩
  obtain ⟨value, middle, hvalue, hmiddle, hcomes⟩ := hprogress.seen hearlier hinvoked
  exact ⟨value, middle, hP _ _ hvalue, hmiddle, hcomes⟩

/-- The site and the result on pause come from a run. -/
theorem pausesAt {program : ExpandM (Recording σ) α} {paused : Nat → ExpandM (Recording σ) α}
    (h : Tracks count P program paused) :
    Tracks count
      (fun site value =>
        P site value ∧ ∃ entered ≤ count, PausesAt entered count program paused site value)
      program paused := by
  intro progress earlier
  have hprogress := h progress earlier
  refine ⟨hprogress.records, fun hearlier hinvoked => ?_, hprogress.same⟩
  obtain ⟨value, middle, hP, hmiddle, hcomes⟩ := hprogress.seen hearlier hinvoked
  refine ⟨value, middle, ⟨hP, earlier.length, hearlier, ?_⟩, hmiddle, hcomes⟩
  refine ⟨progress, earlier, middle, rfl, ?_, hmiddle, hcomes⟩
  rw [hinvoked, Option.map_some]

/-- One unit of fuel more on pause makes no difference. -/
theorem succ {program : ExpandM (Recording σ) α} {paused : Nat → ExpandM (Recording σ) α}
    (h : Tracks count P program fun fuel => paused (fuel + 1)) : Tracks count P program paused := by
  intro progress earlier
  have hprogress := h progress earlier
  refine ⟨hprogress.records, fun hearlier hinvoked => ?_, fun hended hlength =>
    (hprogress.same hended hlength).succ⟩
  obtain ⟨value, middle, hP, hmiddle, hcomes⟩ := hprogress.seen hearlier hinvoked
  exact ⟨value, middle, hP, hmiddle, hcomes.succ⟩

/-- Two parts are tracked when both are, and the second one idles on pause. -/
theorem bind {program : ExpandM (Recording σ) α} {paused : Nat → ExpandM (Recording σ) α}
    {next : α → ExpandM (Recording σ) β} {next' : Nat → α → ExpandM (Recording σ) β}
    (h : Tracks count P program paused)
    (hnext : ∀ value, Tracks count Q (next value) fun fuel => next' fuel value)
    (hidles : ∀ site value, P site value → Idles count (Q site) fun fuel => next' fuel value) :
    Tracks count Q (program >>= next) fun fuel => paused fuel >>= next' fuel :=
  fun progress earlier => (h progress earlier).bind hnext hidles

/-- Parts that are followed are tracked when they and what follows them are, and what follows them
idles on pause. -/
theorem followedBy {P : Site → α → Prop} {program : ExpandM (Recording σ) (Flow α)}
    {paused : Nat → ExpandM (Recording σ) (Flow α)} {next : α → ExpandM (Recording σ) (Flow β)}
    {next' : Nat → α → ExpandM (Recording σ) (Flow β)}
    (h : Tracks count (fun site => Flow.Proceeds (P site)) program paused)
    (hnext : ∀ value, Tracks count (fun site => Flow.Proceeds (Q site)) (next value)
      fun fuel => next' fuel value)
    (hidles : ∀ site value, P site value → Idles count (Flow.Proceeds (Q site))
      fun fuel => next' fuel value) :
    Tracks count (fun site => Flow.Proceeds (Q site)) (program >>= (·.followedBy next))
      fun fuel => paused fuel >>= (·.followedBy (next' fuel)) := by
  refine h.bind (fun flow => ?_) ?_
  · cases flow with
    | proceed value => exact hnext value
    | replaceFunction decl => exact .pure _
  · rintro site _ ⟨value, rfl, hP⟩
    exact hidles site value hP

end Tracks

end ExpandM

/-- A walk of sequences that on pause puts everything back as it finds it, if that is not too high. -/
def SequenceWalk.Rests (count bound : Nat) (walk : SequenceWalk (Recording σ)) : Prop :=
  ∀ scope depth span statements, stmtsHeight statements < bound →
    ∀ progress, progress.invocations.length = count → ∃ stopped,
      (walk scope depth span statements 0 statements.length).runFrom progress =
        (.ok (.proceed ⟨statements, stopped⟩), progress)

/-- A walk of parted sequences that on pause only moves on. -/
def SplitWalk.Rests (count bound : Nat) (walk : SplitWalk (Recording σ)) : Prop :=
  ∀ setting tail split, stmtsHeight split.todo < bound →
    ∀ progress, progress.invocations.length = count →
      (walk setting tail split).runFrom progress =
        (.ok (.proceed (split.advance (split.todo.length - tail))), progress)

/-- A walk of a sequence rests on pause as the walk of the parted sequence does. -/
theorem SplitWalk.Rests.onSequence {count bound : Nat} {walk : SplitWalk (Recording σ)}
    (h : walk.Rests count bound) : walk.onSequence.Rests count bound := by
  intro scope depth span statements hheight progress hpaused
  unfold SplitWalk.onSequence
  rw [Nat.sub_self, List.take_zero, List.drop_zero]
  have hrun := h ⟨scope, depth, span⟩ 0 ⟨[], statements⟩ hheight progress hpaused
  rw [ExpandM.runFrom_bind_of_ok hrun, Flow.proceed_followedBy, Split.statements_advance]
  exact ⟨_, rfl⟩

namespace FileWalk

variable {walk : FileWalk (Recording σ)} {count bound : Nat} {walkRun : SplitWalk (Recording σ)}
  {walkNested : SequenceWalk (Recording σ)} {setting : Setting} {done rest : List Stmt}
  {progress : Progress (Recording σ)}

/-- The walk that stops expanding once so many invocations are on record. -/
def pausedAt (walk : FileWalk (Recording σ)) (count : Nat) : FileWalk (Recording σ) :=
  { walk with
    poll := fun cursor => ExpandM.before count () (walk.poll cursor)
    next := fun stmt site => ExpandM.before count none (walk.next stmt site) }

/-- On pause no call is found any more. -/
theorem runFrom_next_pausedAt (walk : FileWalk (Recording σ)) (count : Nat) (stmt : Stmt)
    (site : Call → Site) (progress : Progress (Recording σ)) :
    ((walk.pausedAt count).next stmt site).runFrom progress =
      if progress.invocations.length < count then (walk.next stmt site).runFrom progress
      else (.ok none, progress) :=
  ExpandM.runFrom_before count none (walk.next stmt site) progress

/-- On pause nothing is done before a statement. -/
theorem runFrom_poll_pausedAt (walk : FileWalk (Recording σ)) (count : Nat) (cursor : Cursor)
    (progress : Progress (Recording σ)) :
    ((walk.pausedAt count).poll cursor).runFrom progress =
      if progress.invocations.length < count then (walk.poll cursor).runFrom progress
      else (.ok (), progress) :=
  ExpandM.runFrom_before count () (walk.poll cursor) progress

/-- The calls that it still finds are those that the walk finds. -/
theorem goesByShown_pausedAt (h : walk.GoesByShown) (count : Nat) :
    (walk.pausedAt count).GoesByShown where
  poll hshows := congrArg (ExpandM.before count ()) (h.poll hshows)
  captures := by
    intro stmt site progress next ended hrun
    rw [runFrom_next_pausedAt] at hrun
    split at hrun
    · exact h.captures stmt site progress next ended hrun
    · cases hrun
      nofun

/-! ## The walk on pause -/

/-- On pause what is not too high comes back as it is. -/
theorem returns_of_rests (hnested : walkNested.Rests count bound)
    (hpaused : progress.invocations.length = count) (scope : Scope) (depth : Nat) {content : Block}
    (hheight : stmtsHeight content.statements < bound) :
    walkNested.Returns progress (fun _ => False) scope depth content := by
  obtain ⟨stopped, hrun⟩ := hnested scope depth content.span content.statements hheight progress
    hpaused
  exact .of_runFrom_eq hrun ⟨_, rfl, rfl⟩

/-- On pause no call is found. -/
theorem leavesAlone_pausedAt (hnested : walkNested.Rests count bound)
    (hpaused : progress.invocations.length = count) {stmt : Stmt} (hheight : stmt.height ≤ bound) :
    (walk.pausedAt count).LeavesAlone walkNested progress (fun _ => False) setting done stmt rest where
  next := by
    have hnext (site : Call → Site) :
        ((walk.pausedAt count).next stmt site).runFrom progress = (.ok none, progress) := by
      rw [runFrom_next_pausedAt, hpaused, if_neg (Nat.lt_irrefl count)]
    exact .of_runFrom_eq (hnext _) nofun
  nested hcontent :=
    returns_of_rests hnested hpaused _ _ (Nat.lt_of_lt_of_le (Slot.height_content_lt hcontent) hheight)

/-- On pause the slots of a statement get back what they hold. -/
theorem walkSlots_rests (hnested : walkNested.Rests count bound)
    (hpaused : progress.invocations.length = count) {stmt : Stmt} (hheight : stmt.height ≤ bound)
    (slots : List Slot) :
    (walkSlots walkNested (setting.cursor ⟨done, stmt :: rest⟩) slots).runFrom progress =
      (.ok (.proceed stmt), progress) :=
  Flow.runFrom_eq_of_keeps (walkSlots_unchanged (fun _ _ hcontent => returns_of_rests hnested hpaused
    _ _ (Nat.lt_of_lt_of_le (Slot.height_content_lt hcontent) hheight)) slots)

/-- On pause a statement is settled as it is. -/
theorem settleSplit_rests (hnested : walkNested.Rests count bound)
    (hpaused : progress.invocations.length = count) (allowed : Nat) {stmt : Stmt}
    (hheight : stmt.height ≤ bound) :
    (settleSplit (walk.pausedAt count) walkRun walkNested setting allowed
      ⟨done, stmt :: rest⟩).runFrom progress =
        (.ok (.proceed ⟨done ++ [stmt], rest⟩), progress) :=
  Flow.runFrom_eq_of_keeps (settleSplit_unchanged (leavesAlone_pausedAt hnested hpaused hheight)
    allowed)

/-- On pause statements are settled one after the other as they are. -/
theorem walkSplit_rests (hnested : walkNested.Rests count bound)
    (hpaused : progress.invocations.length = count) (tail steps : Nat) (split : Split)
    (hheight : stmtsHeight split.todo ≤ bound) :
    (walkSplit (walk.pausedAt count) walkRun walkNested setting tail steps split).runFrom progress =
      (.ok (.proceed (split.advance (min steps (split.todo.length - tail)))), progress) := by
  have hpoll (cursor : Cursor) :
      ((walk.pausedAt count).poll cursor).runFrom progress = (.ok (), progress) := by
    rw [runFrom_poll_pausedAt, hpaused, if_neg (Nat.lt_irrefl count)]
  refine Flow.runFrom_eq_of_keeps
    (walkSplit_unchanged (fun cursor => .of_runFrom_eq (hpoll cursor) True.intro) tail steps split
      fun before stmt after htodo _ => leavesAlone_pausedAt hnested hpaused ?_)
  have hstmt : stmt ∈ split.todo := htodo ▸ List.mem_append_right before List.mem_cons_self
  exact Nat.le_trans (height_le_stmtsHeight hstmt) hheight

/-- With more walks within each other than bodies there are, nothing is changed on pause. -/
theorem splitWalk_rests (walk : FileWalk (Recording σ)) (count nesting : Nat) :
    ((walk.pausedAt count).splitWalk nesting).Rests count nesting := by
  induction nesting with
  | zero => exact fun _ _ _ hheight => absurd hheight (Nat.not_lt_zero _)
  | succ nesting ih =>
    intro setting tail split hheight progress hpaused
    refine (walkSplit_rests ih.onSequence hpaused tail _ split (Nat.le_of_lt_succ hheight)).trans ?_
    rw [Nat.min_self]

end FileWalk

end MacroExpansion
