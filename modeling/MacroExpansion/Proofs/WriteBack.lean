import MacroExpansion.Proofs.Surroundings
import MacroExpansion.Proofs.WalkAgrees

/-! # What is seen and put back

A walk and the walk that pauses at an invocation (`Pause`) track each other: what a site sees around
it (`Site.Sees`) is what the paused walk puts back. This is shown from the calls of a statement
outwards to whole blocks (`walkBlock_tracks`). -/

namespace MacroExpansion

variable {σ : Type} {setting : Setting} {done rest : List Stmt} {stmt : Stmt}

/-! ## Tracking a walk -/

/-- Two programs that move on in a sequence and track each other, the second one on pause. What is
seen in a setting is put back in the sequence. -/
abbrev Setting.Tracks (setting : Setting) (walk : FileWalk (Recording σ)) (count : Nat)
    (program : ExpandM (Recording σ) (Flow Split))
    (paused : Nat → ExpandM (Recording σ) (Flow Split)) : Prop :=
  ExpandM.Tracks count
    (fun site => Flow.Proceeds fun last =>
      site.Sees walk count setting.scope ⟨last.statements, setting.span⟩)
    program paused

/-- Two walks of whole sequences that track each other. What is seen in a sequence is what the first
one has made of it by then. -/
def SequenceWalk.Tracks (walk : FileWalk (Recording σ)) (count : Nat)
    (walkInner : SequenceWalk (Recording σ)) (pausedInner : Nat → SequenceWalk (Recording σ)) : Prop :=
  ∀ scope depth span statements, ExpandM.Tracks count
    (fun site => Flow.Proceeds fun walked =>
      site.Sees walk count scope ⟨walked.statements, span⟩ ∧
        ∃ entered ≤ count,
          walk.PausesIn entered count site scope ⟨statements, span⟩ ⟨walked.statements, span⟩)
    (walkInner scope depth span statements 0 statements.length)
    fun fuel => pausedInner fuel scope depth span statements 0 statements.length

/-- The same for walks of parted sequences. -/
def SplitWalk.Tracks (walk : FileWalk (Recording σ)) (count : Nat) (walkRun : SplitWalk (Recording σ))
    (pausedRun : Nat → SplitWalk (Recording σ)) : Prop :=
  ∀ (setting : Setting) (tail : Nat) (split : Split),
    setting.Tracks walk count (walkRun setting tail split) fun fuel => pausedRun fuel setting tail split

section

variable {α : Type} {count : Nat} {P : Site → α → Prop} {expander : Expander}
  {source : Option SourceText} {bound : BoundCall} {span : Span}
  {next : Placement → ExpandM (Recording σ) α} {next' : Nat → Placement → ExpandM (Recording σ) α}
  {paused : Nat → ExpandM (Recording σ) α} {progress : Progress σ}
  {earlier : List (String × Invocation)}

/-- A call that is expanded before the pause is expanded alike. -/
theorem ExpandM.TracksFrom.of_expandCall
    (hnext : ∀ placement, Tracks count P (next placement) fun fuel => next' fuel placement)
    (hearlier : earlier.length < count) :
    TracksFrom count P (located span source (expander.expandCall source bound) >>= next)
      (fun fuel => located span source (expander.expandCall source bound) >>= next' fuel) progress
      earlier := by
  obtain ⟨later, hinvokes, hcall⟩ :=
    (expander.recordsOf_expandCall source bound).located span source progress earlier
  have hlength : later.length ≤ 1 := by
    rcases hinvokes with ⟨-, rfl⟩ | ⟨_, _, -, rfl⟩
    · exact Nat.zero_le 1
    · exact Nat.le_refl 1
  -- no more than one invocation is recorded, and that one comes before the pause
  have hsame : TracksFrom count (fun _ _ => False)
      (located span source (expander.expandCall source bound))
      (fun _ => located span source (expander.expandCall source bound)) progress earlier := by
    refine ⟨⟨_, later, congrArg Prod.snd hcall⟩, fun _ hinvoked => ?_, fun hended _ => .const hended⟩
    rw [hcall, Progress.invocations_recorded, List.getElem?_eq_none] at hinvoked
    · cases hinvoked
    · rw [List.length_append]
      omega
  exact hsame.bind hnext fun _ _ hfalse => hfalse.elim

/-- A call that is expanded when the pause is due is the one to pause at, and has to be left alone
on pause. -/
theorem ExpandM.TracksFrom.of_expandCall_due
    (hnext : ∀ placement, Tracks count P (next placement) fun fuel => next' fuel placement)
    (hidles : Idles count (P bound.site) paused) (hdue : count ≤ earlier.length) :
    TracksFrom count P (located span source (expander.expandCall source bound) >>= next) paused
      progress earlier := by
  obtain ⟨later, hinvokes, hcall⟩ :=
    (expander.recordsOf_expandCall source bound).located span source progress earlier
  rcases hplain : (located span source (expander.expandCall source bound)).runFrom progress with
    ⟨stop | placement, middle⟩
  all_goals rw [hplain] at hcall hinvokes
  · have hwhole : (located span source (expander.expandCall source bound) >>= next).runFrom
      (progress.recorded earlier) = _ := runFrom_bind_of_error hcall
    refine .of_due (congrArg Prod.snd hwhole) (fun name invocation hhead => ?_) (fun _ hended => ?_)
      hidles hdue
    · rcases hinvokes with ⟨-, rfl⟩ | ⟨_, first, hsite, rfl⟩
      · cases hhead
      · cases hhead
        exact hsite
    · rw [hwhole] at hended
      cases hended
  · -- the call came to its output, so its macro was invoked first of all
    obtain ⟨name, first, hsite, rfl⟩ := hinvokes.resolve_left fun h => nomatch h.1
    have hwhole : (located span source (expander.expandCall source bound) >>= next).runFrom
      (progress.recorded earlier) = _ := runFrom_bind_of_ok hcall
    obtain ⟨last, latest, hlast⟩ := (hnext placement middle (earlier ++ [(name, first)])).records
    rw [List.append_assoc] at hlast
    refine .of_due ((congrArg Prod.snd hwhole).trans hlast) (fun _ invocation hhead => ?_)
      (fun _ _ => List.cons_ne_nil _ _) hidles hdue
    cases hhead
    exact hsite

end

namespace FileWalk

variable {plain : FileWalk (Recording σ)} {expander : Expander} {file : FileOrigin} {count : Nat}
  {walkRun : SplitWalk (Recording σ)}
  {pausedRun : Nat → SplitWalk (Recording σ)} {walkNested : SequenceWalk (Recording σ)}
  {pausedNested : Nat → SequenceWalk (Recording σ)}

/-- An expansion finds the first call that has to be expanded. -/
theorem runFrom_next (expander : Expander) (file : FileOrigin) (stmt : Stmt) (site : Call → Site)
    (progress : Progress σ) :
    (FileWalk.next { expander, file } stmt site).runFrom progress =
      ((expander.firstBound? file.source site stmt.ownCalls).mapError .error, progress) := by
  change (ExpandM.require (expander.firstBound? file.source site stmt.ownCalls)).runFrom progress = _
  cases expander.firstBound? file.source site stmt.ownCalls <;> rfl

/-- On pause the slots of a statement get back what they hold. -/
theorem idles_walkSlots {P : Stmt → Prop} (hrests : ∀ fuel, (pausedNested fuel).Rests count fuel)
    (h : P stmt) (slots : List Slot) :
    ExpandM.Idles count (Flow.Proceeds P) fun fuel =>
      walkSlots (pausedNested fuel) (setting.cursor ⟨done, stmt :: rest⟩) slots :=
  fun _ hpaused => ⟨_, ⟨_, rfl, h⟩, stmt.height, fun fuel hfuel =>
    walkSlots_rests (hrests fuel) hpaused hfuel slots⟩

/-- What is seen in the slots of a statement is put back in their place. -/
theorem walkSlots_tracks (hnested : walkNested.Tracks plain count pausedNested)
    (hrests : ∀ fuel, (pausedNested fuel).Rests count fuel) (slots : List Slot) (stmt : Stmt) :
    ExpandM.Tracks count
      (fun site => Flow.Proceeds fun last =>
        site.Sees plain count setting.scope ⟨done ++ last :: rest, setting.span⟩)
      (walkSlots walkNested (setting.cursor ⟨done, stmt :: rest⟩) slots)
      fun fuel => walkSlots (pausedNested fuel) (setting.cursor ⟨done, stmt :: rest⟩) slots := by
  induction slots generalizing stmt with
  | nil =>
    unfold walkSlots
    exact .pure _
  | cons slot slots ih =>
    unfold walkSlots
    simp only [Setting.stmt_cursor]
    cases hcontent : slot.content? stmt with
    | none => exact ih stmt
    | some content =>
      simp only [Setting.withStmt_cursor]
      exact (hnested _ _ _ _).followedBy (fun walked => ih _) fun site walked hseen =>
        idles_walkSlots hrests (.of_inside hcontent hseen.2 hseen.1) slots

/-- What is seen in a statement that is settled at once is put back in its place. -/
theorem settled_tracks (hnested : walkNested.Tracks plain count pausedNested)
    (hrests : ∀ fuel, (pausedNested fuel).Rests count fuel) (stmt : Stmt) :
    setting.Tracks plain count
      (walkSlots walkNested (setting.cursor ⟨done, stmt :: rest⟩) (Slot.all stmt) >>=
        (·.followedBy fun stmt => return .proceed (Split.mk (done ++ [stmt]) rest)))
      fun fuel => walkSlots (pausedNested fuel) (setting.cursor ⟨done, stmt :: rest⟩)
        (Slot.all stmt) >>=
          (·.followedBy fun stmt => return .proceed (Split.mk (done ++ [stmt]) rest)) := by
  refine (walkSlots_tracks hnested hrests _ stmt).followedBy (fun _ => .pure _) ?_
  intro site last hsees
  refine .pure ⟨_, rfl, ?_⟩
  change site.Sees plain count setting.scope ⟨done ++ [last] ++ rest, setting.span⟩
  rwa [List.append_assoc, List.singleton_append]

/-- On pause a statement is settled as it is. -/
theorem idles_settleSplit {P : Split → Prop} (walk : FileWalk (Recording σ))
    (hrests : ∀ fuel, (pausedNested fuel).Rests count fuel) (allowed : Nat)
    (h : P ⟨done ++ [stmt], rest⟩) :
    ExpandM.Idles count (Flow.Proceeds P) fun fuel =>
      settleSplit (walk.pausedAt count) (pausedRun fuel) (pausedNested fuel) setting allowed
        ⟨done, stmt :: rest⟩ :=
  fun _ hpaused => ⟨_, ⟨_, rfl, h⟩, stmt.height, fun fuel hfuel =>
    settleSplit_rests (hrests fuel) hpaused allowed hfuel⟩

/-- What is seen in a statement without calls to expand is put back in its place. -/
theorem settleSplit_tracks_of_settled (hnested : walkNested.Tracks { expander, file } count pausedNested)
    (hrests : ∀ fuel, (pausedNested fuel).Rests count fuel) (allowed : Nat)
    (hsettled : ∀ bound, expander.firstBound? file.source
      ((setting.cursor ⟨done, stmt :: rest⟩).site file.path) stmt.ownCalls ≠ .ok (some bound)) :
    setting.Tracks { expander, file } count
      (settleSplit { expander, file } walkRun walkNested setting allowed ⟨done, stmt :: rest⟩)
      fun fuel => settleSplit (pausedAt { expander, file } count) (pausedRun fuel)
        (pausedNested fuel) setting allowed ⟨done, stmt :: rest⟩ := by
  intro progress earlier
  have hnext := runFrom_next expander file stmt
    ((setting.cursor ⟨done, stmt :: rest⟩).site file.path) (progress.recorded earlier)
  cases hfirst : expander.firstBound? file.source
    ((setting.cursor ⟨done, stmt :: rest⟩).site file.path) stmt.ownCalls with
  | error error =>
    rw [hfirst] at hnext
    exact (ExpandM.Tracks.throw (.error error) _ progress earlier).congr
      (runFrom_settleSplit_of_error hnext) fun _ => rfl
  | ok next =>
    rw [hfirst] at hnext
    cases next with
    | some bound => exact absurd hfirst (hsettled bound)
    | none =>
      -- no call is found here, be it that there is none or that the pause has begun
      refine (settled_tracks hnested hrests stmt progress earlier).congr
        (runFrom_settleSplit_of_none hnext) fun fuel => runFrom_settleSplit_of_none ?_
      rw [runFrom_next_pausedAt]
      split
      · exact hnext
      · rfl

/-- Beyond the limits nothing more is expanded. -/
theorem settleSplit_tracks_of_limit {allowed : Nat} {bound : BoundCall}
    (hfirst : expander.firstBound? file.source
      ((setting.cursor ⟨done, stmt :: rest⟩).site file.path) stmt.ownCalls = .ok (some bound))
    (hlimit : allowed = 0 ∨ expander.config.maxDepth < setting.depth) :
    setting.Tracks { expander, file } count
      (settleSplit { expander, file } walkRun walkNested setting allowed ⟨done, stmt :: rest⟩)
      fun fuel => settleSplit (pausedAt { expander, file } count) (pausedRun fuel)
        (pausedNested fuel) setting allowed ⟨done, stmt :: rest⟩ := by
  intro progress earlier
  have hnext := runFrom_next expander file stmt
    ((setting.cursor ⟨done, stmt :: rest⟩).site file.path) (progress.recorded earlier)
  rw [hfirst] at hnext
  exact (ExpandM.Tracks.throw _ _ progress earlier).congr
    (runFrom_settleSplit_of_limit hnext hlimit) fun _ => rfl

/-- What is seen behind the output of a call is put back in its place. -/
theorem placeSplit_tracks (walk walk' : FileWalk (Recording σ)) (split : Split)
    (hrun : walkRun.Tracks { expander, file } count pausedRun)
    {settle : Split → ExpandM (Recording σ) (Flow Split)}
    {pausedSettle : Nat → Split → ExpandM (Recording σ) (Flow Split)}
    (hsettle : ∀ stmt, setting.Tracks { expander, file } count (settle (split.withStmt stmt))
      fun fuel => pausedSettle fuel (split.withStmt stmt))
    (bound : BoundCall) (placement : Placement) :
    setting.Tracks { expander, file } count
      (placeSplit walk walkRun settle setting split bound placement)
      fun fuel => placeSplit walk' (pausedRun fuel) (pausedSettle fuel) setting split bound
        placement := by
  cases placement with
  | empty => exact hsettle _
  | statement stmt => exact hsettle stmt
  | function decl => exact .pure _
  | splice run => exact hrun setting.deeper _ _
  | inPlace expr =>
    simp only [placeSplit]
    cases (setting.cursor split).stmt.replaceCall? bound.site.call expr with
    | none => exact .throw _ _
    | some stmt => exact hsettle stmt

/-- What is seen in a statement while it is settled is put back in its place. -/
theorem settleSplit_tracks (hrun : walkRun.Tracks { expander, file } count pausedRun)
    (hnested : walkNested.Tracks { expander, file } count pausedNested)
    (hrests : ∀ fuel, (pausedNested fuel).Rests count fuel) (allowed : Nat) (stmt : Stmt) :
    setting.Tracks { expander, file } count
      (settleSplit { expander, file } walkRun walkNested setting allowed ⟨done, stmt :: rest⟩)
      fun fuel => settleSplit (pausedAt { expander, file } count) (pausedRun fuel)
        (pausedNested fuel) setting allowed ⟨done, stmt :: rest⟩ := by
  induction allowed generalizing stmt with
  | zero =>
    by_cases hfirst : ∃ bound, expander.firstBound? file.source
      ((setting.cursor ⟨done, stmt :: rest⟩).site file.path) stmt.ownCalls = .ok (some bound)
    · obtain ⟨bound, hfirst⟩ := hfirst
      exact settleSplit_tracks_of_limit hfirst (.inl rfl)
    · exact settleSplit_tracks_of_settled hnested hrests 0 (not_exists.mp hfirst)
  | succ allowed ih =>
    by_cases hfirst : ∃ bound, expander.firstBound? file.source
      ((setting.cursor ⟨done, stmt :: rest⟩).site file.path) stmt.ownCalls = .ok (some bound)
    · obtain ⟨bound, hfirst⟩ := hfirst
      rcases Nat.lt_or_ge expander.config.maxDepth setting.depth with hdeep | hdepth
      · exact settleSplit_tracks_of_limit hfirst (.inr hdeep)
      intro progress earlier
      have hnext := runFrom_next expander file stmt
        ((setting.cursor ⟨done, stmt :: rest⟩).site file.path) (progress.recorded earlier)
      rw [hfirst] at hnext
      have hplace := placeSplit_tracks { expander, file } (pausedAt { expander, file } count)
        ⟨done, stmt :: rest⟩ hrun ih bound
      rcases Nat.lt_or_ge earlier.length count with hlt | hge
      · -- the pause is still to come, so both expand the call
        refine (ExpandM.TracksFrom.of_expandCall hplace hlt).congr
          (runFrom_settleSplit_of_bound hnext hdepth) fun fuel =>
            runFrom_settleSplit_of_bound ?_ hdepth
        rw [runFrom_next_pausedAt, Progress.invocations_recorded, if_pos hlt]
        exact hnext
      · -- the call is the one to pause at, so on pause the statement stays as it is
        refine (ExpandM.TracksFrom.of_expandCall_due hplace ?_ hge).congr
          (runFrom_settleSplit_of_bound hnext hdepth) fun _ => rfl
        refine idles_settleSplit _ hrests _ ?_
        obtain ⟨call, hcall, symbol, -, hbind⟩ := Expander.firstBound?_some hfirst
        change bound.site.Sees { expander, file } count setting.scope
          ⟨done ++ [stmt] ++ rest, setting.span⟩
        rw [(BindingRules.bind_some hbind).2.1, List.append_assoc, List.singleton_append]
        exact sees_cursor file.path hcall
    · exact settleSplit_tracks_of_settled hnested hrests _ (not_exists.mp hfirst)

/-- The poll before a statement is left out on pause. -/
theorem poll_tracks (cursor : Cursor) (P : Site → Unit → Prop) :
    ExpandM.Tracks count P (FileWalk.poll (σ := Recording σ) { expander, file } cursor)
      fun _ => (pausedAt { expander, file } count).poll cursor := by
  intro progress earlier
  refine .of_silent ExpandM.silent_checkCancelled fun {value ended} hrun => .const ?_
  rw [runFrom_poll_pausedAt]
  split
  · exact hrun
  · rw [ExpandM.runFrom_checkCancelled] at hrun
    split at hrun
    · cases hrun
    · exact hrun

/-- What is seen in the statements that are walked is put back in its place. -/
theorem walkSplit_tracks (hrun : walkRun.Tracks { expander, file } count pausedRun)
    (hnested : walkNested.Tracks { expander, file } count pausedNested)
    (hrests : ∀ fuel, (pausedNested fuel).Rests count fuel) (tail steps : Nat) (split : Split) :
    setting.Tracks { expander, file } count
      (walkSplit { expander, file } walkRun walkNested setting tail steps split)
      fun fuel => walkSplit (pausedAt { expander, file } count) (pausedRun fuel)
        (pausedNested fuel) setting tail steps split := by
  induction steps generalizing split with
  | zero => exact .pure _
  | succ steps ih =>
    unfold walkSplit
    by_cases htail : tail < split.todo.length
    · simp only [htail, if_true]
      obtain ⟨done, todo⟩ := split
      cases todo with
      | nil => exact absurd htail (Nat.not_lt_zero tail)
      | cons stmt rest =>
        refine (poll_tracks _ fun _ _ => False).bind (fun _ => ?_) fun _ _ hfalse => hfalse.elim
        refine (settleSplit_tracks hrun hnested hrests _ stmt).followedBy ih ?_
        -- on pause the walk goes on without changing the sequence
        intro site last hsees progress hpaused
        refine ⟨_, ⟨_, rfl, ?_⟩, stmtsHeight last.todo, fun fuel hfuel =>
          walkSplit_rests (hrests fuel) hpaused tail steps last hfuel⟩
        change site.Sees { expander, file } count setting.scope
          ⟨(last.advance _).statements, setting.span⟩
        rwa [Split.statements_advance]
    · simp only [htail, if_false]
      exact .pure _

/-- A paused walk of a whole sequence is one of the parted sequence. -/
theorem walk_paused_whole (expander : Expander) (file : FileOrigin) (count nesting : Nat)
    (scope : Scope) (depth : Nat) (span : Span) (statements : List Stmt) :
    (pausedAt (σ := σ) { expander, file } count).walk nesting scope depth span statements 0
        statements.length =
      ((pausedAt { expander, file } count).splitWalk nesting).onSequence scope depth span statements 0
        statements.length :=
  walk_agrees_splitWalk (goesByShown_pausedAt (goesByShown_of_expansion expander file) count) nesting
    scope depth span statements 0 _ (Nat.zero_le _) (Nat.le_refl _)

/-- What is put back in parted sequences is put back in whole ones. -/
theorem onSequence_tracks {nesting : Nat}
    (h : SplitWalk.Tracks (σ := σ) { expander, file } count (splitWalk { expander, file } nesting)
      (pausedAt { expander, file } count).splitWalk) :
    SequenceWalk.Tracks (σ := σ) { expander, file } count
      (splitWalk { expander, file } nesting).onSequence
      fun fuel => ((pausedAt { expander, file } count).splitWalk fuel).onSequence := by
  intro scope depth span statements
  have hsequence : ExpandM.Tracks (σ := σ) count
      (fun site => Flow.Proceeds fun walked =>
        site.Sees (σ := σ) { expander, file } count scope ⟨walked.statements, span⟩)
      ((splitWalk { expander, file } nesting).onSequence scope depth span statements 0
        statements.length)
      fun fuel => ((pausedAt { expander, file } count).splitWalk fuel).onSequence scope depth span
        statements 0 statements.length := by
    unfold SplitWalk.onSequence
    exact (h ⟨scope, depth, span⟩ _ _).followedBy (fun _ => .pure _) fun _ last hsees =>
      .pure ⟨_, rfl, hsees⟩
  refine hsequence.pausesAt.mono ?_
  rintro site _ ⟨⟨walked, rfl, hsees⟩, entered, hentered, hpauses⟩
  refine ⟨walked, rfl, hsees, entered, hentered, nesting, depth, walked, rfl, ?_⟩
  simpa only [expander.walk_whole, walk_paused_whole] using hpauses

/-- A walk of parted sequences and the one that pauses track each other. -/
theorem splitWalk_tracks (expander : Expander) (file : FileOrigin) (count nesting : Nat) :
    SplitWalk.Tracks (σ := σ) { expander, file } count (splitWalk { expander, file } nesting)
      (pausedAt { expander, file } count).splitWalk := by
  induction nesting with
  | zero => exact fun _ _ _ => .throw _ _
  | succ nesting ih =>
    intro setting tail split
    have hrests (fuel : Nat) := splitWalk_rests (σ := σ) { expander, file } count fuel
    exact .succ (walkSplit_tracks ih (onSequence_tracks ih) (fun fuel => (hrests fuel).onSequence) tail
      _ split)

/-- A walk and the one that pauses track each other. -/
theorem walk_tracks (expander : Expander) (file : FileOrigin) (count nesting : Nat) :
    SequenceWalk.Tracks (σ := σ) { expander, file } count (walk { expander, file } nesting)
      (pausedAt { expander, file } count).walk := by
  intro scope depth span statements
  simp only [expander.walk_whole, walk_paused_whole]
  exact onSequence_tracks (splitWalk_tracks expander file count nesting) scope depth span statements

/-- What is seen in a block is put back in the block. -/
theorem walkBlock_tracks (expander : Expander) (file : FileOrigin) (count nesting : Nat)
    (scope : Scope) (block : Block) :
    ExpandM.Tracks (σ := σ) count
      (fun site => Flow.Proceeds (site.Sees (σ := σ) { expander, file } count scope))
      (walkBlock (walk { expander, file } nesting) scope block)
      fun fuel => walkBlock ((pausedAt { expander, file } count).walk fuel) scope block := by
  obtain ⟨statements, span⟩ := block
  exact (walk_tracks expander file count nesting scope 0 span statements).followedBy
    (fun _ => .pure _) fun _ walked hseen => .pure ⟨_, rfl, hseen.1⟩

end FileWalk

end MacroExpansion
