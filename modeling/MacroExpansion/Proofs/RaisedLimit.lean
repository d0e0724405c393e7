import MacroExpansion.Proofs.Comparison
import MacroExpansion.Proofs.Reproduction

/-! # Raising the limit

The limit of an expansion is compared with three counts: the expansions of a statement, the runs
that are inserted through each other, and the replacements of a function. It takes part in nothing
else, so with a higher limit an expansion goes on just as before, until the point where the lower
limit would have ended it. -/

namespace MacroExpansion

/-- The ends that a limit brings about. -/
inductive Stop.IsLimit (limit : Nat) (source : Option SourceText) : Stop → Prop where
  /-- A statement took too many expansions, or runs were inserted too deep. -/
  | depth (callee : String) (span : Span) :
      IsLimit limit source (.error (.atSpan (.depthLimit callee limit) span source))
  /-- A function was replaced too often. -/
  | replacement (name : String) (span : Span) :
      IsLimit limit source (.error (.atSpan (.replacementLimit name limit) span source))

/-- The same settings with another limit. -/
def Expander.withLimit (expander : Expander) (limit : Nat) : Expander :=
  { expander with config := { expander.config with maxDepth := limit } }

variable {σ : Type} {expander : Expander} {limit : Nat}

/-- The limit takes no part in what is expanded next. -/
theorem Expander.firstBound?_withLimit (source : Option SourceText) (site : Call → Site)
    (calls : List Call) :
    (expander.withLimit limit).firstBound? source site calls =
      expander.firstBound? source site calls :=
  firstBound?_congr (show (expander.withLimit limit).rules = expander.rules from rfl) calls

/-- The limit takes no part in the expansion of a call. -/
theorem Expander.expandCall_withLimit (source : Option SourceText) (bound : BoundCall) :
    (expander.withLimit limit).expandCall (σ := σ) source bound =
      expander.expandCall source bound := rfl

/-- Two walks come to the same on every part of every sequence, unless the first one ends in an
ignored way. -/
def SequenceWalk.MatchesAll (ignored : Stop → Prop) (walk walk' : SequenceWalk σ) : Prop :=
  ∀ scope depth span statements start stop, ExpandM.Matches ignored Eq
    (walk scope depth span statements start stop) (walk' scope depth span statements start stop)

namespace FileWalk

variable {file : FileOrigin} {walkInner walkInner' : SequenceWalk σ}

/-- The walk with a raised limit admits all that the walk admits. -/
theorem admits_withLimit (hlimit : expander.config.maxDepth ≤ limit) :
    Admits (σ := σ) (Stop.IsLimit expander.config.maxDepth file.source) { expander, file }
      { expander := expander.withLimit limit, file } where
  file := rfl
  maxDepth_le := hlimit
  limit := .inr fun name span => .replacement name span

/-- A run is spliced in alike when inner sequences are walked alike. -/
theorem spliceRun_matchesAll {ignored : Stop → Prop} (h : walkInner.MatchesAll ignored walkInner')
    (cursor : Cursor) (captured : Nat) (run : List Stmt) :
    ExpandM.Matches ignored Eq (spliceRun walkInner cursor captured run)
      (spliceRun walkInner' cursor captured run) :=
  Flow.matches_followedBy_same (h _ _ _ _ _ _) fun _ => .refl _ _

/-- A statement is settled as before when it may take more expansions, as long as neither the
expansions nor the depth run out. -/
theorem settle_withLimit (hlimit : expander.config.maxDepth ≤ limit)
    (h : walkInner.MatchesAll (Stop.IsLimit expander.config.maxDepth file.source) walkInner')
    {allowed allowed' : Nat} (hallowed : allowed ≤ allowed') (cursor : Cursor) :
    ExpandM.Matches (Stop.IsLimit expander.config.maxDepth file.source) Eq
      (settle { expander, file } walkInner allowed cursor)
      (settle { expander := expander.withLimit limit, file } walkInner' allowed' cursor) := by
  have hkept (cursor : Cursor) :
      ExpandM.Matches (Stop.IsLimit expander.config.maxDepth file.source) Eq
        (walkSlots walkInner cursor (Slot.all cursor.stmt) >>=
          (·.followedBy fun stmt => return .proceed (Settled.kept stmt)))
        (walkSlots walkInner' cursor (Slot.all cursor.stmt) >>=
          (·.followedBy fun stmt => return .proceed (Settled.kept stmt))) :=
    Flow.matches_followedBy_same (walkSlots_matches (fun _ _ _ => h _ _ _ _ _ _) _) fun _ =>
      .refl _ _
  induction allowed generalizing allowed' cursor with
  | zero =>
    unfold settle
    dsimp only
    rw [Expander.firstBound?_withLimit]
    refine .bind_right fun next => ?_
    cases next with
    | none => exact hkept cursor
    | some bound => exact .of_ignored (.depth _ _)
  | succ allowed ih =>
    obtain ⟨allowed', rfl⟩ : ∃ fewer, allowed' = fewer + 1 := ⟨allowed' - 1, by omega⟩
    have hsettle (cursor : Cursor) := ih (Nat.le_of_succ_le_succ hallowed) cursor
    unfold settle
    dsimp only
    rw [Expander.firstBound?_withLimit]
    refine .bind_right fun next => ?_
    cases next with
    | none => exact hkept cursor
    | some bound =>
      by_cases hdepth : cursor.depth ≤ expander.config.maxDepth
      · have hdepth' : cursor.depth ≤ (expander.withLimit limit).config.maxDepth :=
          Nat.le_trans hdepth hlimit
        -- both limits allow the expansion, which does not depend on them
        simp only [hdepth, hdepth', decide_true, Expander.expandCall_withLimit]
        refine .bind_right fun placement => ?_
        cases placement with
        | empty => exact hsettle _
        | statement stmt => exact hsettle _
        | function decl => exact .refl _ _
        | splice run => exact spliceRun_matchesAll h _ _ _
        | inPlace expr =>
          dsimp only
          cases hreplaced : cursor.stmt.replaceCall? bound.site.call expr with
          | none => exact .refl _ _
          | some stmt => exact hsettle _
      · simp only [hdepth, decide_false]
        exact .of_ignored (.depth _ _)

/-- A sequence is walked alike with a higher limit, unless the lower one ends the walk. -/
theorem walkFrom_withLimit (hlimit : expander.config.maxDepth ≤ limit)
    (h : walkInner.MatchesAll (Stop.IsLimit expander.config.maxDepth file.source) walkInner')
    (stop steps : Nat) (cursor : Cursor) :
    ExpandM.Matches (Stop.IsLimit expander.config.maxDepth file.source) Eq
      (walkFrom { expander, file } walkInner stop steps cursor)
      (walkFrom { expander := expander.withLimit limit, file } walkInner' stop steps cursor) := by
  induction steps generalizing cursor with
  | zero => exact .refl _ _
  | succ steps ih =>
    unfold walkFrom
    split
    · exact .bind_right fun _ => Flow.matches_followedBy_same (settle_withLimit hlimit h hlimit _)
        fun settled => ih _
    · exact .refl _ _

/-- A walk with a raised limit goes on as before. -/
theorem walk_withLimit (hlimit : expander.config.maxDepth ≤ limit) (nesting : Nat) :
    SequenceWalk.MatchesAll (σ := σ) (Stop.IsLimit expander.config.maxDepth file.source)
      (walk { expander, file } nesting)
      (walk { expander := expander.withLimit limit, file } nesting) := by
  induction nesting with
  | zero => exact fun _ _ _ _ _ _ => .refl _ _
  | succ nesting ih => exact fun _ _ _ _ _ stop => walkFrom_withLimit hlimit ih stop _ _

end FileWalk

/-- With a raised limit a file is expanded as with the lower one, unless the lower limit ends the
expansion: the result, the trace, the warnings, the error and what the macros leave behind are all
the same. -/
theorem raised_limit_changes_no_outcome (expander : Expander) (limit : Nat)
    (hlimit : expander.config.maxDepth ≤ limit) (nesting : Nat) (tree : SyntaxTree)
    (workspace : Workspace σ) :
    (∃ stop, (expander.expandWithin nesting tree workspace).1 = .error stop ∧
        stop.IsLimit expander.config.maxDepth tree.sourceText) ∨
      (expander.withLimit limit).expandWithin nesting tree workspace =
        expander.expandWithin nesting tree workspace := by
  have hitems : ExpandM.Matches (Stop.IsLimit expander.config.maxDepth tree.sourceText) Eq
      (Expander.itemsProgram (σ := σ) (·.walk nesting) expander tree)
      (Expander.itemsProgram (·.walk nesting) (expander.withLimit limit) tree) :=
    .mapM (FileWalk.expandItem_matches (FileWalk.admits_withLimit hlimit)
      fun _ _ _ => FileWalk.walk_withLimit hlimit nesting _ _ _ _ _ _) tree.items
  have hrun := hitems { toWorkspace := workspace }
  unfold Expander.expandWithin
  rw [Expander.expandBy_eq, Expander.expandBy_eq]
  rcases hlower : (Expander.itemsProgram (·.walk nesting) expander tree).runFrom
    { toWorkspace := workspace } with ⟨stop | items, ended⟩
  all_goals rw [hlower] at hrun
  · rcases hrun with hstop | hhigher
    · exact .inl ⟨stop, rfl, hstop⟩
    · rw [hhigher]
      exact .inr rfl
  · obtain ⟨_, rfl, hhigher⟩ := hrun
    rw [hhigher]
    exact .inr rfl

/-- A macro that writes an empty statement is done within the limit, so a raised one changes
nothing. -/
theorem raised_limit_changes_no_outcome_repeat :
    (repeatExpander 1).config.maxDepth ≤ 2 ∧
      ((repeatExpander 1).expandWithin 4 repeatFile (repeatWorkspace .nothing)).1.isOk ∧
      ((repeatExpander 1).withLimit 2).expandWithin 4 repeatFile (repeatWorkspace .nothing) =
        (repeatExpander 1).expandWithin 4 repeatFile (repeatWorkspace .nothing) := by
  have hlimit : (repeatExpander 1).config.maxDepth ≤ 2 := by decide
  have hdone : ((repeatExpander 1).expandWithin 4 repeatFile (repeatWorkspace .nothing)).1.isOk :=
    by cbv
  refine ⟨hlimit, hdone, ?_⟩
  rcases raised_limit_changes_no_outcome (repeatExpander 1) 2 hlimit 4 repeatFile
    (repeatWorkspace .nothing) with ⟨stop, hstop, -⟩ | hsame
  · rw [hstop] at hdone
    cases hdone
  · exact hsame

end MacroExpansion
