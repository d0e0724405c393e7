import MacroExpansion.Proofs.CursorShows

/-! # Both walks are the same

`walk_agrees_splitWalk` says that the walk by positions and the walk of the parted sequence are the
same program. Its invariant is `Cursor.Shows`; the walk of a run is compared by counting what it
took of the statements behind the run. -/

namespace MacroExpansion

/-- Told in positions of the sequence that a run was walked in: what the walk took beyond the run
is its overrun, and the run together with its overrun stands for the next statement. -/
theorem Split.Reaches.after_overrun {split last : Split} {captured : Nat} {run rest : List Stmt}
    (hrest : split.todo.drop (captured + 1) = rest) (hcaptured : captured < split.todo.length)
    (h : (split.insert captured run).Reaches last) (hlength : last.todo.length ≤ rest.length) :
    let overrun := min ((split.done ++ run ++ rest).length - last.todo.length -
      (split.done.length + run.length)) rest.length
    let kept := last.statements.length - (rest.length - overrun)
    let settled := Settled.spliced (1 + captured + overrun)
      ((last.statements.take kept).drop split.done.length)
    settled.Fits split.todo.length ∧ last = split.after settled := by
  intro overrun kept settled
  obtain ⟨hreaches, hsuffix⟩ := h.of_insert (hrest ▸ hlength)
  obtain ⟨added, hadded⟩ := hreaches.done
  have hrestLength : rest.length = split.todo.length - (captured + 1) := by
    rw [← hrest, List.length_drop]
  -- the overrun is what the rest has lost, and all that was settled is kept
  have hoverrun : overrun = rest.length - last.todo.length := by
    simp only [overrun, List.length_append]
    omega
  have hkept : kept = last.done.length := by
    simp only [kept, hoverrun, Split.statements, List.length_append]
    omega
  refine ⟨⟨by omega, by omega⟩, ?_⟩
  have hadd : (last.statements.take kept).drop split.done.length = added := by
    rw [hkept, Split.statements, List.take_left, ← hadded, List.drop_left]
  have htodo : split.todo.drop (1 + captured + overrun) = last.todo := by
    rw [← List.drop_drop, Nat.add_comm 1 captured, hrest, hoverrun]
    exact (List.suffix_iff_eq_drop.mp (hrest ▸ hsuffix)).symm
  rw [show settled = .spliced (1 + captured + overrun) added by rw [← hadd], Split.after, hadded,
    htodo]

namespace FileWalk

variable {σ : Type} {walk : FileWalk σ} {walkRun : SplitWalk σ} {setting : Setting}

/-- The statements nested in a statement are walked alike at every cursor that shows it. -/
theorem walkSlots_congr {walkInner walkInner' : SequenceWalk σ} (hinner : walkInner.Agrees walkInner')
    {cursor cursor' : Cursor} {split : Split} (h : cursor.Shows setting split)
    (h' : cursor'.Shows setting split) (slots : List Slot) :
    walkSlots walkInner cursor slots = walkSlots walkInner' cursor' slots := by
  induction slots generalizing cursor cursor' split with
  | nil => rw [walkSlots, walkSlots, h.stmt, h'.stmt]
  | cons slot rest ih =>
    have hstmt : cursor.stmt = cursor'.stmt := h.stmt.trans h'.stmt.symm
    have hdepth : cursor.depth = cursor'.depth := h.depth.trans h'.depth.symm
    -- both enter the slot in the same scope, and put the same content back
    rw [walkSlots, walkSlots, hstmt]
    cases hcontent : slot.content? cursor'.stmt with
    | none =>
      simp only
      exact ih h h'
    | some content =>
      simp only
      rw [h.inside_eq h', hdepth, hinner _ _ _ _ _ _ (Nat.zero_le _) (Nat.le_refl _)]
      congr 1
      funext flow
      congr 1
      funext walked
      exact ih (h.withStmt _) (h'.withStmt _)

/-- Without further calls a statement is settled behind what is nested in it. -/
theorem settled_matches {walkInner : SequenceWalk σ} (hinner : walkInner.Agrees walkRun.onSequence)
    {cursor : Cursor} {split : Split} (h : cursor.Shows setting split) (slots : List Slot)
    (hpos : 0 < split.todo.length) :
    ExpandM.Matches (fun _ => False)
      (Flow.Related fun settled last =>
        settled.Fits split.todo.length ∧ last = split.after settled)
      (walkSlots walkInner cursor slots >>= (·.followedBy fun stmt =>
        return .proceed (.kept stmt)))
      (walkSlots walkRun.onSequence (setting.cursor split) slots >>= (·.followedBy fun stmt =>
        return .proceed (split.after (.kept stmt)))) := by
  rw [walkSlots_congr hinner h (.of_split setting split)]
  refine Flow.matches_followedBy (Flow.matches_refl (Flow.ensures_trivial _)) ?_
  rintro stmt _ ⟨rfl, -⟩
  exact .pure (.proceed ⟨hpos, rfl⟩)

/-- Walking an inserted run in the whole sequence, in place of the statements that it stands for, is
walking it in front of the statements to come. -/
theorem spliceRun_matches {walkInner : SequenceWalk σ} (hrun : walkRun.Advances)
    (hinner : walkInner.Agrees walkRun.onSequence) {cursor : Cursor} {split : Split}
    (h : cursor.Shows setting split) (captured : Nat) (run : List Stmt)
    (hcaptured : captured < split.todo.length) :
    ExpandM.Matches (fun _ => False)
      (Flow.Related fun settled last =>
        settled.Fits split.todo.length ∧ last = split.after settled)
      (spliceRun walkInner cursor captured run)
      (walkRun setting.deeper (split.todo.drop (captured + 1)).length
        (split.insert captured run)) := by
  -- the run stands between what is settled and what it leaves of the statements to come
  have hfront : cursor.splices.preview (cursor.statements.take cursor.index) = split.done := by
    have happly := congrArg Prod.fst (h.apply [])
    rw [List.append_nil, List.append_nil] at happly
    exact happly
  have hrest : cursor.statements.drop (cursor.index + 1 + captured) =
      split.todo.drop (captured + 1) := by
    rw [Nat.add_assoc, Nat.add_comm 1 captured, ← List.drop_drop, h.todo]
  have hinsert : Split.mk ((split.done ++ run ++ split.todo.drop (captured + 1)).take
      split.done.length) ((split.done ++ run ++ split.todo.drop (captured + 1)).drop
        split.done.length) = split.insert captured run := by
    rw [List.append_assoc, List.take_left, List.drop_left]
    rfl
  -- the position to stop at leaves what is behind the run
  have htail : (split.done ++ run ++ split.todo.drop (captured + 1)).length -
      (split.done.length + run.length) = (split.todo.drop (captured + 1)).length := by
    simp only [List.length_append]
    omega
  unfold spliceRun
  simp only [hfront, hrest, h.scope, h.depth, h.span]
  rw [hinner _ _ _ _ _ _ (Nat.le_add_right _ _) (by simp only [List.length_append]; omega)]
  simp only [SplitWalk.onSequence, hinsert, htail]
  rw [Flow.bind_followedBy_assoc, ← Flow.bind_followedBy_pure (walkRun setting.deeper _ _)]
  -- both walk the run in the same way, and differ in how they count what it took
  refine Flow.matches_followedBy (Flow.matches_refl (hrun _ _ _)) ?_
  rintro last _ ⟨rfl, hreaches, hlength⟩
  refine .pure (.proceed ?_)
  exact hreaches.after_overrun rfl hcaptured hlength

/-- A statement is settled alike at every cursor that shows it. -/
theorem settle_matches {walkInner : SequenceWalk σ} (hshown : walk.GoesByShown)
    (hrun : walkRun.Advances) (hinner : walkInner.Agrees walkRun.onSequence)
    (allowed : Nat) {cursor : Cursor} {split : Split} (h : cursor.Shows setting split)
    (hpos : 0 < split.todo.length) :
    ExpandM.Matches (fun _ => False)
      (Flow.Related fun settled last =>
        settled.Fits split.todo.length ∧ last = split.after settled)
      (walk.settle walkInner allowed cursor)
      (walk.settleSplit walkRun walkRun.onSequence setting allowed split) := by
  induction allowed generalizing cursor split with
  | zero =>
    have hsplit := Cursor.Shows.of_split setting split
    unfold settle settleSplit
    simp only
    rw [h.stmt.trans hsplit.stmt.symm, h.site_eq hsplit]
    refine (ExpandM.Matches.refl_ensures (hshown.captures _ _)).bind ?_
    rintro next _ ⟨rfl, -⟩
    cases next with
    | none => exact settled_matches hinner h _ hpos
    | some bound => exact .throw _
  | succ allowed ih =>
    have hsplit := Cursor.Shows.of_split setting split
    -- a statement that stands for the next one is settled in its place
    have again (stmt : Stmt) : ExpandM.Matches (fun _ => False)
        (Flow.Related fun settled last =>
          settled.Fits split.todo.length ∧ last = split.after settled)
        (walk.settle walkInner allowed (cursor.withStmt stmt))
        (walk.settleSplit walkRun walkRun.onSequence setting allowed (split.withStmt stmt)) := by
      have hlength := split.length_todo_withStmt stmt
      refine (ih (h.withStmt stmt) (hlength ▸ hpos)).mono fun flow last hrelated => ?_
      refine hrelated.mono ?_
      rintro settled _ ⟨hfits, rfl⟩
      rw [hlength] at hfits
      exact ⟨hfits, Split.after_withStmt hfits split stmt⟩
    unfold settle settleSplit
    simp only
    rw [h.stmt.trans hsplit.stmt.symm, h.site_eq hsplit, h.depth]
    refine (ExpandM.Matches.refl_ensures (hshown.captures _ _)).bind ?_
    rintro next _ ⟨rfl, hnext⟩
    cases next with
    | none => exact settled_matches hinner h _ hpos
    | some bound =>
      cases hdepth : decide (setting.depth ≤ walk.expander.config.maxDepth) with
      | false => exact .throw _
      | true =>
        refine (ExpandM.Matches.refl _ _).bind ?_
        rintro placement _ rfl
        cases placement with
        | empty => exact again _
        | statement stmt => exact again stmt
        | function decl => exact .pure (.replaceFunction decl)
        | inPlace expr =>
          simp only [placeSplit]
          cases (setting.cursor split).stmt.replaceCall? bound.site.call expr with
          | none => exact .throw _
          | some stmt => exact again stmt
        | splice run =>
          -- what the call captured follows it, so the run stands for statements that are there
          obtain ⟨⟨call, -, hsite⟩, hcaptured⟩ := hnext bound rfl
          rw [hsite, hsplit.following, List.length_tail] at hcaptured
          exact spliceRun_matches hrun hinner h bound.captured run (by omega)

/-- The statements from a cursor to a position are walked alike at every cursor that shows them. -/
theorem walkFrom_matches {walkInner : SequenceWalk σ} (hshown : walk.GoesByShown)
    (hrun : walkRun.Advances) (hinner : walkInner.Agrees walkRun.onSequence) (steps : Nat)
    {cursor : Cursor} {split : Split} (h : cursor.Shows setting split) {length stop : Nat}
    (hlength : cursor.statements.length = length) (hstop : stop ≤ length) :
    ExpandM.Matches (fun _ => False)
      (Flow.Related fun walked last => walked = ⟨last.statements, length - last.todo.length⟩)
      (walk.walkFrom walkInner stop steps cursor)
      (walk.walkSplit walkRun walkRun.onSequence setting (length - stop) steps split) := by
  induction steps generalizing cursor split with
  | zero => exact .pure (.proceed (h.walked hlength))
  | succ steps ih =>
    have hindex := h.index_add_length
    unfold walkFrom walkSplit
    -- the cursor is short of the position as long as more is to come than lies behind the position
    by_cases hend : cursor.index < stop
    · rw [if_pos hend, if_pos (by omega), hshown.poll h]
      refine (ExpandM.Matches.refl _ _).bind fun _ _ _ => ?_
      refine Flow.matches_followedBy
        (settle_matches hshown hrun hinner _ h (by omega)) ?_
      rintro settled _ ⟨hfits, rfl⟩
      exact ih (h.after hfits) (by rw [Cursor.length_after, hlength])
    · rw [if_neg hend, if_neg (by omega)]
      exact .pure (.proceed (h.walked hlength))

end FileWalk

/-- The walk of a part of a sequence is the walk of the sequence parted at its start. -/
theorem FileWalk.walk_agrees_splitWalk {σ : Type} {file : FileWalk σ} (hshown : file.GoesByShown)
    (nesting : Nat) : (file.walk nesting).Agrees (file.splitWalk nesting).onSequence := by
  induction nesting with
  | zero => exact fun _ _ _ _ _ _ _ _ => rfl
  | succ nesting ih =>
    intro scope depth span statements start stop hstart hstop
    have hshows := Cursor.Shows.initial ⟨scope, depth, span⟩ statements start
      (Nat.le_trans hstart hstop)
    have hmatches := walkFrom_matches hshown (splitWalk_advances file nesting) ih
      (stop - start) hshows rfl hstop
    have hsteps : (statements.drop start).length - (statements.length - stop) = stop - start := by
      rw [List.length_drop]
      omega
    change walkFrom file (file.walk nesting) stop (stop - start) _ =
      (walkSplit file (file.splitWalk nesting) (file.splitWalk nesting).onSequence _ _
        ((statements.drop start).length - (statements.length - stop)) _ >>= _)
    rw [hsteps, ← Flow.bind_followedBy_pure (walkFrom _ _ _ _ _)]
    refine ExpandM.ext fun progress => (ExpandM.Matches.runFrom_eq ?_ progress).symm
    refine (Flow.matches_followedBy hmatches ?_).mono fun _ _ => Flow.Related.eq
    rintro _ last rfl
    exact .pure (.proceed rfl)

/-- The walk of a whole sequence in an expansion is the walk of the sequence with nothing settled. -/
theorem Expander.walk_whole {σ : Type} (expander : Expander) (file : FileOrigin) (nesting : Nat)
    (scope : Scope) (depth : Nat) (span : Span) (statements : List Stmt) :
    FileWalk.walk (σ := σ) { expander, file } nesting scope depth span statements 0
        statements.length =
      (FileWalk.splitWalk { expander, file } nesting).onSequence scope depth span statements 0
        statements.length :=
  FileWalk.walk_agrees_splitWalk (FileWalk.goesByShown_of_expansion expander file) nesting scope depth
    span statements 0 _ (Nat.zero_le _) (Nat.le_refl _)

end MacroExpansion
