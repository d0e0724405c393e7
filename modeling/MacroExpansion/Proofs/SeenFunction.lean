import MacroExpansion.Proofs.Fixpoint
import MacroExpansion.Proofs.WriteBack

/-! # The function that a macro sees

Wherever a macro is called in a function, it sees the function as it is rewritten so far: the
function that the expansion would leave behind if it expanded nothing more from there on. A function
that was replaced is seen in the form that replaced it; `FileWalk.Becomes` follows the function
through its replacements. -/

namespace MacroExpansion

variable {σ : Type}

namespace FileWalk

/-- What stands for a function that is expanded, with the progress in which it is walked: first the
function itself, then what replaces it, one after the other. -/
inductive Becomes (walkAll : SequenceWalk σ) :
    FunctionDecl → Progress σ → FunctionDecl → Progress σ → Prop where
  /-- At first it is the function. -/
  | itself {decl : FunctionDecl} {progress : Progress σ} : Becomes walkAll decl progress decl progress
  /-- When the walk of its body replaces it, it is what the replacement becomes. -/
  | replaced {decl next current : FunctionDecl} {progress middle ended : Progress σ}
      (hwalk : (walkBlock walkAll (.ofFunction decl) decl.body).runFrom progress =
        (.ok (.replaceFunction next), middle))
      (h : Becomes walkAll next middle current ended) : Becomes walkAll decl progress current ended

variable {expander : Expander} {file : FileOrigin} {nesting count : Nat}

/-- The expansion of a function is tracked by the one that pauses. On pause it leaves the function
behind whose body the site sees around it. -/
theorem expandFunction_tracks_body (expander : Expander) (file : FileOrigin)
    (count nesting allowed : Nat) (decl : FunctionDecl) :
    ExpandM.Tracks (σ := σ) count
      (fun site last => site.Sees (σ := σ) { expander, file } count (.ofFunction last) last.body)
      (expandFunction { expander, file } (walk { expander, file } nesting) allowed decl)
      fun fuel => expandFunction (pausedAt { expander, file } count)
        ((pausedAt { expander, file } count).walk fuel) allowed decl := by
  induction allowed generalizing decl
  all_goals
    unfold expandFunction
    refine (walkBlock_tracks expander file count nesting _ decl.body).bind (fun flow => ?_) ?_
  case zero.refine_1 =>
    cases flow with
    | proceed body => exact .pure _
    | replaceFunction replacement => exact .throw _ _
  case succ.refine_1 allowed ih =>
    cases flow with
    | proceed body => exact .pure _
    | replaceFunction replacement => exact ih replacement
  all_goals
    rintro site _ ⟨body, rfl, hsees⟩
    exact .pure ⟨hsees.function, hsees.placed, hsees.statement, hsees.call⟩

/-- The expansion of a function is tracked by the one that pauses. On pause it leaves the function
behind that is seen. -/
theorem expandFunction_tracks (expander : Expander) (file : FileOrigin) (count nesting allowed : Nat)
    (decl : FunctionDecl) :
    ExpandM.Tracks (σ := σ) count (fun site last => site.function = some last)
      (expandFunction { expander, file } (walk { expander, file } nesting) allowed decl)
      fun fuel => expandFunction (pausedAt { expander, file } count)
        ((pausedAt { expander, file } count).walk fuel) allowed decl :=
  (expandFunction_tracks_body expander file count nesting allowed decl).mono fun _ _ hsees =>
    hsees.function

/-- An invocation while a function is expanded takes place in the walk of its body, or while the
function is expanded that replaces it. -/
theorem invoked_cases {allowed : Nat} {decl : FunctionDecl} {progress : Progress σ}
    {earlier : List (String × Invocation)} {entry : String × Invocation}
    (h : ((expandFunction { expander, file } (walk { expander, file } nesting) allowed decl).runFrom
      (progress.recorded earlier)).2.invocations[count]? = some entry) :
    ((walkBlock (walk { expander, file } nesting) (.ofFunction decl) decl.body).runFrom
        (progress.recorded earlier)).2.invocations[count]? = some entry ∨
      ∃ (fewer : Nat) (next : FunctionDecl) (middle : Progress σ)
        (past : List (String × Invocation)),
        allowed = fewer + 1 ∧
        (walkBlock (walk { expander, file } nesting) (.ofFunction decl) decl.body).runFrom
          (progress.recorded earlier) = (.ok (.replaceFunction next), middle.recorded past) ∧
        past.length ≤ count ∧
        ((expandFunction { expander, file } (walk { expander, file } nesting) fewer next).runFrom
          (middle.recorded past)).2.invocations[count]? = some entry := by
  obtain ⟨middle, later, hmiddle⟩ := (walkBlock_tracks expander file count nesting
    (.ofFunction decl) decl.body progress earlier).records
  unfold expandFunction at h
  rcases hwalk : (walkBlock (walk { expander, file } nesting) (.ofFunction decl) decl.body).runFrom
    (progress.recorded earlier) with ⟨stop | flow, ended⟩
  all_goals
    rw [hwalk] at hmiddle
    subst hmiddle
  · rw [ExpandM.runFrom_bind_of_error hwalk] at h
    exact .inl h
  · rw [ExpandM.runFrom_bind_of_ok hwalk] at h
    cases flow with
    | proceed body => exact .inl h
    | replaceFunction next =>
      cases allowed with
      | zero => exact .inl h
      | succ fewer =>
        obtain ⟨last, latest, hlast⟩ := (expandFunction_tracks expander file count nesting fewer next
          middle (earlier ++ later)).records
        -- what is recorded from here on comes behind the records of the walk
        rcases Nat.lt_or_ge count (earlier ++ later).length with hlt | hle
        · simp only [hlast, Progress.invocations_recorded, List.getElem?_append_left hlt] at h
          exact .inl h
        · exact .inr ⟨fewer, next, middle, earlier ++ later, rfl, rfl, hle, h⟩

/-- An invocation while a function is expanded belongs to the walk of what stands for the function
by then. -/
theorem becomes_of_invoked {allowed : Nat} {decl : FunctionDecl} {progress : Progress σ}
    {earlier : List (String × Invocation)} {entry : String × Invocation}
    (hearlier : earlier.length ≤ count)
    (h : ((expandFunction { expander, file } (walk { expander, file } nesting) allowed decl).runFrom
      (progress.recorded earlier)).2.invocations[count]? = some entry) :
    ∃ (current : FunctionDecl) (middle : Progress σ) (past : List (String × Invocation)),
      Becomes (walk { expander, file } nesting) decl (progress.recorded earlier) current
        (middle.recorded past) ∧
      past.length ≤ count ∧
      ((walkBlock (walk { expander, file } nesting) (.ofFunction current) current.body).runFrom
        (middle.recorded past)).2.invocations[count]? = some entry := by
  induction allowed generalizing decl progress earlier with
  | zero =>
    rcases invoked_cases h with hwalk | ⟨fewer, next, middle, past, hallowed, -⟩
    · exact ⟨decl, progress, earlier, .itself, hearlier, hwalk⟩
    · cases hallowed
  | succ allowed ih =>
    rcases invoked_cases h with hwalk | ⟨fewer, next, middle, past, hallowed, hwalk, hpast, hnext⟩
    · exact ⟨decl, progress, earlier, .itself, hearlier, hwalk⟩
    · cases hallowed
      obtain ⟨current, last, records, hbecomes, hinvoked⟩ := ih hpast hnext
      exact ⟨current, last, records, .replaced hwalk hbecomes, hinvoked⟩

/-- A macro that is invoked while a function is expanded sees the function as it is rewritten so far.
Of what stands for the function by then it sees the header; and what it sees as a whole is what the
expansion leaves behind when it pauses right there, with every body that it has entered put back in
its place. In the innermost of them is the block of the call's site, with the call's statement at its
position. -/
theorem seen_function_is_written_back (expander : Expander) (file : FileOrigin)
    (nesting allowed count : Nat) (decl : FunctionDecl) (progress : Progress σ)
    (earlier : List (String × Invocation)) {name : String} {invocation : Invocation}
    (hearlier : earlier.length ≤ count)
    (h : ((expandFunction { expander, file } (walk { expander, file } nesting) allowed decl).runFrom
      (progress.recorded earlier)).2.invocations[count]? = some (name, invocation)) :
    ∃ (current : FunctionDecl) (middle : Progress σ) (past : List (String × Invocation))
      (seen : FunctionDecl),
      (Becomes (walk { expander, file } nesting) decl (progress.recorded earlier) current
          (middle.recorded past) ∧
        past.length ≤ count ∧
        ((walkBlock (walk { expander, file } nesting) (.ofFunction current) current.body).runFrom
          (middle.recorded past)).2.invocations[count]? = some (name, invocation)) ∧
      invocation.site.function = some seen ∧
      (∃ stopped, stopped.invocations.length = count ∧
        ExpandM.ComesTo (fun fuel => expandFunction (pausedAt { expander, file } count)
          ((pausedAt { expander, file } count).walk fuel) allowed decl) (progress.recorded earlier)
          (.ok seen, stopped)) ∧
      (∃ levels : List Level, (∀ level ∈ levels, level.HasSlot) ∧
        seen = FunctionContext.plug ⟨current, levels⟩ invocation.site.block) ∧
      invocation.site.block.statements[invocation.site.index]? = some invocation.site.statement ∧
      invocation.site.call ∈ invocation.site.statement.ownCalls := by
  obtain ⟨current, middle, past, hbecomes, hpast, hwalk⟩ := becomes_of_invoked hearlier h
  obtain ⟨_, _, ⟨body, rfl, hsees⟩, -, -⟩ := (walkBlock_tracks expander file count nesting
    (.ofFunction current) current.body middle past).seen hpast hwalk
  obtain ⟨seen, stopped, hseen, hstopped, hcomes⟩ :=
    (expandFunction_tracks expander file count nesting allowed decl progress earlier).seen hearlier h
  -- both are the function of the site
  have hbody : { current with body } = seen := by
    rw [hsees.function] at hseen
    exact Option.some.inj hseen
  obtain ⟨levels, hlevels, hnested⟩ := hsees.nested
  refine ⟨current, middle, past, seen, ⟨hbecomes, hpast, hwalk⟩, hseen,
    ⟨stopped, hstopped, hcomes⟩, ⟨levels, hlevels, ?_⟩, hsees.statement, hsees.call⟩
  rw [← hbody, hnested]
  rfl

/-- Behind a loop whose body was a call of a macro without output, another call of the macro sees
the loop with what is left in its body. -/
theorem seen_function_is_written_back_loop :
    let model := (({} : SymbolTable).declare skipMacro).model
    let expander : Expander := { model, config := { recordTrace := false } }
    let file : FileOrigin := { path := "file", text := none }
    let walk : FileWalk (Recording Unit) := { expander, file }
    let start : Progress Unit := { toWorkspace := skipWorkspace }
    let skip := Stmt.evaluate (.callOf "Skip" [])
    let loop (body : Stmt) := blockFunction [.loopWhile (.ofBool true) body, skip]
    ∃ name invocation seen,
      ((walk.expandFunction (walk.walk 3) 1 (loop skip)).runFrom
          start.recorded).2.invocations[1]? = some (name, invocation) ∧
        invocation.site.function = some seen ∧
        seen = loop .nothing ∧
        ∃ stopped, ExpandM.ComesTo (fun fuel => (walk.pausedAt 1).expandFunction
          ((walk.pausedAt 1).walk fuel) 1 (loop skip)) start.recorded (.ok seen, stopped) := by
  intro model expander file walk start skip loop
  have hsees : (((walk.expandFunction (walk.walk 3) 1 (loop skip)).runFrom
      start.recorded).2.invocations[1]?).map (·.2.site.function) = some (some (loop .nothing)) := by
    cbv
  obtain ⟨⟨name, invocation⟩, hinvoked, hsite⟩ := Option.map_eq_some_iff.mp hsees
  obtain ⟨-, -, -, seen, -, hseen, ⟨stopped, -, hcomes⟩, -⟩ :=
    seen_function_is_written_back expander file 3 1 1 (loop skip) start [] (Nat.zero_le 1) hinvoked
  refine ⟨name, invocation, seen, hinvoked, hseen, ?_, stopped, hcomes⟩
  exact Option.some.inj (hseen.symm.trans hsite)

end FileWalk

end MacroExpansion
