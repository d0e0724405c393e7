import MacroExpansion.Proofs.SeenFile

/-! # The nearest member around a call

A macro sees the nearest function, accessor or lambda around its call. A function is seen as it is
rewritten by then, like the block of the call. A lambda is seen as it was entered: the expansions in
its body before the call are seen in the function and in the block, but not in the lambda. So the
three views agree if and only if these expansions left the body of the lambda as it was, and they do at
the first invocation in a lambda. -/

namespace MacroExpansion

variable {σ : Type}

/-! ## Lambdas around a block -/

/-- Without lambdas there is no nearest one. -/
theorem lambdaAround?_eq_none {levels : List Level} (h : ∀ level ∈ levels, level.lambda? = none)
    (block : Block) : lambdaAround? levels block = none := by
  induction levels generalizing block with
  | nil => rfl
  | cons level outer ih =>
    rw [lambdaAround?, h level List.mem_cons_self]
    exact ih (fun other hmem => h other (List.mem_cons_of_mem level hmem)) (level.plug block)

/-- The nearest lambda is the first one that a level was entered by; the levels further in belong to
its body. -/
theorem lambdaAround?_eq_some {inner outer : List Level} {level : Level} {lambda : Lambda}
    (hinner : ∀ other ∈ inner, other.lambda? = none) (hlevel : level.lambda? = some lambda)
    (block : Block) :
    lambdaAround? (inner ++ level :: outer) block =
      some (lambda, inner.foldl (fun body level => level.plug body) block) := by
  rw [lambdaAround?_append, lambdaAround?_eq_none hinner, Option.none_or, lambdaAround?, hlevel]

/-- Either no level was entered by a lambda, or one of them by the nearest lambda. -/
theorem nearest_lambda_cases (levels : List Level) :
    (∀ level ∈ levels, level.lambda? = none) ∨
      ∃ inner level outer lambda, levels = inner ++ level :: outer ∧
        (∀ other ∈ inner, other.lambda? = none) ∧ level.lambda? = some lambda := by
  cases hfind : levels.find? (·.lambda?.isSome) with
  | none =>
    refine .inl fun level hlevel => ?_
    simpa using List.find?_eq_none.mp hfind level hlevel
  | some level =>
    -- the first level that a lambda was entered by, innermost first
    obtain ⟨hlevel, inner, outer, hlevels, hinner⟩ := List.find?_eq_some_iff_append.mp hfind
    obtain ⟨lambda, hlambda⟩ := Option.isSome_iff_exists.mp hlevel
    exact .inr ⟨inner, level, outer, lambda, hlevels, fun other hmem => by simpa using hinner other hmem,
      hlambda⟩

/-- In the block of a level the lambda that was entered has the body that is put in its place. -/
theorem Level.exists_lambda_plug {level : Level} {lambda : Lambda} (h : level.lambda? = some lambda)
    (body : Block) :
    ∃ stmt, (level.plug body).statements[level.index]? = some stmt ∧
      lambda.withBody body ∈ stmt.ownLambdas := by
  unfold lambda? at h
  cases hslot : level.slot with
  | lambda n =>
    rw [hslot] at h
    obtain ⟨stmt, hstmt, hlambda⟩ := Option.bind_eq_some_iff.mp h
    refine ⟨stmt.modifyOwnLambda n (·.withBody body), ?_, ?_⟩
    · simp only [plug, List.getElem?_modify_eq, hstmt, hslot]
      rfl
    · rw [Stmt.ownLambdas_modifyOwnLambda]
      refine List.mem_of_getElem? (i := n) ?_
      rw [List.getElem?_modify_eq, hlambda]
      rfl
  | _ =>
    rw [hslot] at h
    cases h

/-- The nearest member or lambda around a block in some levels of a member, as it reads with the block
in its place. -/
def Enclosing.current (member : Enclosing) (levels : List Level) (block : Block) : Enclosing :=
  (lambdaAround? levels block).elim member fun near => .lambda (near.1.withBody near.2)

/-- Without lambdas around it the nearest member is the member itself. -/
theorem Enclosing.current_of_none (member : Enclosing) {levels : List Level} {block : Block}
    (h : lambdaAround? levels block = none) : member.current levels block = member := by
  rw [current, h]
  rfl

/-- A lambda reads with what has become of its body. -/
theorem Enclosing.current_of_some (member : Enclosing) {levels : List Level} {block body : Block}
    {lambda : Lambda} (h : lambdaAround? levels block = some (lambda, body)) :
    member.current levels block = .lambda (lambda.withBody body) := by
  rw [current, h]
  rfl

/-! ## The first invocation in a block -/

/-- A walk has changed nothing before its first invocation. -/
theorem FileWalk.PausesIn.eq_of_first {expander : Expander} {file : FileOrigin} {count : Nat}
    {site : Site} {scope : Scope} {before now : Block}
    (h : PausesIn (σ := σ) { expander, file } count count site scope before now) : now = before := by
  obtain ⟨-, depth, walked, rfl, progress, earlier, stopped, hlength, -, -, enough, hcomes⟩ := h
  -- with all these invocations on record the walk is on pause right away
  have hpaused : (progress.recorded earlier).invocations.length = count := hlength
  obtain ⟨position, hrests⟩ := walk_rests expander file count
    (max enough (stmtsHeight before.statements + 1)) scope depth before.span before.statements
    (by omega) _ hpaused
  rw [hcomes _ (Nat.le_max_left _ _)] at hrests
  cases hrests
  cases before
  rfl

/-! ## Calls in a lambda -/

/-- However far the walk of the body of a lambda has come, the calls in the body see the lambda as it
was when the walk began, unless another lambda is nearer. -/
theorem FileWalk.lambda_seen_as_entered {expander : Expander} {file : FileOrigin}
    {nesting depth count : Nat} {scope : Scope} {lambda : Lambda} {progress : Progress σ}
    {earlier : List (String × Invocation)} {name : String} {invocation : Invocation}
    (hscope : scope.enclosing = .lambda lambda) (hearlier : earlier.length ≤ count)
    (h : ((walk { expander, file } nesting scope depth lambda.asBody.span lambda.asBody.statements 0
      lambda.asBody.statements.length).runFrom (progress.recorded earlier)).2.invocations[count]? =
        some (name, invocation)) :
    ∃ (levels : List Level) (walked : Walked) (stopped : Progress (Recording σ)),
      (stopped.invocations.length = count ∧
        ExpandM.ComesTo (fun fuel => (pausedAt { expander, file } count).walk fuel scope depth
          lambda.asBody.span lambda.asBody.statements 0 lambda.asBody.statements.length)
          (progress.recorded earlier) (.ok (.proceed walked), stopped)) ∧
      (⟨walked.statements, lambda.asBody.span⟩ : Block) =
        levels.foldl (fun body level => level.plug body) invocation.site.block ∧
      (∀ level ∈ levels, level.HasSlot) ∧
      ((∀ level ∈ levels, level.lambda? = none) →
        invocation.site.enclosing = .lambda lambda) := by
  obtain ⟨_, stopped, ⟨walked, rfl, hsees, -⟩, hstopped, hcomes⟩ :=
    (walk_tracks expander file count nesting scope depth lambda.asBody.span lambda.asBody.statements
      progress earlier).seen hearlier h
  obtain ⟨levels, hwithin, hbody⟩ := hsees.placed
  refine ⟨levels, walked, stopped, ⟨hstopped, hcomes⟩, hbody, hwithin.slots, fun hnone => ?_⟩
  rw [hwithin.enclosing]
  unfold Enclosing.entered Scope.enclosingWith
  rw [lambdaAround?_eq_none hnone, hscope]
  rfl

/-! ## Files -/

/-- What a macro sees around its call. The call stands in a body of the file as it is rewritten by
then, within some levels of nested statements and lambdas. The macro sees the function that owns the
body. If no level is entered by a lambda, the nearest member that it sees is the owner of the body as it
is rewritten by then. Otherwise it is the nearest lambda in the form in which its body was entered:
the body stands in the file as the walk of this form has rewritten it since then. So the lambda that is
seen is the current one if and only if that has changed nothing, as it is at the first invocation.

The second part is about all walks of the body of a lambda: whatever they have expanded, the calls
that are nearest to the lambda see it in the form in which its body was entered. -/
theorem nearest_member_is_seen (expander : Expander) (tree : SyntaxTree) :
    let walk : FileWalk (Recording σ) :=
      { expander, file := { path := tree.path, text := tree.source } }
    (∀ (nesting count : Nat) (workspace : Workspace σ) (name : String) (invocation : Invocation),
      (expander.expandWithin nesting tree
        workspace.recorded).2.session.host.invocations[count]? = some (name, invocation) →
      let site := invocation.site
      ∃ (items : List Item) (member : Enclosing) (levels : List Level),
        expander.StandAfter tree workspace count items ∧
        (member, levels.foldl (fun body level => level.plug body) site.block) ∈
          items.flatMap Item.ownedBodies ∧
        (∀ level ∈ levels, level.HasSlot) ∧
        site.block.statements[site.index]? = some site.statement ∧
        site.call ∈ site.statement.ownCalls ∧
        site.function = member.function? ∧
        ((∀ level ∈ levels, level.lambda? = none) ∧ site.enclosing = member ∧
            member.current levels site.block = member ∨
          ∃ (inner : List Level) (level : Level) (outer : List Level) (lambda : Lambda)
              (body : Block),
            levels = inner ++ level :: outer ∧
            (∀ other ∈ inner, other.lambda? = none) ∧ level.lambda? = some lambda ∧
            body = inner.foldl (fun body level => level.plug body) site.block ∧
            site.enclosing = .lambda lambda ∧
            member.current levels site.block = .lambda (lambda.withBody body) ∧
            (∃ stmt : Stmt, (level.plug body).statements[level.index]? = some stmt ∧
              lambda.withBody body ∈ stmt.ownLambdas) ∧
            ∃ (scope : Scope) (entered : Nat), scope.enclosing = .lambda lambda ∧ entered ≤ count ∧
              walk.PausesIn entered count site scope lambda.asBody body ∧
              (entered = count → lambda.withBody body = lambda))) ∧
    ∀ (nesting depth count : Nat) (scope : Scope) (lambda : Lambda) (progress : Progress σ)
        (earlier : List (String × Invocation)) (name : String) (invocation : Invocation),
      scope.enclosing = .lambda lambda → earlier.length ≤ count →
      ((walk.walk nesting scope depth lambda.asBody.span lambda.asBody.statements 0
        lambda.asBody.statements.length).runFrom (progress.recorded earlier)).2.invocations[count]? =
          some (name, invocation) →
      ∃ (levels : List Level) (walked : Walked) (stopped : Progress (Recording σ)),
        (stopped.invocations.length = count ∧
          ExpandM.ComesTo (fun fuel => (walk.pausedAt count).walk fuel scope depth
            lambda.asBody.span lambda.asBody.statements 0 lambda.asBody.statements.length)
            (progress.recorded earlier) (.ok (.proceed walked), stopped)) ∧
        (⟨walked.statements, lambda.asBody.span⟩ : Block) =
          levels.foldl (fun body level => level.plug body) invocation.site.block ∧
        (∀ level ∈ levels, level.HasSlot) ∧
        ((∀ level ∈ levels, level.lambda? = none) →
          invocation.site.enclosing = .lambda lambda) := by
  intro walk
  refine ⟨fun nesting count workspace name invocation h => ?_, fun _ _ _ _ _ _ _ _ _ hscope hearlier h =>
    FileWalk.lambda_seen_as_entered hscope hearlier h⟩
  intro site
  obtain ⟨items, hstand, member, levels, hseen⟩ := Expander.seen_of_invoked h
  have henclosing : site.enclosing = member.entered levels site.block := hseen.within.enclosing
  unfold Enclosing.entered at henclosing
  refine ⟨items, member, levels, hstand, hseen.body, hseen.within.slots, hseen.statement, hseen.call,
    hseen.function, ?_⟩
  rcases nearest_lambda_cases levels with hnone | ⟨inner, level, outer, lambda, rfl, hinner, hlevel⟩
  · have haround := lambdaAround?_eq_none hnone site.block
    rw [haround] at henclosing
    exact .inl ⟨hnone, henclosing, member.current_of_none haround⟩
  · have haround : lambdaAround? (inner ++ level :: outer) site.block = _ :=
      lambdaAround?_eq_some hinner hlevel site.block
    obtain ⟨scope, hscope, entered, hentered, hpauses⟩ := hseen.within.walked lambda _ haround
    rw [haround] at henclosing
    refine .inr ⟨inner, level, outer, lambda, _, rfl, hinner, hlevel, rfl, henclosing,
      member.current_of_some haround, level.exists_lambda_plug hlevel _, scope, entered, hscope,
      hentered, hpauses, ?_⟩
    rintro rfl
    rw [hpauses.eq_of_first, Lambda.withBody_asBody]

/-- A call behind another one in a lambda finds the other one expanded in the function and in its own
block, but not in the lambda. -/
theorem nearest_member_is_seen_lambda :
    let expander : Expander :=
      { model := (({} : SymbolTable).declare skipMacro).model, config := { recordTrace := false } }
    let skip := Stmt.evaluate (.callOf "Skip" [])
    let lambda (statements : List Stmt) : Lambda := ⟨[], .block (.of statements), default⟩
    let run (statements : List Stmt) : List Stmt := [.evaluate (.lambda (lambda statements))]
    let now := blockFunction (run [.nothing, skip])
    let tree := blockFile (run [skip, skip])
    let walk : FileWalk (Recording Unit) :=
      { expander, file := { path := tree.path, text := tree.source } }
    let start : Progress Unit := { toWorkspace := skipWorkspace }
    let scope : Scope := ⟨.lambda (lambda [skip, skip]), none⟩
    let body := (lambda [skip, skip]).asBody
    (∃ (name : String) (invocation : Invocation) (items : List Item) (levels : List Level)
        (scope : Scope) (entered : Nat) (rewritten : Block),
      (expander.expandWithin 4 tree
        skipWorkspace.recorded).2.session.host.invocations[1]? = some (name, invocation) ∧
      invocation.site.block = .of [.nothing, skip] ∧
      invocation.site.enclosing = .lambda (lambda [skip, skip]) ∧
      expander.StandAfter tree skipWorkspace 1 items ∧
      (.function now, levels.foldl (fun body level => level.plug body) invocation.site.block) ∈
        items.flatMap Item.ownedBodies ∧
      scope.enclosing = .lambda (lambda [skip, skip]) ∧
      walk.PausesIn entered 1 invocation.site scope body rewritten) ∧
    ∃ (name : String) (invocation : Invocation) (levels : List Level) (walked : Walked)
        (stopped : Progress (Recording Unit)),
      ((walk.walk 3 scope 0 body.span body.statements 0 body.statements.length).runFrom
        (start.recorded [])).2.invocations[1]? = some (name, invocation) ∧
      invocation.site.block = .of [.nothing, skip] ∧
      ExpandM.ComesTo (fun fuel => (walk.pausedAt 1).walk fuel scope 0 body.span body.statements 0
        body.statements.length) (start.recorded []) (.ok (.proceed walked), stopped) ∧
      (⟨walked.statements, body.span⟩ : Block) =
        levels.foldl (fun body level => level.plug body) invocation.site.block ∧
      ((∀ level ∈ levels, level.lambda? = none) →
        invocation.site.enclosing = .lambda (lambda [skip, skip])) := by
  intro expander skip lambda run now tree walk start scope body
  constructor
  · have hsees : ((expander.expandWithin 4 tree
        skipWorkspace.recorded).2.session.host.invocations[1]?).map (fun entry =>
          (entry.2.site.block, entry.2.site.enclosing, entry.2.site.function)) =
        some (.of [.nothing, skip], .lambda (lambda [skip, skip]), some now) := by
      cbv
    obtain ⟨⟨name, invocation⟩, hinvoked, hsite⟩ := Option.map_eq_some_iff.mp hsees
    simp only [Prod.mk.injEq] at hsite
    obtain ⟨hblock, henclosing, hfunction⟩ := hsite
    obtain ⟨items, member, levels, hstand, hbody, -, -, -, hmember, hnearest⟩ :=
      (nearest_member_is_seen expander tree).1 4 1 skipWorkspace name invocation hinvoked
    have howner : member = .function now := by
      rw [hfunction] at hmember
      cases member <;> cases hmember
      rfl
    rcases hnearest with ⟨-, hshown, -⟩ | ⟨-, -, -, shown, rewritten, -, -, -, -, hshown, -, -, around,
      entered, haround, -, hpauses, -⟩
    · -- the member is the function, which is not what is shown
      rw [henclosing, howner] at hshown
      cases hshown
    · obtain rfl := Enclosing.lambda.inj (hshown.symm.trans henclosing)
      rw [howner] at hbody
      exact ⟨name, invocation, items, levels, around, entered, rewritten, hinvoked, hblock, henclosing,
        hstand, hbody, haround, hpauses⟩
  · have hsees : (((walk.walk 3 scope 0 body.span body.statements 0 body.statements.length).runFrom
        (start.recorded [])).2.invocations[1]?).map (·.2.site.block) =
          some (.of [.nothing, skip]) := by
      cbv
    obtain ⟨⟨name, invocation⟩, hinvoked, hblock⟩ := Option.map_eq_some_iff.mp hsees
    obtain ⟨levels, walked, stopped, ⟨-, hcomes⟩, hbody, -, hshown⟩ :=
      (nearest_member_is_seen expander tree).2 3 0 1 scope (lambda [skip, skip]) start [] name
        invocation rfl (Nat.zero_le 1) hinvoked
    exact ⟨name, invocation, levels, walked, stopped, hinvoked, hblock, hcomes, hbody, hshown⟩

end MacroExpansion
