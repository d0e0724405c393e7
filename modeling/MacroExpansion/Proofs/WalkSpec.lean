import MacroExpansion.Proofs.CallOutcome
import MacroExpansion.Proofs.Nested

/-! # Specifications of walks

`WalkSpec` says what is to be shown of a walk: what holds between its steps, how it may stop, what
holds of a statement before it is walked, and which functions may come in place of another one.
`FileWalk.Obeys` lists what the single steps owe to such a specification, and `FileWalk.walk_meets`
and `Expander.expandBy_keeps` conclude what holds of walks and of whole files. The induction over
statements, slots and inserted runs is made here once. -/

namespace MacroExpansion

variable {σ : Type}

/-- What is to be shown of the walks of a file. -/
structure WalkSpec (σ : Type) where
  /-- What holds between any two steps. -/
  inv : Progress σ → Prop
  /-- The ways in which a walk may stop. -/
  stops : Stop → Prop
  /-- What holds of a statement that is behind so many inserted runs and may still take `allowed`
  expansions. -/
  pending : (scope : Scope) → (depth allowed : Nat) → Stmt → Prop
  /-- The functions that may come in place of the one around. -/
  replaces : Scope → FunctionDecl → Prop

/-- A flow puts nothing but certain functions in place of the one that is walked. -/
def Flow.Replaces {α : Type} (P : FunctionDecl → Prop) (flow : Flow α) : Prop :=
  ∀ decl, flow = .replaceFunction decl → P decl

namespace Flow

variable {α β : Type} {P : FunctionDecl → Prop}

/-- A part that goes on replaces nothing. -/
@[simp] theorem replaces_proceed {value : α} : (Flow.proceed value).Replaces P :=
  fun _ h => nomatch h

/-- What is asked of a replacement is asked of the function that replaces. -/
@[simp] theorem replaces_replaceFunction {decl : FunctionDecl} :
    (Flow.replaceFunction decl : Flow α).Replaces P ↔ P decl :=
  ⟨fun h => h decl rfl, fun h _ he => Flow.replaceFunction.inj he ▸ h⟩

/-- What follows a part may replace the function as the part does. -/
theorem keeps_replaces_followedBy {inv : Progress σ → Prop} {stops : Stop → Prop}
    {program : ExpandM σ (Flow α)} {next : α → ExpandM σ (Flow β)}
    (h : program.Keeps inv stops (Replaces P))
    (hnext : ∀ value, (next value).Keeps inv stops (Replaces P)) :
    (program >>= (·.followedBy next)).Keeps inv stops (Replaces P) := by
  refine h.bind fun flow hflow => ?_
  cases flow with
  | proceed value => exact hnext value
  | replaceFunction decl => exact .pure (replaces_replaceFunction.mpr (hflow decl rfl))

end Flow

/-- Every part of a sequence whose statements are as specified is walked as specified. -/
def SequenceWalk.Meets (spec : WalkSpec σ) (limit : Nat) (walk : SequenceWalk σ) : Prop :=
  ∀ scope depth span statements start stop, stop ≤ statements.length →
    (∀ stmt ∈ (statements.take stop).drop start, spec.pending scope depth limit stmt) →
    (walk scope depth span statements start stop).Keeps spec.inv spec.stops
      (Flow.Replaces (spec.replaces scope))

namespace FileWalk

/-- The output of a call is as specified where it is placed. -/
def Places (walk : FileWalk σ) (spec : WalkSpec σ) (cursor : Cursor) (call : Call) (allowed : Nat) :
    Placement → Prop
  | .empty => spec.pending cursor.scope cursor.depth allowed (.empty cursor.stmt.span)
  | .inPlace expr =>
      match cursor.stmt.replaceCall? call expr with
      | some stmt => spec.pending cursor.scope cursor.depth allowed stmt
      | none => spec.stops (.error (walk.fault (.callVanished call.callee) call.span))
  | .statement stmt => spec.pending cursor.scope cursor.depth allowed stmt
  | .function decl => spec.replaces cursor.scope decl
  | .splice run => ∀ stmt ∈ run,
      spec.pending cursor.scope (cursor.depth + 1) walk.expander.config.maxDepth stmt

/-- A call that was found is expanded as specified, or the limit ends the walk as specified. -/
structure Expands (walk : FileWalk σ) (spec : WalkSpec σ) (cursor : Cursor) (bound : BoundCall)
    (allowed : Nat) : Prop where
  /-- The limit may end the walk where it does. -/
  limit (h : allowed = 0 ∨ walk.expander.config.maxDepth < cursor.depth) :
    spec.stops (.error (walk.fault
      (.depthLimit bound.site.call.callee walk.expander.config.maxDepth) bound.site.call.span))
  /-- The expansion of the call is as specified. -/
  expand {fewer : Nat} (h : allowed = fewer + 1) :
    (ExpandM.located bound.site.call.span walk.file.source
      (walk.expander.expandCall walk.file.source bound)).Keeps spec.inv spec.stops
        (walk.Places spec cursor bound.site.call fewer)

/-- The single steps of a walk do what is specified. -/
structure Obeys (walk : FileWalk σ) (spec : WalkSpec σ) : Prop where
  /-- A walk may run out of walks within each other. -/
  exhausted : spec.stops .exhausted
  /-- What is done before a statement. -/
  poll (cursor : Cursor) : (walk.poll cursor).Keeps spec.inv spec.stops fun _ => True
  /-- Every call that is found can be expanded. -/
  next {cursor : Cursor} {allowed : Nat}
    (h : spec.pending cursor.scope cursor.depth allowed cursor.stmt) :
    (walk.next cursor.stmt (cursor.site walk.file.path)).Keeps spec.inv spec.stops fun next =>
      ∀ bound, next = some bound → walk.Expands spec cursor bound allowed
  /-- What is nested in a statement is specified as the statement is. -/
  nested {cursor inner : Cursor} {allowed : Nat} {slot : Slot} {content : Block}
    (h : spec.pending cursor.scope cursor.depth allowed cursor.stmt)
    (hcontent : slot.content? cursor.stmt = some content) (hscope : inner.scope = cursor.scope)
    (hdepth : inner.depth = cursor.depth) : ∀ stmt ∈ content.statements,
      spec.pending (inner.inside slot) inner.depth walk.expander.config.maxDepth stmt
  /-- A function that is replaced from within a statement is replaced around it. -/
  outward {cursor : Cursor} {slot : Slot} {decl : FunctionDecl}
    (h : spec.replaces (cursor.inside slot) decl) : spec.replaces cursor.scope decl
  /-- A function that comes in place of another one is itself as specified. -/
  replaced {decl decl' : FunctionDecl} (h : spec.replaces (.ofFunction decl) decl') :
    ∀ stmt ∈ decl'.body.statements,
      spec.pending (.ofFunction decl') 0 walk.expander.config.maxDepth stmt
  /-- The number of replacements may end the expansion. -/
  replacedOften {decl decl' : FunctionDecl} (h : spec.replaces (.ofFunction decl) decl') :
    spec.stops (.error
      (walk.fault (.replacementLimit decl.name walk.expander.config.maxDepth) decl.span))
  /-- Outside of functions a replacement may end the expansion. -/
  escaped {scope : Scope} {decl : FunctionDecl} (hscope : scope.function = none)
    (h : spec.replaces scope decl) (span : Span) :
    spec.stops (.error (walk.fault (.functionEscaped decl.name) span))

variable {walk : FileWalk σ} {spec : WalkSpec σ} {walkInner walkAll : SequenceWalk σ}

/-- The search for the next call ends by an error of a call, or it finds an own call of the statement
that is bound at its place. -/
theorem keeps_next_bound {expander : Expander} {file : FileOrigin} {inv : Progress σ → Prop}
    {stops : Stop → Prop} {cursor : Cursor} {P : BoundCall → Prop}
    (herror : ∀ error, error.IsOfCall file.source → stops (.error error))
    (hbound : ∀ call ∈ cursor.stmt.ownCalls, ∀ symbol bound,
      expander.rules.candidate? call = some symbol →
      expander.rules.bind symbol (cursor.site file.path call) file.source = .ok (some bound) →
      P bound) :
    (ExpandM.require (expander.firstBound? file.source (cursor.site file.path)
      cursor.stmt.ownCalls) : ExpandM σ _).Keeps inv stops fun next =>
        ∀ bound, next = some bound → P bound := by
  cases hfirst : expander.firstBound? file.source (cursor.site file.path) cursor.stmt.ownCalls with
  | error error => exact .throw (herror error (Expander.isOfCall_of_firstBound? hfirst))
  | ok next =>
    refine .pure fun bound hnext => ?_
    obtain ⟨call, hcall, symbol, hsymbol, hbind⟩ := Expander.firstBound?_some (hnext ▸ hfirst)
    exact hbound call hcall symbol bound hsymbol hbind

/-! ## Sequences -/

/-- What is nested in a statement is walked as specified. -/
theorem walkSlots_meets (hwalk : walk.Obeys spec)
    (hinner : walkInner.Meets spec walk.expander.config.maxDepth) {slots : List Slot}
    (hslots : slots.Nodup) {cursor : Cursor} (h : ∀ slot ∈ slots, ∀ content,
      slot.content? cursor.stmt = some content → ∀ inner : Cursor, inner.scope = cursor.scope →
        inner.depth = cursor.depth → ∀ stmt ∈ content.statements,
          spec.pending (inner.inside slot) inner.depth walk.expander.config.maxDepth stmt)
    (hindex : cursor.index < cursor.statements.length) :
    (walkSlots walkInner cursor slots).Keeps spec.inv spec.stops
      (Flow.Replaces (spec.replaces cursor.scope)) := by
  induction slots generalizing cursor with
  | nil => exact .pure Flow.replaces_proceed
  | cons slot rest ih =>
    obtain ⟨hslot, hrest⟩ := List.nodup_cons.mp hslots
    unfold walkSlots
    cases hcontent : slot.content? cursor.stmt with
    | none => exact ih hrest (fun other hother => h other (List.mem_cons_of_mem slot hother)) hindex
    | some content =>
      have hnested : ∀ stmt ∈ (content.statements.take content.statements.length).drop 0,
          spec.pending (cursor.inside slot) cursor.depth walk.expander.config.maxDepth stmt := by
        rw [List.take_length, List.drop_zero]
        exact h slot List.mem_cons_self content hcontent cursor rfl rfl
      have hwalked := hinner (cursor.inside slot) cursor.depth content.span content.statements 0 _
        (Nat.le_refl _) hnested
      refine Flow.keeps_replaces_followedBy (hwalked.mono ?_) fun walked => ?_
      · exact fun flow hflow decl hdecl => hwalk.outward (hflow decl hdecl)
      · refine ih hrest (fun other hother held hheld => ?_) ?_
        · -- the other slots hold what they held before this one was filled
          have hne : other ≠ slot := fun he => hslot (he ▸ hother)
          rw [Cursor.stmt_withStmt _ _ hindex, Slot.content?_fill_of_ne hne] at hheld
          exact h other (List.mem_cons_of_mem slot hother) held hheld
        · rw [Cursor.length_withStmt]
          exact hindex

/-- A run is walked as specified. -/
theorem spliceRun_meets (hinner : walkInner.Meets spec walk.expander.config.maxDepth)
    (cursor : Cursor) (captured : Nat) {run : List Stmt}
    (hrun : ∀ stmt ∈ run,
      spec.pending cursor.scope (cursor.depth + 1) walk.expander.config.maxDepth stmt) :
    (spliceRun walkInner cursor captured run).Keeps spec.inv spec.stops
      (Flow.Replaces (spec.replaces cursor.scope)) := by
  unfold spliceRun
  refine Flow.keeps_replaces_followedBy (hinner _ _ _ _ _ _ ?_ ?_) fun walked =>
    .pure Flow.replaces_proceed
  · simp only [List.length_append]
    omega
  · intro stmt hstmt
    -- the walked part is the run
    rw [← List.length_append, List.take_left, List.drop_left] at hstmt
    exact hrun stmt hstmt

/-- A statement is settled as specified. -/
theorem settle_meets (hwalk : walk.Obeys spec)
    (hinner : walkInner.Meets spec walk.expander.config.maxDepth) {allowed : Nat} {cursor : Cursor}
    (hindex : cursor.index < cursor.statements.length)
    (h : spec.pending cursor.scope cursor.depth allowed cursor.stmt) :
    (walk.settle walkInner allowed cursor).Keeps spec.inv spec.stops
      (Flow.Replaces (spec.replaces cursor.scope)) := by
  induction allowed generalizing cursor with
  | zero =>
    unfold settle
    refine (hwalk.next h).bind fun next hnext => ?_
    cases next with
    | none =>
      refine Flow.keeps_replaces_followedBy ?_ fun stmt => .pure Flow.replaces_proceed
      exact walkSlots_meets hwalk hinner (Slot.nodup_all _) (fun slot _ content hcontent inner =>
        hwalk.nested h hcontent) hindex
    | some bound => exact .throw ((hnext bound rfl).limit (.inl rfl))
  | succ allowed ih =>
    -- whatever stands for the statement now is settled with one expansion less
    have hsettle {stmt : Stmt} (hstmt : spec.pending cursor.scope cursor.depth allowed stmt) :
        (walk.settle walkInner allowed (cursor.withStmt stmt)).Keeps spec.inv spec.stops
          (Flow.Replaces (spec.replaces cursor.scope)) := by
      refine ih ?_ ?_
      · rw [Cursor.length_withStmt]
        exact hindex
      · rw [Cursor.stmt_withStmt _ _ hindex]
        exact hstmt
    unfold settle
    refine (hwalk.next h).bind fun next hnext => ?_
    cases next with
    | none =>
      refine Flow.keeps_replaces_followedBy ?_ fun stmt => .pure Flow.replaces_proceed
      exact walkSlots_meets hwalk hinner (Slot.nodup_all _) (fun slot _ content hcontent inner =>
        hwalk.nested h hcontent) hindex
    | some bound =>
      have hbound := hnext bound rfl
      by_cases hdepth : cursor.depth ≤ walk.expander.config.maxDepth
      · simp only [hdepth, decide_true]
        refine (hbound.expand rfl).bind fun placement hplaced => ?_
        cases placement with
        | empty => exact hsettle hplaced
        | statement stmt => exact hsettle hplaced
        | function decl => exact .pure (Flow.replaces_replaceFunction.mpr hplaced)
        | splice run => exact spliceRun_meets hinner cursor bound.captured hplaced
        | inPlace expr =>
          dsimp only [Places] at hplaced ⊢
          cases hreplaced : cursor.stmt.replaceCall? bound.site.call expr with
          | none =>
            rw [hreplaced] at hplaced
            exact .throw hplaced
          | some stmt =>
            rw [hreplaced] at hplaced
            exact hsettle hplaced
      · simp only [hdepth, decide_false]
        exact .throw (hbound.limit (.inr (Nat.lt_of_not_le hdepth)))

/-- The statements from a cursor to a position are walked as specified. -/
theorem walkFrom_meets (hwalk : walk.Obeys spec)
    (hinner : walkInner.Meets spec walk.expander.config.maxDepth) {stop steps : Nat} {cursor : Cursor}
    (hstop : stop ≤ cursor.statements.length)
    (h : ∀ stmt ∈ (cursor.statements.take stop).drop cursor.index,
      spec.pending cursor.scope cursor.depth walk.expander.config.maxDepth stmt) :
    (walk.walkFrom walkInner stop steps cursor).Keeps spec.inv spec.stops
      (Flow.Replaces (spec.replaces cursor.scope)) := by
  induction steps generalizing cursor with
  | zero => exact .pure Flow.replaces_proceed
  | succ steps ih =>
    unfold walkFrom
    by_cases hindex : cursor.index < stop
    · rw [if_pos hindex]
      have hlength : cursor.index < cursor.statements.length := Nat.lt_of_lt_of_le hindex hstop
      have hpending : spec.pending cursor.scope cursor.depth walk.expander.config.maxDepth
          cursor.stmt := by
        refine h cursor.stmt (List.mem_drop_iff_getElem.mpr ⟨0, ?_, ?_⟩)
        · rw [List.length_take]
          omega
        · simp [Cursor.stmt, hlength]
      refine (hwalk.poll cursor).bind fun _ _ => ?_
      refine Flow.keeps_replaces_followedBy (settle_meets hwalk hinner hlength hpending)
        fun settled => ?_
      -- behind a settled statement stands what stood there before
      cases settled with
      | kept stmt =>
        refine ih ?_ ?_
        · exact Nat.le_trans hstop (Nat.le_of_eq List.length_set.symm)
        · intro later hlater
          refine h later ?_
          simp only [Cursor.after, Cursor.next, Cursor.withStmt, List.take_set] at hlater
          rw [List.drop_set_of_lt (Nat.lt_succ_self _)] at hlater
          exact List.drop_subset_drop_left _ (Nat.le_succ _) hlater
      | spliced deleted run =>
        refine ih hstop fun later hlater => ?_
        exact h later (List.drop_subset_drop_left _ (Nat.le_add_right _ deleted) hlater)
    · rw [if_neg hindex]
      exact .pure Flow.replaces_proceed

/-- A walk with steps as specified is as specified. -/
theorem walk_meets (hwalk : walk.Obeys spec) (nesting : Nat) :
    (walk.walk nesting).Meets spec walk.expander.config.maxDepth := by
  induction nesting with
  | zero => exact fun _ _ _ _ _ _ _ _ => .throw hwalk.exhausted
  | succ nesting ih =>
    intro scope depth span statements start stop hstop hpending
    exact walkFrom_meets hwalk ih hstop hpending

/-! ## Files -/

/-- A block of pending statements is walked as specified. -/
theorem walkBlock_meets (hwalkAll : walkAll.Meets spec walk.expander.config.maxDepth) {scope : Scope}
    {block : Block} (h : ∀ stmt ∈ block.statements,
      spec.pending scope 0 walk.expander.config.maxDepth stmt) :
    (walkBlock walkAll scope block).Keeps spec.inv spec.stops
      (Flow.Replaces (spec.replaces scope)) := by
  refine Flow.keeps_replaces_followedBy (hwalkAll _ _ _ _ _ _ (Nat.le_refl _) ?_) fun walked =>
    .pure Flow.replaces_proceed
  rw [List.take_length, List.drop_zero]
  exact h

/-- A function with pending statements is expanded as specified, replacements included. -/
theorem expandFunction_meets (hwalk : walk.Obeys spec)
    (hwalkAll : walkAll.Meets spec walk.expander.config.maxDepth) {allowed : Nat}
    {decl : FunctionDecl} (h : ∀ stmt ∈ decl.body.statements,
      spec.pending (.ofFunction decl) 0 walk.expander.config.maxDepth stmt) :
    (walk.expandFunction walkAll allowed decl).Keeps spec.inv spec.stops fun _ => True := by
  induction allowed generalizing decl with
  | zero =>
    unfold expandFunction
    refine (walkBlock_meets hwalkAll h).bind fun flow hflow => ?_
    cases flow with
    | proceed body => exact .pure True.intro
    | replaceFunction decl' => exact .throw (hwalk.replacedOften (hflow decl' rfl))
  | succ allowed ih =>
    unfold expandFunction
    refine (walkBlock_meets hwalkAll h).bind fun flow hflow => ?_
    cases flow with
    | proceed body => exact .pure True.intro
    | replaceFunction decl' => exact ih (hwalk.replaced (hflow decl' rfl))

/-- A block of pending statements outside of functions is walked as specified. -/
theorem expandLoose_meets (hwalk : walk.Obeys spec)
    (hwalkAll : walkAll.Meets spec walk.expander.config.maxDepth) {scope : Scope}
    (hscope : scope.function = none) {block : Block} (h : ∀ stmt ∈ block.statements,
      spec.pending scope 0 walk.expander.config.maxDepth stmt) (span : Span) :
    (walk.expandLoose walkAll scope block span).Keeps spec.inv spec.stops fun _ => True := by
  unfold expandLoose
  refine (walkBlock_meets hwalkAll h).bind fun flow hflow => ?_
  cases flow with
  | proceed body => exact .pure True.intro
  | replaceFunction decl => exact .throw (hwalk.escaped hscope (hflow decl rfl) span)

end FileWalk

/-- Every statement right in a body of the member is as specified for its scope. -/
def Member.AllStmts (P : Scope → Stmt → Prop) : Member → Prop
  | .function decl => ∀ stmt ∈ decl.body.statements, P (.ofFunction decl) stmt
  | .property decl => ∀ accessor ∈ decl.accessors, ∀ stmt ∈ accessor.body.statements,
      P (.ofAccessor decl.name accessor.kind) stmt

/-- Every statement right in a body of the item is as specified for its scope. -/
def Item.AllStmts (P : Scope → Stmt → Prop) : Item → Prop
  | .function decl => ∀ stmt ∈ decl.body.statements, P (.ofFunction decl) stmt
  | .typeDecl decl => ∀ member ∈ decl.members, member.AllStmts P
  | .statements block => ∀ stmt ∈ block.statements, P .script stmt

namespace FileWalk

variable {walk : FileWalk σ} {spec : WalkSpec σ} {walkAll : SequenceWalk σ}

/-- A member with pending statements is expanded as specified. -/
theorem expandMember_meets (hwalk : walk.Obeys spec)
    (hwalkAll : walkAll.Meets spec walk.expander.config.maxDepth) {member : Member}
    (h : member.AllStmts fun scope => spec.pending scope 0 walk.expander.config.maxDepth) :
    (walk.expandMember walkAll member).Keeps spec.inv spec.stops fun _ => True := by
  cases member with
  | function decl =>
    exact (expandFunction_meets hwalk hwalkAll h).bind fun _ _ => .pure True.intro
  | property decl =>
    have haccessors : (walk.expandProperty walkAll decl).Keeps spec.inv spec.stops fun _ => True := by
      refine .bind (.mapM_mem fun accessor haccessor => ?_) fun _ _ => .pure True.intro
      exact (expandLoose_meets hwalk hwalkAll rfl (h accessor haccessor) _).bind fun _ _ =>
        .pure True.intro
    exact haccessors.bind fun _ _ => .pure True.intro

/-- An item with statements as specified is expanded as specified. -/
theorem expandItem_meets (hwalk : walk.Obeys spec)
    (hwalkAll : walkAll.Meets spec walk.expander.config.maxDepth) {item : Item}
    (h : item.AllStmts fun scope => spec.pending scope 0 walk.expander.config.maxDepth) :
    (walk.expandItem walkAll item).Keeps spec.inv spec.stops fun _ => True := by
  cases item with
  | function decl =>
    exact (expandFunction_meets hwalk hwalkAll h).bind fun _ _ => .pure True.intro
  | typeDecl decl =>
    exact .bind (.mapM_mem fun member hmember => expandMember_meets hwalk hwalkAll
      (h member hmember)) fun _ _ => .pure True.intro
  | statements block =>
    exact (expandLoose_meets hwalk hwalkAll rfl h _).bind fun _ _ => .pure True.intro

end FileWalk

/-- Where nothing is asked of statements, every item has such statements. -/
theorem Item.allStmts_trivial (item : Item) : item.AllStmts fun _ _ => True := by
  cases item with
  | function decl => exact fun _ _ => True.intro
  | statements block => exact fun _ _ => True.intro
  | typeDecl decl =>
    intro member _
    cases member with
    | function decl => exact fun _ _ => True.intro
    | property decl => exact fun _ _ _ _ => True.intro

/-- What holds of all statements of a member implies what follows from it for all of them. -/
theorem Member.AllStmts.mono {P Q : Scope → Stmt → Prop} {member : Member} (h : member.AllStmts P)
    (hQ : ∀ scope stmt, P scope stmt → Q scope stmt) : member.AllStmts Q := by
  cases member with
  | function decl => exact fun stmt hstmt => hQ _ stmt (h stmt hstmt)
  | property decl =>
    exact fun accessor haccessor stmt hstmt => hQ _ stmt (h accessor haccessor stmt hstmt)

/-- What is known of all statements of an item may be weakened. -/
theorem Item.AllStmts.mono {P Q : Scope → Stmt → Prop} {item : Item} (h : item.AllStmts P)
    (hQ : ∀ scope stmt, P scope stmt → Q scope stmt) : item.AllStmts Q := by
  cases item with
  | function decl => exact fun stmt hstmt => hQ _ stmt (h stmt hstmt)
  | typeDecl decl => exact fun member hmember => (h member hmember).mono hQ
  | statements block => exact fun stmt hstmt => hQ _ stmt (h stmt hstmt)

/-- A file with statements as specified is expanded as specified. -/
theorem Expander.itemsProgram_keeps {expander : Expander} (tree : SyntaxTree) {spec : WalkSpec σ}
    (hwalk : FileWalk.Obeys
      { expander, file := { path := tree.path, text := tree.source } } spec) (nesting : Nat)
    (h : ∀ item ∈ tree.items, item.AllStmts fun scope =>
      spec.pending scope 0 expander.config.maxDepth) :
    (itemsProgram (·.walk nesting) expander tree).Keeps spec.inv spec.stops fun _ => True :=
  .mapM_mem fun item hitem => FileWalk.expandItem_meets hwalk (FileWalk.walk_meets hwalk nesting)
    (h item hitem)

end MacroExpansion
