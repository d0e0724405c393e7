import MacroExpansion.Proofs.WalkAgrees

/-! # Two walks side by side

Two walks go through a file together, on two hosts and perhaps with different settings. They part only
where the host is asked whether to go on, and where the next call of a statement is looked for,
expanded and placed (`FileWalk.attend`). A relation between programs that relates these steps relates
whole expansions, as long as related parts make up related programs. The recursion over statements,
slots and inserted runs is gone through here once for all such relations. -/

namespace MacroExpansion

variable {σ τ : Type}

/-- A relation between programs on two hosts. Related parts make up related programs. -/
structure WalkRelation (σ τ : Type) where
  /-- The programs are related. -/
  Rel {α : Type} : ExpandM σ α → ExpandM τ α → Prop
  /-- Values are related to themselves. -/
  pure {α : Type} (value : α) : Rel (Pure.pure value) (Pure.pure value)
  /-- One part follows another. -/
  bind {α β : Type} {first : ExpandM σ α} {first' : ExpandM τ α} {next : α → ExpandM σ β}
    {next' : α → ExpandM τ β} (h : Rel first first')
    (hnext : ∀ value, Rel (next value) (next' value)) : Rel (first >>= next) (first' >>= next')

/-! ## Attending to a statement -/

namespace FileWalk

/-- Looks for the next call of a statement. A statement without one is settled; a call is expanded and
placed, or it is an error if a limit is reached. -/
def attend {α : Type} (walk : FileWalk σ) (stmt : Stmt) (site : Call → Site) (limited : Bool)
    (settled : ExpandM σ α) (place : BoundCall → Placement → ExpandM σ α) : ExpandM σ α := do
  match ← walk.next stmt site with
  | none => settled
  | some bound =>
      let limit := walk.expander.config.maxDepth
      let call := bound.site.call
      if limited then ExpandM.fail (walk.fault (.depthLimit call.callee limit) call.span)
      else
        let placement ←
          ExpandM.located call.span walk.file.source
            (walk.expander.expandCall walk.file.source bound)
        place bound placement

/-- An expansion attends to the first call that has to be expanded, whatever is done before a
statement. -/
theorem attend_expansion {α : Type} (expander : Expander) (file : FileOrigin)
    (poll : Cursor → ExpandM σ Unit) (stmt : Stmt) (site : Call → Site) (limited : Bool)
    (settled : ExpandM σ α) (place : BoundCall → Placement → ExpandM σ α) :
    attend { expander, file, poll } stmt site limited settled place =
      match expander.firstBound? file.source site stmt.ownCalls with
      | .error error => ExpandM.fail error
      | .ok none => settled
      | .ok (some bound) =>
          if limited then
            ExpandM.fail (.atSpan (.depthLimit bound.site.call.callee expander.config.maxDepth)
              bound.site.call.span file.source)
          else
            ExpandM.located bound.site.call.span file.source
              (expander.expandCall file.source bound) >>= place bound := by
  unfold attend
  dsimp only
  cases expander.firstBound? file.source site stmt.ownCalls with
  | error error => rfl
  | ok next => cases next <;> rfl

/-- A statement that may take no more expansions is attended to at its limit, where nothing is
placed. -/
theorem settleSplit_zero (walk : FileWalk σ) (walkRun : SplitWalk σ) (walkNested : SequenceWalk σ)
    (setting : Setting) (done rest : List Stmt) (stmt : Stmt)
    (place : BoundCall → Placement → ExpandM σ (Flow Split)) :
    walk.settleSplit walkRun walkNested setting 0 ⟨done, stmt :: rest⟩ =
      walk.attend stmt ((setting.cursor ⟨done, stmt :: rest⟩).site walk.file.path) true
        (walkSlots walkNested (setting.cursor ⟨done, stmt :: rest⟩) (Slot.all stmt) >>=
          (·.followedBy fun stmt => pure (.proceed (Split.mk (done ++ [stmt]) rest)))) place := by
  unfold settleSplit attend
  simp only [Setting.stmt_cursor]
  refine congrArg (_ >>= ·) (funext fun next => ?_)
  cases next <;> rfl

/-- A statement that may take more expansions is attended to, and settled again once the output of a
call was placed. -/
theorem settleSplit_succ (walk : FileWalk σ) (walkRun : SplitWalk σ) (walkNested : SequenceWalk σ)
    (setting : Setting) (allowed : Nat) (done rest : List Stmt) (stmt : Stmt) :
    walk.settleSplit walkRun walkNested setting (allowed + 1) ⟨done, stmt :: rest⟩ =
      walk.attend stmt ((setting.cursor ⟨done, stmt :: rest⟩).site walk.file.path)
        (!decide (setting.depth ≤ walk.expander.config.maxDepth))
        (walkSlots walkNested (setting.cursor ⟨done, stmt :: rest⟩) (Slot.all stmt) >>=
          (·.followedBy fun stmt => pure (.proceed (Split.mk (done ++ [stmt]) rest))))
        (walk.placeSplit walkRun (walk.settleSplit walkRun walkNested setting allowed) setting
          ⟨done, stmt :: rest⟩) := by
  rw [settleSplit]
  unfold attend
  simp only [Setting.stmt_cursor]
  refine congrArg (_ >>= ·) (funext fun next => ?_)
  cases next with
  | none => rfl
  | some bound => cases decide (setting.depth ≤ walk.expander.config.maxDepth) <;> rfl

end FileWalk

namespace WalkRelation

variable {relation : WalkRelation σ τ} {α β : Type}

/-- Parts that are followed are related when they and what follows them are. -/
theorem followedBy {first : ExpandM σ (Flow α)} {first' : ExpandM τ (Flow α)}
    {next : α → ExpandM σ (Flow β)} {next' : α → ExpandM τ (Flow β)} (h : relation.Rel first first')
    (hnext : ∀ value, relation.Rel (next value) (next' value)) :
    relation.Rel (first >>= (·.followedBy next)) (first' >>= (·.followedBy next')) := by
  refine relation.bind h fun flow => ?_
  cases flow with
  | proceed value => exact hnext value
  | replaceFunction decl => exact relation.pure _

/-- Lists are gone through alike when their members are. -/
theorem mapM {next : α → ExpandM σ β} {next' : α → ExpandM τ β}
    (h : ∀ value, relation.Rel (next value) (next' value)) (values : List α) :
    relation.Rel (values.mapM next) (values.mapM next') := by
  induction values with
  | nil => exact relation.pure []
  | cons value rest ih =>
    rw [List.mapM_cons, List.mapM_cons]
    exact relation.bind (h value) fun _ => relation.bind ih fun _ => relation.pure _

/-- Two walks are bounded and fail alike. -/
structure FailsAlike (relation : WalkRelation σ τ) (walk : FileWalk σ) (walk' : FileWalk τ) :
    Prop where
  /-- Both stop at the same limit. -/
  maxDepth : walk'.expander.config.maxDepth = walk.expander.config.maxDepth
  /-- Both report the errors of the walk. -/
  fault {α : Type} (fault : Fault) (span : Span) :
    relation.Rel (ExpandM.fail (walk.fault fault span) : ExpandM σ α)
      (ExpandM.fail (walk'.fault fault span))

/-- The steps of two walks are related. -/
structure Covers (relation : WalkRelation σ τ) (walk : FileWalk σ) (walk' : FileWalk τ) : Prop
    extends relation.FailsAlike walk walk' where
  /-- Both walk a file of the same path. -/
  path : walk'.file.path = walk.file.path
  /-- Both may run out of nested walks. -/
  exhausted {α : Type} : relation.Rel (throw .exhausted : ExpandM σ α) (throw .exhausted)
  /-- Both hosts are asked whether to go on. -/
  poll (cursor : Cursor) : relation.Rel (walk.poll cursor) (walk'.poll cursor)
  /-- Both attend to the next statement of a sequence. -/
  attend {α : Type} {setting : Setting} {done rest : List Stmt} {stmt : Stmt} {limited : Bool}
    {settled : ExpandM σ α} {settled' : ExpandM τ α} {place : BoundCall → Placement → ExpandM σ α}
    {place' : BoundCall → Placement → ExpandM τ α} (hsettled : relation.Rel settled settled')
    (hplace : ∀ bound placement, relation.Rel (place bound placement) (place' bound placement)) :
    relation.Rel
      (walk.attend stmt ((setting.cursor ⟨done, stmt :: rest⟩).site walk.file.path) limited settled
        place)
      (walk'.attend stmt ((setting.cursor ⟨done, stmt :: rest⟩).site walk.file.path) limited settled'
        place')

/-- The steps of two expansions are related when both find the same calls, or errors that are related
as early ends, and expand them alike. -/
theorem covers_of_expansions {expander expander' : Expander}
    {file file' : FileOrigin} (hpath : file'.path = file.path)
    (hdepth : expander'.config.maxDepth = expander.config.maxDepth)
    (hexhausted : ∀ {α : Type}, relation.Rel (throw .exhausted : ExpandM σ α) (throw .exhausted))
    (hfault : ∀ {α : Type} (fault : Fault) (span : Span),
      relation.Rel (ExpandM.fail (.atSpan fault span file.source) : ExpandM σ α)
        (ExpandM.fail (.atSpan fault span file'.source)))
    (hpoll : relation.Rel ExpandM.checkCancelled ExpandM.checkCancelled)
    (hnext : ∀ site calls, match expander.firstBound? file.source site calls with
      | .ok next => expander'.firstBound? file'.source site calls = .ok next
      | .error error => ∃ error', expander'.firstBound? file'.source site calls = .error error' ∧
          ∀ {α : Type}, relation.Rel (ExpandM.fail error : ExpandM σ α) (ExpandM.fail error'))
    (hcall : ∀ {setting done rest stmt bound},
      expander.firstBound? file.source ((Setting.cursor setting ⟨done, stmt :: rest⟩).site file.path)
        stmt.ownCalls = .ok (some bound) →
      relation.Rel
        (ExpandM.located bound.site.call.span file.source (expander.expandCall file.source bound))
        (ExpandM.located bound.site.call.span file'.source
          (expander'.expandCall file'.source bound))) :
    relation.Covers { expander, file } { expander := expander', file := file' } where
  path := hpath
  maxDepth := hdepth
  exhausted := hexhausted
  fault := hfault
  poll _ := hpoll
  attend {_ setting done rest stmt limited _ _ _ _} hsettled hplace := by
    have hfound := hnext ((setting.cursor ⟨done, stmt :: rest⟩).site file.path) stmt.ownCalls
    rw [FileWalk.attend_expansion, FileWalk.attend_expansion]
    dsimp only
    cases hfirst : expander.firstBound? file.source
      ((setting.cursor ⟨done, stmt :: rest⟩).site file.path) stmt.ownCalls with
    | error error =>
      rw [hfirst] at hfound
      obtain ⟨error', hfirst', hrel⟩ := hfound
      rw [hfirst']
      exact hrel
    | ok next =>
      rw [hfirst] at hfound
      rw [show expander'.firstBound? _ _ _ = .ok next from hfound]
      cases next with
      | none => exact hsettled
      | some bound =>
        cases limited with
        | true =>
          simp only [if_true, hdepth]
          exact hfault _ _
        | false =>
          exact relation.bind (hcall hfirst) fun placement => hplace bound placement

/-- Walks of whole sequences are related. -/
def RelatesWalks (relation : WalkRelation σ τ) (walk : SequenceWalk σ) (walk' : SequenceWalk τ) :
    Prop :=
  ∀ scope depth span statements,
    relation.Rel (walk scope depth span statements 0 statements.length)
      (walk' scope depth span statements 0 statements.length)

/-- Walks of parted sequences are related. -/
def RelatesSplitWalks (relation : WalkRelation σ τ) (walk : SplitWalk σ) (walk' : SplitWalk τ) :
    Prop :=
  ∀ setting tail split, relation.Rel (walk setting tail split) (walk' setting tail split)

/-- Related walks of parted sequences are related walks of sequences. -/
theorem RelatesSplitWalks.onSequence {walk : SplitWalk σ} {walk' : SplitWalk τ}
    (h : relation.RelatesSplitWalks walk walk') :
    relation.RelatesWalks walk.onSequence walk'.onSequence :=
  fun _ _ _ _ => relation.followedBy (h _ _ _) fun _ => relation.pure _

end WalkRelation

namespace FileWalk

open WalkRelation

variable {relation : WalkRelation σ τ} {walk : FileWalk σ} {walk' : FileWalk τ}
  {walkRun : SplitWalk σ} {walkRun' : SplitWalk τ} {walkAll : SequenceWalk σ}
  {walkAll' : SequenceWalk τ} {setting : Setting}

/-! ## Sequences -/

/-- What the slots of a statement hold is walked alike side by side. -/
theorem walkSlots_sideBySide (h : relation.RelatesWalks walkAll walkAll') (cursor : Cursor)
    (slots : List Slot) :
    relation.Rel (walkSlots walkAll cursor slots) (walkSlots walkAll' cursor slots) := by
  induction slots generalizing cursor with
  | nil => exact relation.pure _
  | cons slot rest ih =>
    unfold walkSlots
    cases slot.content? cursor.stmt with
    | none => exact ih cursor
    | some content => exact relation.followedBy (h _ _ _ _) fun walked => ih _

/-- The output of a call is put in its place alike if statements are settled and runs are walked
alike. -/
theorem placeSplit_sideBySide (hcovers : relation.Covers walk walk')
    (hrun : relation.RelatesSplitWalks walkRun walkRun') {done rest : List Stmt}
    {settle : Split → ExpandM σ (Flow Split)} {settle' : Split → ExpandM τ (Flow Split)}
    (hsettle : ∀ stmt, relation.Rel (settle ⟨done, stmt :: rest⟩) (settle' ⟨done, stmt :: rest⟩))
    (stmt : Stmt) (bound : BoundCall) (placement : Placement) :
    relation.Rel
      (walk.placeSplit walkRun settle setting ⟨done, stmt :: rest⟩ bound placement)
      (walk'.placeSplit walkRun' settle' setting ⟨done, stmt :: rest⟩ bound placement) := by
  cases placement with
  | empty => exact hsettle _
  | statement stmt => exact hsettle stmt
  | function decl => exact relation.pure _
  | splice run => exact hrun _ _ _
  | inPlace expr =>
    simp only [placeSplit, Setting.stmt_cursor]
    cases stmt.replaceCall? bound.site.call expr with
    | none => exact hcovers.fault _ _
    | some stmt => exact hsettle stmt

/-- A statement is settled alike if what both walks do at it is alike. -/
theorem settleSplit_sideBySide (hcovers : relation.Covers walk walk')
    (hrun : relation.RelatesSplitWalks walkRun walkRun') {done rest : List Stmt} (allowed : Nat)
    (stmt : Stmt) :
    relation.Rel
      (walk.settleSplit walkRun walkRun.onSequence setting allowed ⟨done, stmt :: rest⟩)
      (walk'.settleSplit walkRun' walkRun'.onSequence setting allowed ⟨done, stmt :: rest⟩) := by
  -- a statement without calls is settled by walking what is nested in it
  have hslots (stmt : Stmt) :
      relation.Rel
        (walkSlots walkRun.onSequence (setting.cursor ⟨done, stmt :: rest⟩) (Slot.all stmt) >>=
          (·.followedBy fun stmt => pure (.proceed (Split.mk (done ++ [stmt]) rest))))
        (walkSlots walkRun'.onSequence (setting.cursor ⟨done, stmt :: rest⟩) (Slot.all stmt) >>=
          (·.followedBy fun stmt => pure (.proceed (Split.mk (done ++ [stmt]) rest)))) :=
    relation.followedBy (walkSlots_sideBySide hrun.onSequence _ _) fun _ => relation.pure _
  induction allowed generalizing stmt with
  | zero =>
    rw [settleSplit_zero walk _ _ _ _ _ _ fun _ _ => throw .exhausted,
      settleSplit_zero walk' _ _ _ _ _ _ fun _ _ => throw .exhausted, hcovers.path]
    exact hcovers.attend (hslots stmt) fun _ _ => hcovers.exhausted
  | succ allowed ih =>
    rw [settleSplit_succ, settleSplit_succ, hcovers.path, hcovers.maxDepth]
    exact hcovers.attend (hslots stmt) (placeSplit_sideBySide hcovers hrun ih stmt)

/-- The statements of a sequence are walked alike one after the other. -/
theorem walkSplit_sideBySide (hcovers : relation.Covers walk walk')
    (hrun : relation.RelatesSplitWalks walkRun walkRun') (tail steps : Nat) (split : Split) :
    relation.Rel (walk.walkSplit walkRun walkRun.onSequence setting tail steps split)
      (walk'.walkSplit walkRun' walkRun'.onSequence setting tail steps split) := by
  induction steps generalizing split with
  | zero => exact relation.pure _
  | succ steps ih =>
    unfold walkSplit
    rw [hcovers.maxDepth]
    split
    · obtain ⟨done, todo⟩ := split
      cases todo with
      | nil => exact absurd ‹tail < _› (Nat.not_lt_zero tail)
      | cons stmt rest =>
        refine relation.bind (hcovers.poll _) fun _ => ?_
        exact relation.followedBy (settleSplit_sideBySide hcovers hrun _ stmt) fun _ => ih _
    · exact relation.pure _

/-- The walks of a parted sequence are related when their steps are. -/
theorem splitWalk_sideBySide (hcovers : relation.Covers walk walk') (nesting : Nat) :
    relation.RelatesSplitWalks (walk.splitWalk nesting) (walk'.splitWalk nesting) := by
  induction nesting with
  | zero => exact fun _ _ _ => hcovers.exhausted
  | succ nesting ih =>
    exact fun setting tail split => walkSplit_sideBySide hcovers ih tail _ split

/-- The walks of a sequence are related when their steps are. -/
theorem walk_sideBySide {expander expander' : Expander} {file file' : FileOrigin}
    (hcovers : relation.Covers { expander, file } { expander := expander', file := file' })
    (nesting : Nat) :
    relation.RelatesWalks (FileWalk.walk { expander, file } nesting)
      (FileWalk.walk { expander := expander', file := file' } nesting) := by
  intro scope depth span statements
  rw [expander.walk_whole, expander'.walk_whole]
  exact (splitWalk_sideBySide hcovers nesting).onSequence scope depth span statements

/-! ## Files -/

/-- A block is walked alike. -/
theorem walkBlock_sideBySide (h : relation.RelatesWalks walkAll walkAll') (scope : Scope)
    (block : Block) :
    relation.Rel (walkBlock walkAll scope block) (walkBlock walkAll' scope block) :=
  relation.followedBy (h _ _ _ _) fun _ => relation.pure _

/-- A function is expanded alike, replacements included. -/
theorem expandFunction_sideBySide (hfails : relation.FailsAlike walk walk')
    (h : relation.RelatesWalks walkAll walkAll') (allowed : Nat) (decl : FunctionDecl) :
    relation.Rel (walk.expandFunction walkAll allowed decl)
      (walk'.expandFunction walkAll' allowed decl) := by
  induction allowed generalizing decl
  all_goals
    unfold expandFunction
    refine relation.bind (walkBlock_sideBySide h _ decl.body) fun flow => ?_
  case zero =>
    cases flow with
    | proceed body => exact relation.pure _
    | replaceFunction replacement =>
      rw [hfails.maxDepth]
      exact hfails.fault _ _
  case succ allowed ih =>
    cases flow with
    | proceed body => exact relation.pure _
    | replaceFunction replacement => exact ih replacement

/-- A body outside of functions is expanded alike. -/
theorem expandLoose_sideBySide (hfails : relation.FailsAlike walk walk')
    (h : relation.RelatesWalks walkAll walkAll') (scope : Scope) (block : Block) (span : Span) :
    relation.Rel (walk.expandLoose walkAll scope block span)
      (walk'.expandLoose walkAll' scope block span) := by
  unfold expandLoose
  refine relation.bind (walkBlock_sideBySide h scope block) fun flow => ?_
  cases flow with
  | proceed body => exact relation.pure _
  | replaceFunction decl => exact hfails.fault _ _

/-- A member is expanded alike. -/
theorem expandMember_sideBySide (hfails : relation.FailsAlike walk walk')
    (h : relation.RelatesWalks walkAll walkAll') (member : Member) :
    relation.Rel (walk.expandMember walkAll member) (walk'.expandMember walkAll' member) := by
  cases member with
  | function decl =>
    unfold expandMember
    rw [hfails.maxDepth]
    exact relation.bind (expandFunction_sideBySide hfails h _ decl) fun _ => relation.pure _
  | property decl =>
    have haccessors : relation.Rel (walk.expandProperty walkAll decl)
        (walk'.expandProperty walkAll' decl) := by
      refine relation.bind (relation.mapM (fun accessor => ?_) _) fun _ => relation.pure _
      exact relation.bind (expandLoose_sideBySide hfails h _ _ _) fun _ => relation.pure _
    exact relation.bind haccessors fun _ => relation.pure _

/-- An item is expanded alike. -/
theorem expandItem_sideBySide (hfails : relation.FailsAlike walk walk')
    (h : relation.RelatesWalks walkAll walkAll') (item : Item) :
    relation.Rel (walk.expandItem walkAll item) (walk'.expandItem walkAll' item) := by
  cases item with
  | function decl =>
    unfold expandItem
    rw [hfails.maxDepth]
    exact relation.bind (expandFunction_sideBySide hfails h _ decl) fun _ => relation.pure _
  | typeDecl decl =>
    exact relation.bind (relation.mapM (expandMember_sideBySide hfails h) _) fun _ =>
      relation.pure _
  | statements block =>
    exact relation.bind (expandLoose_sideBySide hfails h _ _ _) fun _ => relation.pure _

end FileWalk

/-- The expansions of two files with the same items are related when their steps are. -/
theorem Expander.itemsProgram_sideBySide {relation : WalkRelation σ τ} {expander expander' : Expander}
    {tree tree' : SyntaxTree}
    (hcovers : relation.Covers { expander, file := ⟨tree.path, tree.source⟩ }
      { expander := expander', file := ⟨tree'.path, tree'.source⟩ })
    (hitems : tree'.items = tree.items) (nesting : Nat) :
    relation.Rel (itemsProgram (·.walk nesting) expander tree)
      (itemsProgram (·.walk nesting) expander' tree') := by
  unfold itemsProgram
  rw [hitems]
  exact relation.mapM
    (FileWalk.expandItem_sideBySide hcovers.toFailsAlike
      (FileWalk.walk_sideBySide hcovers nesting)) tree.items

end MacroExpansion
