import MacroExpansion.Proofs.Nested
import MacroExpansion.Proofs.WalkAgrees

/-! # Walks that change nothing

Even where nothing is expanded, a walk takes bodies apart and puts them back together. Here is what
that comes to: a walk that finds no call that it can expand leaves the code, and everything else, as
it is. Whether it may stop in between is left open, and so is why nothing is expanded: because there
is nothing to expand, or because no macro can be invoked. -/

namespace MacroExpansion

variable {σ : Type}

namespace ExpandM

variable {α : Type} {program : ExpandM σ α} {start : Progress σ} {value : α}

/-- A program that changes nothing keeps everything. -/
theorem Keeps.of_unchanged {inv : Progress σ → Prop} {stops : Stop → Prop} {P : α → Prop}
    (h : ∀ start, program.Keeps (· = start) stops P) : program.Keeps inv stops P := by
  intro progress hinv
  have hstart := h progress progress rfl
  rcases hrun : program.runFrom progress with ⟨stop | result, ended⟩
  all_goals rw [hrun] at hstart
  · exact hstart
  · exact ⟨hstart.1, hstart.2 ▸ hinv⟩

/-- A program that changes nothing and never stops comes to its value. -/
theorem Keeps.runFrom_eq (h : program.Keeps (· = start) (fun _ => False) (· = value)) :
    program.runFrom start = (.ok value, start) := by
  have hstart := h start rfl
  rcases hrun : program.runFrom start with ⟨stop | result, ended⟩
  all_goals rw [hrun] at hstart
  · exact hstart.elim
  · rw [hstart.1, hstart.2]

/-- A program that comes to a value changes nothing. -/
theorem Keeps.of_runFrom_eq {stops : Stop → Prop} {P : α → Prop}
    (h : program.runFrom start = (.ok value, start)) (hP : P value) :
    program.Keeps (· = start) stops P := by
  rintro _ rfl
  rw [h]
  exact ⟨hP, rfl⟩

end ExpandM

/-- A part of a walk that changes nothing and never stops goes on with its value. -/
theorem Flow.runFrom_eq_of_keeps {α : Type} {program : ExpandM σ (Flow α)} {start : Progress σ}
    {value : α} (h : program.Keeps (· = start) (fun _ => False) (Flow.Proceeds (· = value))) :
    program.runFrom start = (.ok (.proceed value), start) :=
  ExpandM.Keeps.runFrom_eq (h.mono fun _ hflow => by
    obtain ⟨_, rfl, rfl⟩ := hflow
    rfl)

/-- The sequence parted so many statements further on. -/
def Split.advance (split : Split) (count : Nat) : Split :=
  ⟨split.done ++ split.todo.take count, split.todo.drop count⟩

/-- A sequence that is parted elsewhere is the same sequence. -/
@[simp] theorem Split.statements_advance (split : Split) (count : Nat) :
    (split.advance count).statements = split.statements := by
  simp [advance, statements]

/-- A sequence that is parted no further on is parted where it was. -/
@[simp] theorem Split.advance_zero (split : Split) : split.advance 0 = split := by
  simp [advance]

/-- Going on behind a statement. -/
theorem Split.advance_succ (done rest : List Stmt) (stmt : Stmt) (count : Nat) :
    (Split.mk (done ++ [stmt]) rest).advance count =
      (Split.mk done (stmt :: rest)).advance (count + 1) := by
  simp [advance]

/-- From a progress on, a walk of sequences gives them back as they are. -/
def SequenceWalk.Returns (walk : SequenceWalk σ) (start : Progress σ) (stops : Stop → Prop)
    (scope : Scope) (depth : Nat) (block : Block) : Prop :=
  (walk scope depth block.span block.statements 0 block.statements.length).Keeps (· = start) stops
    (Flow.Proceeds fun walked => walked.statements = block.statements)

namespace FileWalk

/-- From a progress on, a call that is found cannot be expanded. -/
structure Bars (walk : FileWalk σ) (start : Progress σ) (stops : Stop → Prop) (bound : BoundCall) :
    Prop where
  /-- A limit may stand against it. -/
  limit : stops (.error (walk.fault
    (.depthLimit bound.site.call.callee walk.expander.config.maxDepth) bound.site.call.span))
  /-- Its expansion comes to no result. -/
  expand : (ExpandM.located bound.site.call.span walk.file.source
    (walk.expander.expandCall walk.file.source bound)).Keeps (· = start) stops fun _ => False

/-- From a progress on, the next statement of a parted sequence is left as it is: none of its calls is
expanded, and what its slots hold comes back unchanged. -/
structure LeavesAlone (walk : FileWalk σ) (walkNested : SequenceWalk σ) (start : Progress σ)
    (stops : Stop → Prop) (setting : Setting) (done : List Stmt) (stmt : Stmt) (rest : List Stmt) :
    Prop where
  /-- No call is found that can be expanded. -/
  next : (walk.next stmt ((setting.cursor ⟨done, stmt :: rest⟩).site walk.file.path)).Keeps
    (· = start) stops fun next => ∀ bound, next = some bound → walk.Bars start stops bound
  /-- The nested statements are left as they are. -/
  nested {slot : Slot} {content : Block} (h : slot.content? stmt = some content) :
    walkNested.Returns start stops ((setting.cursor ⟨done, stmt :: rest⟩).inside slot) setting.depth
      content

variable {walk : FileWalk σ} {walkRun : SplitWalk σ} {walkNested : SequenceWalk σ}
  {start : Progress σ} {stops : Stop → Prop} {setting : Setting} {done rest : List Stmt}
  {stmt : Stmt}

/-! ## Sequences -/

/-- The slots of a statement get back what they hold. -/
theorem walkSlots_unchanged
    (h : ∀ slot content, slot.content? stmt = some content →
      walkNested.Returns start stops ((setting.cursor ⟨done, stmt :: rest⟩).inside slot)
        setting.depth content) (slots : List Slot) :
    (walkSlots walkNested (setting.cursor ⟨done, stmt :: rest⟩) slots).Keeps (· = start) stops
      (Flow.Proceeds (· = stmt)) := by
  induction slots with
  | nil =>
    unfold walkSlots
    rw [Setting.stmt_cursor]
    exact .pure ⟨stmt, rfl, rfl⟩
  | cons slot slots ih =>
    unfold walkSlots
    rw [Setting.stmt_cursor]
    cases hcontent : slot.content? stmt with
    | none => exact ih
    | some content =>
      -- the content comes back as it was, and the slot is filled with what it holds
      obtain ⟨statements, span⟩ := content
      refine Flow.keeps_followedBy (h slot _ hcontent) fun walked hwalked => ?_
      simp only [hwalked, Setting.withStmt_cursor, Slot.fill_content hcontent]
      exact ih

/-- A statement that is left alone is settled as it is. -/
theorem settleSplit_unchanged
    (h : walk.LeavesAlone walkNested start stops setting done stmt rest) (allowed : Nat) :
    (walk.settleSplit walkRun walkNested setting allowed ⟨done, stmt :: rest⟩).Keeps (· = start)
      stops (Flow.Proceeds (· = ⟨done ++ [stmt], rest⟩)) := by
  unfold settleSplit
  simp only [Setting.stmt_cursor]
  refine h.next.bind fun next hnext => ?_
  cases next with
  | none =>
    refine Flow.keeps_followedBy (walkSlots_unchanged (fun _ _ => h.nested) _) ?_
    rintro _ rfl
    exact .pure ⟨_, rfl, rfl⟩
  | some bound =>
    have hbars := hnext bound rfl
    cases allowed with
    | zero => exact .throw hbars.limit
    | succ allowed =>
      cases decide (setting.depth ≤ walk.expander.config.maxDepth) with
      | false => exact .throw hbars.limit
      | true => exact hbars.expand.bind fun _ hfalse => hfalse.elim

/-- Statements that are left alone are settled one after the other as they are, whatever comes behind
the part that is walked. -/
theorem walkSplit_unchanged (hpoll : ∀ cursor, (walk.poll cursor).Keeps (· = start) stops fun _ => True)
    (tail steps : Nat) (split : Split)
    (h : ∀ before stmt after, split.todo = before ++ stmt :: after → tail ≤ after.length →
      walk.LeavesAlone walkNested start stops setting (split.done ++ before) stmt after) :
    (walk.walkSplit walkRun walkNested setting tail steps split).Keeps (· = start) stops
      (Flow.Proceeds (· = split.advance (min steps (split.todo.length - tail)))) := by
  induction steps generalizing split with
  | zero =>
    rw [Nat.zero_min, Split.advance_zero]
    exact .pure ⟨_, rfl, rfl⟩
  | succ steps ih =>
    unfold walkSplit
    obtain ⟨done, todo⟩ := split
    split
    · cases todo with
      | nil => exact absurd ‹tail < _› (Nat.not_lt_zero tail)
      | cons stmt rest =>
        have hlt : tail < rest.length + 1 := ‹_›
        have hcount : min (steps + 1) ((stmt :: rest).length - tail) =
            min steps (rest.length - tail) + 1 := by
          rw [List.length_cons]
          omega
        have hstmt := h [] stmt rest rfl (Nat.le_of_lt_succ hlt)
        rw [List.append_nil] at hstmt
        rw [hcount, ← Split.advance_succ]
        refine (hpoll _).bind fun _ _ => ?_
        refine Flow.keeps_followedBy (settleSplit_unchanged hstmt _) ?_
        rintro _ rfl
        refine ih _ fun before other after hrest hafter => ?_
        have hother := h (stmt :: before) other after (congrArg (stmt :: ·) hrest) hafter
        rwa [List.append_cons] at hother
    · -- nothing is left of the part to be walked
      rename_i hle
      rw [Nat.sub_eq_zero_of_le (Nat.le_of_not_lt hle), Nat.min_zero, Split.advance_zero]
      exact .pure ⟨_, rfl, rfl⟩

end FileWalk

/-! ## Walks within each other -/

/-- What is known of the blocks that are walked with so many walks left within each other makes the
walk leave them as they are. -/
structure FileWalk.Spares (walk : FileWalk σ) (start : Progress σ) (stops : Stop → Prop)
    (known : Nat → Scope → Block → Prop) : Prop where
  /-- No walk is made without any walk left. -/
  exhausted {scope : Scope} {block : Block} (h : known 0 scope block) : stops .exhausted
  /-- What is done before a statement changes nothing. -/
  poll (cursor : Cursor) : (walk.poll cursor).Keeps (· = start) stops fun _ => True
  /-- No call is found that can be expanded. -/
  next {nesting : Nat} {setting : Setting} {done rest : List Stmt} {stmt : Stmt}
    (h : known (nesting + 1) setting.scope ⟨done ++ stmt :: rest, setting.span⟩) :
    (walk.next stmt ((setting.cursor ⟨done, stmt :: rest⟩).site walk.file.path)).Keeps
      (· = start) stops fun next => ∀ bound, next = some bound → walk.Bars start stops bound
  /-- As much is known of what is nested. -/
  nested {nesting : Nat} {setting : Setting} {done rest : List Stmt} {stmt : Stmt} {slot : Slot}
    {content : Block}
    (h : known (nesting + 1) setting.scope ⟨done ++ stmt :: rest, setting.span⟩)
    (hcontent : slot.content? stmt = some content) :
    known nesting ((setting.cursor ⟨done, stmt :: rest⟩).inside slot) content

namespace FileWalk

variable {walk : FileWalk σ} {start : Progress σ} {stops : Stop → Prop}
  {known : Nat → Scope → Block → Prop}

/-- A block that is spared comes back as it is. -/
theorem returns_splitWalk (hspares : walk.Spares start stops known) {nesting : Nat} {scope : Scope}
    (depth : Nat) {block : Block} (h : known nesting scope block) :
    (walk.splitWalk nesting).onSequence.Returns start stops scope depth block := by
  induction nesting generalizing scope depth block with
  | zero =>
    exact .bind (P := fun _ => False) (.throw (hspares.exhausted h)) fun _ hfalse => hfalse.elim
  | succ nesting ih =>
    obtain ⟨statements, span⟩ := block
    unfold SequenceWalk.Returns SplitWalk.onSequence
    rw [Nat.sub_self, List.take_zero, List.drop_zero]
    refine Flow.keeps_followedBy (walkSplit_unchanged hspares.poll 0 _ ⟨[], statements⟩
      fun before stmt after hstatements _ => ?_) ?_
    · rw [show statements = before ++ stmt :: after from hstatements] at h
      rw [List.nil_append]
      exact ⟨hspares.next h, fun hcontent => ih _ (hspares.nested h hcontent)⟩
    · rintro _ rfl
      refine .pure ⟨_, rfl, ?_⟩
      rw [Split.statements_advance]
      rfl

end FileWalk

/-- A block that an expansion spares comes back as it is. -/
theorem Expander.returns_walk {expander : Expander} {file : FileOrigin} {start : Progress σ}
    {stops : Stop → Prop} {known : Nat → Scope → Block → Prop}
    (hspares : FileWalk.Spares { expander, file } start stops known) {nesting : Nat} {scope : Scope}
    (depth : Nat) {block : Block} (h : known nesting scope block) :
    (FileWalk.walk { expander, file } nesting).Returns start stops scope depth block := by
  unfold SequenceWalk.Returns
  rw [expander.walk_whole]
  exact FileWalk.returns_splitWalk hspares depth h

/-! ## Files -/

namespace FileWalk

variable {walk : FileWalk σ} {walkAll : SequenceWalk σ} {start : Progress σ} {stops : Stop → Prop}

/-- A block that its walk gives back is given back. -/
theorem walkBlock_unchanged {scope : Scope} {block : Block}
    (h : walkAll.Returns start stops scope 0 block) :
    (walkBlock walkAll scope block).Keeps (· = start) stops (Flow.Proceeds (· = block)) := by
  obtain ⟨statements, span⟩ := block
  refine Flow.keeps_followedBy h fun walked hwalked => ?_
  rw [hwalked]
  exact .pure ⟨_, rfl, rfl⟩

/-- A function with a body that its walk gives back is given back. -/
theorem expandFunction_unchanged {decl : FunctionDecl}
    (h : walkAll.Returns start stops (.ofFunction decl) 0 decl.body) (allowed : Nat) :
    (walk.expandFunction walkAll allowed decl).Keeps (· = start) stops (· = decl) := by
  unfold expandFunction
  refine (walkBlock_unchanged h).bind ?_
  rintro _ ⟨_, rfl, rfl⟩
  exact .pure rfl

/-- A block outside of functions is given back as well. -/
theorem expandLoose_unchanged {scope : Scope} {block : Block}
    (h : walkAll.Returns start stops scope 0 block) (span : Span) :
    (walk.expandLoose walkAll scope block span).Keeps (· = start) stops (· = block) := by
  unfold expandLoose
  refine (walkBlock_unchanged h).bind ?_
  rintro _ ⟨_, rfl, rfl⟩
  exact .pure rfl

end FileWalk

/-- A list is gone through without a change when that holds for each of its members. -/
theorem ExpandM.Keeps.mapM_self {α : Type} {start : Progress σ} {stops : Stop → Prop}
    {next : α → ExpandM σ α} {values : List α}
    (h : ∀ value ∈ values, (next value).Keeps (· = start) stops (· = value)) :
    (values.mapM next).Keeps (· = start) stops (· = values) := by
  induction values with
  | nil => exact .pure rfl
  | cons value rest ih =>
    obtain ⟨hvalue, hrest⟩ := List.forall_mem_cons.mp h
    rw [List.mapM_cons]
    refine hvalue.bind ?_
    rintro _ rfl
    refine (ih hrest).bind ?_
    rintro _ rfl
    exact .pure rfl

namespace FileWalk

variable {walk : FileWalk σ} {walkAll : SequenceWalk σ} {start : Progress σ} {stops : Stop → Prop}

/-- An item whose bodies come back as they are comes back as it is. -/
theorem expandItem_unchanged {item : Item}
    (h : ∀ scope body, item.HasBody (scope.function.map (·.plug body)) body →
      walkAll.Returns start stops scope 0 body) :
    (walk.expandItem walkAll item).Keeps (· = start) stops (· = item) := by
  cases item with
  | function decl =>
    refine (expandFunction_unchanged (h (.ofFunction decl) decl.body (.function decl)) _).bind ?_
    rintro _ rfl
    exact .pure rfl
  | statements block =>
    refine (expandLoose_unchanged (h .script block (.statements block)) _).bind ?_
    rintro _ rfl
    exact .pure rfl
  | typeDecl decl =>
    refine .bind (.mapM_self fun member hmember => ?_) ?_
    · cases member with
      | function method =>
        refine (expandFunction_unchanged (h (.ofFunction method) method.body (.method hmember))
          _).bind ?_
        rintro _ rfl
        exact .pure rfl
      | property property =>
        have hproperty : (walk.expandProperty walkAll property).Keeps (· = start) stops
            (· = property) := by
          refine .bind (.mapM_self fun accessor haccessor => ?_) ?_
          · refine (expandLoose_unchanged (h (.ofAccessor property.name accessor.kind)
              accessor.body (.accessor hmember haccessor)) _).bind ?_
            rintro _ rfl
            exact .pure rfl
          · rintro _ rfl
            exact .pure rfl
        refine hproperty.bind ?_
        rintro _ rfl
        exact .pure rfl
    · rintro _ rfl
      exact .pure rfl

end FileWalk

/-- A file whose bodies come back as they are comes back as it is. -/
theorem Expander.itemsProgram_unchanged {expander : Expander} {tree : SyntaxTree} {nesting : Nat}
    {start : Progress σ} {stops : Stop → Prop} {known : Nat → Scope → Block → Prop}
    (hspares : FileWalk.Spares
      { expander, file := { path := tree.path, text := tree.source } } start stops known)
    (h : ∀ item ∈ tree.items, ∀ scope body,
      item.HasBody (scope.function.map (·.plug body)) body → known nesting scope body) :
    (itemsProgram (·.walk nesting) expander tree).Keeps (· = start) stops (· = tree.items) :=
  .mapM_self fun item hitem => FileWalk.expandItem_unchanged fun scope body hbody =>
    returns_walk hspares 0 (h item hitem scope body hbody)

end MacroExpansion
