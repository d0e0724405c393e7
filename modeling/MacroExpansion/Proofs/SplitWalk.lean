import MacroExpansion.Proofs.Binding
import MacroExpansion.Proofs.Nested
import MacroExpansion.Proofs.Program

/-! # The walk of a parted sequence

`FileWalk.walk` keeps positions in three ways: as they were at first, as they read with the pending
splices, and as they are in the sequence that an inserted run is walked in. Here the same walk is
told without positions. A sequence is parted at the statement that is settled next; what is settled
lies in `done`, what is still to come in `todo`. A run is put in front of `todo` and walked until no
more is left of `todo` than what was behind the run. -/

namespace MacroExpansion

/-- Where a sequence is walked. -/
structure Setting where
  /-- What surrounds the sequence. -/
  scope : Scope
  /-- The number of runs that the sequence was inserted through. -/
  depth : Nat
  /-- Where the block of the sequence is written. -/
  span : Span

/-- The setting of the runs that are inserted into the sequence. -/
def Setting.deeper (setting : Setting) : Setting :=
  { setting with depth := setting.depth + 1 }

/-- A sequence parted at the statement that is settled next. -/
structure Split where
  /-- The settled statements. -/
  done : List Stmt
  /-- The statement that is settled next and those behind it. -/
  todo : List Stmt

namespace Split

/-- The whole sequence. -/
def statements (split : Split) : List Stmt :=
  split.done ++ split.todo

/-- The same sequence with another statement to be settled next. -/
def withStmt (split : Split) (stmt : Stmt) : Split :=
  { split with todo := split.todo.set 0 stmt }

/-- The sequence parted behind a statement that was settled. -/
def after (split : Split) : Settled → Split
  | .kept stmt => ⟨split.done ++ [stmt], split.todo.tail⟩
  | .spliced deleted run => ⟨split.done ++ run, split.todo.drop deleted⟩

/-- A run in place of the next statement and the `captured` ones after it. -/
def insert (split : Split) (captured : Nat) (run : List Stmt) : Split :=
  { split with todo := run ++ split.todo.drop (captured + 1) }

end Split

/-- A changed statement stands behind the settled ones. -/
@[simp] theorem Split.statements_withStmt (split : Split) (stmt : Stmt) :
    (split.withStmt stmt).statements = split.statements.set split.done.length stmt := by
  simp [statements, withStmt]

/-- The settled statements stay when the next one is changed. -/
@[simp] theorem Split.done_withStmt (split : Split) (stmt : Stmt) :
    (split.withStmt stmt).done = split.done := rfl

/-- A changed statement is still one to come. -/
@[simp] theorem Split.length_todo_withStmt (split : Split) (stmt : Stmt) :
    (split.withStmt stmt).todo.length = split.todo.length := by
  simp [withStmt]

/-- A settled statement that stands for at least one statement and at most `count`. -/
def Settled.Fits (count : Nat) : Settled → Prop
  | .kept _ => 0 < count
  | .spliced deleted _ => 0 < deleted ∧ deleted ≤ count

/-- A statement that was settled stands for the next one, whatever that was. -/
theorem Split.after_withStmt {count : Nat} {settled : Settled} (h : settled.Fits count)
    (split : Split) (stmt : Stmt) : (split.withStmt stmt).after settled = split.after settled := by
  obtain ⟨done, todo⟩ := split
  cases settled with
  | kept kept => cases todo <;> rfl
  | spliced deleted run =>
    cases deleted with
    | zero => exact absurd h.1 (Nat.lt_irrefl 0)
    | succ deleted => cases todo <;> rfl

/-- The cursor at the next statement of a parted sequence. -/
def Setting.cursor (setting : Setting) (split : Split) : Cursor where
  scope := setting.scope
  depth := setting.depth
  span := setting.span
  statements := split.statements
  index := split.done.length

/-- The cursor of a parted sequence is at the first statement to come. -/
@[simp] theorem Setting.stmt_cursor (setting : Setting) (done rest : List Stmt) (stmt : Stmt) :
    (setting.cursor ⟨done, stmt :: rest⟩).stmt = stmt := by
  simp [cursor, Cursor.stmt, Split.statements]

/-- A changed statement is changed in the parted sequence of the cursor. -/
@[simp] theorem Setting.withStmt_cursor (setting : Setting) (split : Split) (stmt : Stmt) :
    (setting.cursor split).withStmt stmt = setting.cursor (split.withStmt stmt) := by
  rw [cursor, cursor, Split.statements_withStmt]
  rfl

/-- The walk of a parted sequence until no more than `tail` statements are to come. -/
abbrev SplitWalk (σ : Type) :=
  Setting → (tail : Nat) → Split → ExpandM σ (Flow Split)

/-- The walk of the part of a sequence between two positions. -/
def SplitWalk.onSequence {σ : Type} (walkSplit : SplitWalk σ) : SequenceWalk σ :=
  fun scope depth span statements start stop => do
    let flow ← walkSplit ⟨scope, depth, span⟩ (statements.length - stop)
      ⟨statements.take start, statements.drop start⟩
    flow.followedBy fun split =>
      return .proceed ⟨split.statements, statements.length - split.todo.length⟩

/-- Two walks that are the same on every part of a sequence. -/
def SequenceWalk.Agrees {σ : Type} (walk walk' : SequenceWalk σ) : Prop :=
  ∀ scope depth span statements start stop, start ≤ stop → stop ≤ statements.length →
    walk scope depth span statements start stop = walk' scope depth span statements start stop

namespace FileWalk

variable {σ : Type}

/-- Puts the output of a call of the next statement of a parted sequence in its place, and goes on
settling. Gives the sequence parted behind what was settled. -/
def placeSplit (walk : FileWalk σ) (walkRun : SplitWalk σ)
    (settle : Split → ExpandM σ (Flow Split)) (setting : Setting) (split : Split)
    (bound : BoundCall) : Placement → ExpandM σ (Flow Split)
  | .empty => settle (split.withStmt (.empty (setting.cursor split).stmt.span))
  | .inPlace expr =>
      match (setting.cursor split).stmt.replaceCall? bound.site.call expr with
      | some stmt => settle (split.withStmt stmt)
      | none =>
          ExpandM.fail (walk.fault (.callVanished bound.site.call.callee) bound.site.call.span)
  | .statement stmt => settle (split.withStmt stmt)
  | .function decl => return .replaceFunction decl
  | .splice run =>
      walkRun setting.deeper (split.todo.drop (bound.captured + 1)).length
        (split.insert bound.captured run)

/-- Settles the next statement of a parted sequence, which may still take `allowed` expansions.
Gives the sequence parted behind it. -/
def settleSplit (walk : FileWalk σ) (walkRun : SplitWalk σ) (walkNested : SequenceWalk σ)
    (setting : Setting) : (allowed : Nat) → Split → ExpandM σ (Flow Split)
  | allowed, split => do
    let cursor := setting.cursor split
    match ← walk.next cursor.stmt (cursor.site walk.file.path) with
    | none =>
        let flow ← walkSlots walkNested cursor (Slot.all cursor.stmt)
        flow.followedBy fun stmt => return .proceed (split.after (.kept stmt))
    | some bound =>
        let limit := walk.expander.config.maxDepth
        let call := bound.site.call
        match allowed, decide (setting.depth ≤ limit) with
        | allowed + 1, true =>
            let placement ←
              ExpandM.located call.span walk.file.source
                (walk.expander.expandCall walk.file.source bound)
            walk.placeSplit walkRun (walk.settleSplit walkRun walkNested setting allowed) setting
              split bound placement
        | _, _ => ExpandM.fail (walk.fault (.depthLimit call.callee limit) call.span)

/-- Settles the statements of a parted sequence, at most `steps` of them. -/
def walkSplit (walk : FileWalk σ) (walkRun : SplitWalk σ) (walkNested : SequenceWalk σ)
    (setting : Setting) (tail : Nat) : (steps : Nat) → Split → ExpandM σ (Flow Split)
  | 0, split => return .proceed split
  | steps + 1, split => do
      if tail < split.todo.length then
        walk.poll (setting.cursor split)
        let flow ← walk.settleSplit walkRun walkNested setting walk.expander.config.maxDepth split
        flow.followedBy fun split => walk.walkSplit walkRun walkNested setting tail steps split
      else
        return .proceed split

/-- Walks a parted sequence. The first argument bounds the number of walks within each other. -/
def splitWalk (file : FileWalk σ) : (nesting : Nat) → SplitWalk σ
  | 0 => fun _ _ _ => throw .exhausted
  | nesting + 1 => fun setting tail split =>
      file.walkSplit (file.splitWalk nesting) (file.splitWalk nesting).onSequence setting tail
        (split.todo.length - tail) split

/-! ## Settling as runs -/

section

variable {walk : FileWalk σ} {walkRun : SplitWalk σ} {walkNested : SequenceWalk σ}
  {setting : Setting} {done rest : List Stmt} {stmt : Stmt} {progress middle : Progress σ}
  {allowed : Nat}

/-- Settling ends where the search for the next call does. -/
theorem runFrom_settleSplit_of_error {stop : Stop}
    (hnext : (walk.next stmt ((setting.cursor ⟨done, stmt :: rest⟩).site walk.file.path)).runFrom
      progress = (.error stop, middle)) :
    (walk.settleSplit walkRun walkNested setting allowed ⟨done, stmt :: rest⟩).runFrom progress =
      (.error stop, middle) := by
  unfold settleSplit
  simp only [Setting.stmt_cursor]
  exact ExpandM.runFrom_bind_of_error hnext

/-- A statement without calls to expand is settled by walking its slots. -/
theorem runFrom_settleSplit_of_none
    (hnext : (walk.next stmt ((setting.cursor ⟨done, stmt :: rest⟩).site walk.file.path)).runFrom
      progress = (.ok none, middle)) :
    (walk.settleSplit walkRun walkNested setting allowed ⟨done, stmt :: rest⟩).runFrom progress =
      (walkSlots walkNested (setting.cursor ⟨done, stmt :: rest⟩) (Slot.all stmt) >>=
        (·.followedBy fun stmt => return .proceed (Split.mk (done ++ [stmt]) rest))).runFrom
          middle := by
  unfold settleSplit
  simp only [Setting.stmt_cursor]
  rw [ExpandM.runFrom_bind_of_ok hnext]
  rfl

/-- A call to expand is expanded while the limits allow it. -/
theorem runFrom_settleSplit_of_bound {bound : BoundCall}
    (hnext : (walk.next stmt ((setting.cursor ⟨done, stmt :: rest⟩).site walk.file.path)).runFrom
      progress = (.ok (some bound), middle))
    (hdepth : setting.depth ≤ walk.expander.config.maxDepth) :
    (walk.settleSplit walkRun walkNested setting (allowed + 1) ⟨done, stmt :: rest⟩).runFrom
        progress =
      (ExpandM.located bound.site.call.span walk.file.source
        (walk.expander.expandCall walk.file.source bound) >>=
          walk.placeSplit walkRun (walk.settleSplit walkRun walkNested setting allowed) setting
            ⟨done, stmt :: rest⟩ bound).runFrom middle := by
  unfold settleSplit
  simp only [Setting.stmt_cursor]
  rw [ExpandM.runFrom_bind_of_ok hnext]
  simp only [decide_eq_true hdepth]

/-- A call to expand is an error beyond the limits. -/
theorem runFrom_settleSplit_of_limit {bound : BoundCall}
    (hnext : (walk.next stmt ((setting.cursor ⟨done, stmt :: rest⟩).site walk.file.path)).runFrom
      progress = (.ok (some bound), middle))
    (hlimit : allowed = 0 ∨ walk.expander.config.maxDepth < setting.depth) :
    (walk.settleSplit walkRun walkNested setting allowed ⟨done, stmt :: rest⟩).runFrom progress =
      (.error (.error (walk.fault
        (.depthLimit bound.site.call.callee walk.expander.config.maxDepth) bound.site.call.span)),
        middle) := by
  unfold settleSplit
  simp only [Setting.stmt_cursor]
  rw [ExpandM.runFrom_bind_of_ok hnext]
  cases allowed with
  | zero => rfl
  | succ allowed =>
    have hdepth := hlimit.resolve_left (Nat.succ_ne_zero allowed)
    simp only [decide_eq_false (Nat.not_le_of_lt hdepth)]
    rfl

end

/-! ## Captures -/

/-- The next call of a statement is one of its own calls, at its site, and captured only statements
that follow it. -/
def Captures (walk : FileWalk σ) : Prop :=
  ∀ stmt site, (walk.next stmt site).Ensures fun next => ∀ bound, next = some bound →
    (∃ call ∈ stmt.ownCalls, bound.site = site call) ∧
      bound.captured ≤ bound.site.following.length

/-- An expansion finds calls that captured only what follows them. -/
theorem captures_of_expansion (expander : Expander) (file : FileOrigin) :
    Captures (σ := σ) { expander, file } := by
  intro stmt site
  refine (ExpandM.Ensures.require _).mono ?_
  rintro next hfirst bound rfl
  obtain ⟨call, hmem, symbol, -, hbind⟩ := Expander.firstBound?_some hfirst
  obtain ⟨-, hsite, hcaptured⟩ := BindingRules.bind_some hbind
  exact ⟨⟨call, hmem, hsite⟩, hsite ▸ hcaptured⟩

end FileWalk

/-! ## What a walk leaves of a parted sequence -/

/-- A sequence that was walked on: settled statements stay, and of those to come some are left. -/
structure Split.Reaches (first last : Split) : Prop where
  done : first.done <+: last.done
  todo : last.todo <:+ first.todo

namespace Split.Reaches

variable {first middle last : Split}

/-- A sequence that is left alone is walked on by nothing. -/
theorem refl (split : Split) : split.Reaches split :=
  ⟨List.prefix_rfl, List.suffix_rfl⟩

/-- A sequence that is walked on further is walked on. -/
theorem trans (h : first.Reaches middle) (h' : middle.Reaches last) : first.Reaches last :=
  ⟨h.done.trans h'.done, h'.todo.trans h.todo⟩

/-- Settling a statement walks on. -/
theorem after (split : Split) (settled : Settled) : split.Reaches (split.after settled) := by
  cases settled with
  | kept stmt => exact ⟨List.prefix_append _ _, List.tail_suffix _⟩
  | spliced deleted run => exact ⟨List.prefix_append _ _, List.drop_suffix _ _⟩

/-- Once no more is left than what was behind an inserted run, the run and what it stands for are
settled. -/
theorem of_insert {split : Split} {captured : Nat} {run : List Stmt}
    (h : (split.insert captured run).Reaches last)
    (hlength : last.todo.length ≤ (split.todo.drop (captured + 1)).length) :
    split.Reaches last ∧ last.todo <:+ split.todo.drop (captured + 1) := by
  have hrest : last.todo <:+ split.todo.drop (captured + 1) :=
    List.suffix_of_suffix_length_le h.todo (List.suffix_append run _) hlength
  exact ⟨⟨h.done, hrest.trans (List.drop_suffix _ _)⟩, hrest⟩

end Split.Reaches

/-- A walk that settles statements until no more than `tail` are to come. -/
def SplitWalk.Advances {σ : Type} (walkSplit : SplitWalk σ) : Prop :=
  ∀ setting tail split, (walkSplit setting tail split).Ensures (Flow.Holds fun last =>
    split.Reaches last ∧ last.todo.length ≤ tail)

namespace FileWalk

variable {σ : Type} {walk : FileWalk σ} {walkRun : SplitWalk σ} {walkNested : SequenceWalk σ}
  {setting : Setting}

/-- What is ensured of whatever stands for the next statement is ensured when the output of a call is
put in its place. -/
theorem placeSplit_ensures {done rest : List Stmt} {stmt : Stmt} {P : Split → Prop}
    {settle : Split → ExpandM σ (Flow Split)}
    (hsettle : ∀ stmt, (settle ⟨done, stmt :: rest⟩).Ensures (Flow.Holds P)) {bound : BoundCall}
    (hrun : ∀ run, (walkRun setting.deeper (rest.drop bound.captured).length
      ⟨done, run ++ rest.drop bound.captured⟩).Ensures (Flow.Holds P)) (placement : Placement) :
    (walk.placeSplit walkRun settle setting ⟨done, stmt :: rest⟩ bound placement).Ensures
      (Flow.Holds P) := by
  cases placement with
  | empty => exact hsettle _
  | statement stmt => exact hsettle stmt
  | function decl => exact .pure Flow.holds_replaceFunction
  | splice run => exact hrun run
  | inPlace expr =>
    simp only [placeSplit, Setting.stmt_cursor]
    cases stmt.replaceCall? bound.site.call expr with
    | none => exact .throw _
    | some stmt => exact hsettle stmt

/-- What is ensured of a statement that is settled at once, and of a run that is walked in its place,
is ensured when it is settled. -/
theorem settleSplit_ensures {done rest : List Stmt} {P : Split → Prop}
    (hsettled : ∀ stmt progress ended,
      (walk.next stmt ((setting.cursor ⟨done, stmt :: rest⟩).site walk.file.path)).runFrom progress =
        (.ok none, ended) →
      (walkSlots walkNested (setting.cursor ⟨done, stmt :: rest⟩) (Slot.all stmt)).Ensures
        (Flow.Holds fun stmt => P ⟨done ++ [stmt], rest⟩))
    (hrun : ∀ captured run,
      (walkRun setting.deeper (rest.drop captured).length ⟨done, run ++ rest.drop captured⟩).Ensures
        (Flow.Holds P))
    (allowed : Nat) (stmt : Stmt) :
    (walk.settleSplit walkRun walkNested setting allowed ⟨done, stmt :: rest⟩).Ensures
      (Flow.Holds P) := by
  have hkept (stmt : Stmt)
      (h : (walkSlots walkNested (setting.cursor ⟨done, stmt :: rest⟩) (Slot.all stmt)).Ensures
        (Flow.Holds fun stmt => P ⟨done ++ [stmt], rest⟩)) :
      (walkSlots walkNested (setting.cursor ⟨done, stmt :: rest⟩) (Slot.all stmt) >>=
        (·.followedBy fun stmt => return .proceed (Split.mk (done ++ [stmt]) rest))).Ensures
          (Flow.Holds P) :=
    Flow.ensures_followedBy h fun stmt hP => .pure (Flow.holds_proceed.mpr hP)
  -- every expansion but a run leaves one statement in the same place, with fewer to follow
  induction allowed generalizing stmt with
  | zero =>
    unfold settleSplit
    simp only [Setting.stmt_cursor]
    refine ExpandM.Ensures.bind_run fun next progress ended hnext => ?_
    cases next with
    | none => exact hkept stmt (hsettled stmt progress ended hnext)
    | some bound => exact .throw _
  | succ allowed ih =>
    unfold settleSplit
    simp only [Setting.stmt_cursor]
    refine ExpandM.Ensures.bind_run fun next progress ended hnext => ?_
    cases next with
    | none => exact hkept stmt (hsettled stmt progress ended hnext)
    | some bound =>
      cases hdepth : decide (setting.depth ≤ walk.expander.config.maxDepth) with
      | false => exact .throw _
      | true =>
        exact (ExpandM.Ensures.trivial _).bind fun placement _ =>
          placeSplit_ensures ih (hrun bound.captured) placement

/-- What is ensured of every body that is walked is ensured of what its slot holds in the end, if
filling a slot does no harm to the other slots, nor to what is known of the statement itself. -/
theorem walkSlots_ensures {done rest : List Stmt} (own : Stmt → Prop) (held : Slot → Stmt → Prop)
    (walked : List Stmt → Prop)
    (hnested : ∀ stmt slot content, slot.content? stmt = some content →
      (walkNested ((setting.cursor ⟨done, stmt :: rest⟩).inside slot) setting.depth content.span
        content.statements 0 content.statements.length).Ensures
          (Flow.Holds fun last => walked last.statements))
    (hown : ∀ slot content stmt, own stmt → own (Slot.fill slot content stmt))
    (hfill : ∀ slot content stmt, slot ∈ Slot.all stmt → walked content.statements →
      held slot (slot.fill content stmt))
    (hkeep : ∀ slot other content stmt, other ≠ slot → held other stmt →
      held other (slot.fill content stmt)) {stmt : Stmt} (h : own stmt) :
    (walkSlots walkNested (setting.cursor ⟨done, stmt :: rest⟩) (Slot.all stmt)).Ensures
      (Flow.Holds fun last => own last ∧ ∀ slot ∈ Slot.all last, held slot last) := by
  -- what is known on the way: the slots that were walked already hold what they should
  suffices hslots : ∀ slots stmt, own stmt → (∀ slot ∈ slots, slot ∈ Slot.all stmt) →
      slots.Nodup → (∀ slot ∈ Slot.all stmt, slot ∉ slots → held slot stmt) →
      (walkSlots walkNested (setting.cursor ⟨done, stmt :: rest⟩) slots).Ensures
        (Flow.Holds fun last => own last ∧ ∀ slot ∈ Slot.all last, held slot last) from
    hslots _ stmt h (fun _ hslot => hslot) (Slot.nodup_all stmt) fun _ hslot hnot =>
      absurd hslot hnot
  intro slots
  induction slots with
  | nil =>
    intro stmt h _ _ hheld
    unfold walkSlots
    rw [Setting.stmt_cursor]
    exact .pure (Flow.holds_proceed.mpr ⟨h, fun slot hslot => hheld slot hslot List.not_mem_nil⟩)
  | cons slot slots ih =>
    intro stmt h hslots hnodup hheld
    obtain ⟨hslot, hnodup⟩ := List.nodup_cons.mp hnodup
    unfold walkSlots
    rw [Setting.stmt_cursor]
    cases hcontent : slot.content? stmt with
    | none =>
      have hmem := Slot.mem_all_iff.mp (hslots slot List.mem_cons_self)
      rw [hcontent] at hmem
      cases hmem
    | some content =>
      refine Flow.ensures_followedBy (hnested stmt slot content hcontent) fun last hlast => ?_
      simp only [Setting.withStmt_cursor]
      refine ih _ (hown slot _ stmt h) ?_ hnodup ?_
      · intro other hother
        rw [Slot.all_fill]
        exact hslots other (List.mem_cons_of_mem slot hother)
      · -- this slot holds what was walked, and the earlier ones are still what they were
        intro other hother hmem
        rw [Slot.all_fill] at hother
        by_cases hother' : other = slot
        · subst hother'
          exact hfill other _ stmt hother hlast
        · refine hkeep slot other _ stmt hother' (hheld other hother fun h => ?_)
          exact (List.mem_cons.mp h).elim hother' hmem

/-- Settling a statement walks on by at least one statement. -/
theorem settleSplit_advances (hrun : walkRun.Advances) (allowed : Nat) (split : Split)
    (hpos : 0 < split.todo.length) :
    (walk.settleSplit walkRun walkNested setting allowed split).Ensures (Flow.Holds fun last =>
      split.Reaches last ∧ last.todo.length < split.todo.length) := by
  obtain ⟨done, todo⟩ := split
  cases todo with
  | nil => exact absurd hpos (Nat.lt_irrefl 0)
  | cons first rest =>
    refine settleSplit_ensures (fun stmt _ _ _ => ?_) (fun captured run => ?_) allowed first
    · refine (Flow.ensures_trivial _).mono fun flow _ stmt _ => ?_
      exact ⟨.after ⟨done, first :: rest⟩ (.kept stmt), Nat.lt_succ_self _⟩
    · -- a run is walked until no more is left than what was behind it
      refine (hrun _ _ _).mono fun flow h last hlast => ?_
      obtain ⟨hreaches, hle⟩ := h last hlast
      have hinserted : ((Split.mk done (first :: rest)).insert captured run).Reaches last := hreaches
      refine ⟨(Split.Reaches.of_insert hinserted hle).1, ?_⟩
      simp only [List.length_drop] at hle
      exact Nat.lt_succ_of_le (Nat.le_trans hle (Nat.sub_le _ _))

/-- Enough steps lead to the end of a walk. -/
theorem walkSplit_advances (hrun : walkRun.Advances) (tail steps : Nat) (split : Split)
    (hsteps : split.todo.length ≤ tail + steps) :
    (walk.walkSplit walkRun walkNested setting tail steps split).Ensures (Flow.Holds fun last =>
      split.Reaches last ∧ last.todo.length ≤ tail) := by
  induction steps generalizing split with
  | zero => exact .pure (Flow.holds_proceed.mpr ⟨.refl split, hsteps⟩)
  | succ steps ih =>
    unfold walkSplit
    split
    · refine (ExpandM.Ensures.trivial _).bind fun _ _ => ?_
      refine Flow.ensures_followedBy (settleSplit_advances hrun _ _ (by omega)) fun middle h => ?_
      obtain ⟨hreaches, hlt⟩ := h
      -- at least one statement was settled, so the other steps are enough for the rest
      refine (ih middle (by omega)).mono fun flow h last hlast => ?_
      exact ⟨hreaches.trans (h last hlast).1, (h last hlast).2⟩
    · exact .pure (Flow.holds_proceed.mpr ⟨.refl split, by omega⟩)

/-- The walk of a parted sequence settles statements until few enough are left. -/
theorem splitWalk_advances (file : FileWalk σ) (nesting : Nat) :
    (file.splitWalk nesting).Advances := by
  cases nesting with
  | zero => exact fun _ _ _ => .throw _
  | succ nesting =>
    exact fun setting tail split =>
      walkSplit_advances (splitWalk_advances file nesting) tail _ split (by omega)

end FileWalk

/-! ## Walking in two parts -/

/-- What follows a part has to be the same only for values that the part ensures. -/
theorem Flow.followedBy_congr {σ α β : Type} {P : α → Prop} {program : ExpandM σ (Flow α)}
    {next next' : α → ExpandM σ (Flow β)} (h : program.Ensures (Flow.Holds P))
    (hnext : ∀ value, P value → next value = next' value) :
    program >>= (·.followedBy next) = program >>= (·.followedBy next') := by
  refine ExpandM.ext fun progress => ?_
  rcases hrun : program.runFrom progress with ⟨stop | flow, middle⟩
  · rw [ExpandM.runFrom_bind_of_error hrun, ExpandM.runFrom_bind_of_error hrun]
  · rw [ExpandM.runFrom_bind_of_ok hrun, ExpandM.runFrom_bind_of_ok hrun]
    cases flow with
    | proceed value => exact congrArg (·.runFrom middle) (hnext value (h _ _ _ hrun value rfl))
    | replaceFunction decl => rfl

namespace FileWalk

variable {σ : Type} {walk : FileWalk σ} {walkRun : SplitWalk σ} {walkNested : SequenceWalk σ}
  {setting : Setting} {tail steps : Nat} {split : Split}

/-- Nothing is done where few enough statements are left. -/
theorem walkSplit_of_le (h : split.todo.length ≤ tail) (steps : Nat) :
    walk.walkSplit walkRun walkNested setting tail steps split = pure (.proceed split) := by
  cases steps with
  | zero => rfl
  | succ steps =>
    unfold walkSplit
    rw [if_neg (Nat.not_lt_of_le h)]

/-- Else the next statement is settled. -/
theorem walkSplit_of_lt (h : tail < split.todo.length) (steps : Nat) :
    walk.walkSplit walkRun walkNested setting tail (steps + 1) split =
      walk.poll (setting.cursor split) >>= fun _ =>
        walk.settleSplit walkRun walkNested setting walk.expander.config.maxDepth split >>=
          (·.followedBy (walk.walkSplit walkRun walkNested setting tail steps)) := by
  rw [walkSplit, if_pos h]

/-- However many steps are allowed, they make no difference once there are enough. -/
theorem walkSplit_enough (hrun : walkRun.Advances) {steps' : Nat}
    (hsteps : split.todo.length ≤ tail + steps) (hsteps' : split.todo.length ≤ tail + steps') :
    walk.walkSplit walkRun walkNested setting tail steps split =
      walk.walkSplit walkRun walkNested setting tail steps' split := by
  induction steps generalizing steps' split with
  | zero =>
    have hle : split.todo.length ≤ tail := hsteps
    rw [walkSplit_of_le hle, walkSplit_of_le hle]
  | succ steps ih =>
    by_cases hlt : tail < split.todo.length
    · obtain ⟨steps', rfl⟩ : ∃ fewer, steps' = fewer + 1 := ⟨steps' - 1, by omega⟩
      rw [walkSplit_of_lt hlt, walkSplit_of_lt hlt]
      congr 1
      funext _
      refine Flow.followedBy_congr (settleSplit_advances hrun _ split (by omega)) fun middle h => ?_
      exact ih (by omega) (by omega)
    · rw [walkSplit_of_le (Nat.le_of_not_lt hlt), walkSplit_of_le (Nat.le_of_not_lt hlt)]

/-- A sequence can be walked in two parts. -/
theorem walkSplit_in_parts (hrun : walkRun.Advances) {tail' steps' : Nat} (htail : tail' ≤ tail)
    (hsteps : split.todo.length ≤ tail + steps) (hsteps' : split.todo.length ≤ tail' + steps') :
    walk.walkSplit walkRun walkNested setting tail' steps' split =
      walk.walkSplit walkRun walkNested setting tail steps split >>=
        (·.followedBy fun middle => walk.walkSplit walkRun walkNested setting tail'
          (middle.todo.length - tail') middle) := by
  induction steps generalizing steps' split with
  | zero =>
    have hle : split.todo.length ≤ tail := hsteps
    rw [walkSplit_of_le hle]
    exact walkSplit_enough hrun hsteps' (by omega)
  | succ steps ih =>
    by_cases hlt : tail < split.todo.length
    · obtain ⟨steps', rfl⟩ : ∃ fewer, steps' = fewer + 1 := ⟨steps' - 1, by omega⟩
      rw [walkSplit_of_lt hlt, walkSplit_of_lt (Nat.lt_of_le_of_lt htail hlt), bind_assoc]
      congr 1
      funext _
      rw [Flow.bind_followedBy_assoc]
      refine Flow.followedBy_congr (settleSplit_advances hrun _ split (by omega)) fun middle h => ?_
      exact ih (by omega) (by omega)
    · rw [walkSplit_of_le (Nat.le_of_not_lt hlt)]
      exact walkSplit_enough hrun hsteps' (by omega)

/-- Nothing is walked where few enough statements are left. -/
theorem splitWalk_of_le (file : FileWalk σ) (nesting : Nat) (setting : Setting) (done : List Stmt)
    {todo : List Stmt} (h : todo.length ≤ tail) :
    file.splitWalk (nesting + 1) setting tail ⟨done, todo⟩ = pure (.proceed ⟨done, todo⟩) :=
  walkSplit_of_le h _

/-- Else the next statement is settled, and the walk goes on behind it. -/
theorem splitWalk_of_lt (file : FileWalk σ) (nesting : Nat) (setting : Setting) (done : List Stmt)
    {todo : List Stmt} (h : tail < todo.length) :
    file.splitWalk (nesting + 1) setting tail ⟨done, todo⟩ =
      file.poll (setting.cursor ⟨done, todo⟩) >>= fun _ =>
        file.settleSplit (file.splitWalk nesting) (file.splitWalk nesting).onSequence setting
            file.expander.config.maxDepth ⟨done, todo⟩ >>=
          (·.followedBy (file.splitWalk (nesting + 1) setting tail)) := by
  obtain ⟨steps, hsteps⟩ : ∃ steps, todo.length - tail = steps + 1 :=
    ⟨todo.length - tail - 1, by omega⟩
  change file.walkSplit _ _ setting tail (todo.length - tail) ⟨done, todo⟩ = _
  rw [hsteps, walkSplit_of_lt h]
  congr 1
  funext _
  refine Flow.followedBy_congr (settleSplit_advances (splitWalk_advances file nesting) _ _
    (Nat.zero_lt_of_lt h)) fun middle hmiddle => ?_
  have hlength : middle.todo.length < todo.length := hmiddle.2
  exact walkSplit_enough (splitWalk_advances file nesting) (by omega) (by omega)

/-- Walking until less is left is walking until more is left first. -/
theorem splitWalk_in_parts (file : FileWalk σ) (nesting : Nat) (setting : Setting) {tail' : Nat}
    (htail : tail' ≤ tail) (split : Split) :
    file.splitWalk (nesting + 1) setting tail' split =
      file.splitWalk (nesting + 1) setting tail split >>=
        (·.followedBy (file.splitWalk (nesting + 1) setting tail')) :=
  walkSplit_in_parts (splitWalk_advances file nesting) htail (by omega) (by omega)

end FileWalk

end MacroExpansion
