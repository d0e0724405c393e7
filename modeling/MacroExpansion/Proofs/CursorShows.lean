import MacroExpansion.Proofs.SplitWalk

/-! # What a cursor shows

A cursor works on a sequence as it was at first, with splices pending in it. `Cursor.Shows` says
which parted sequence that is: the pending splices turn the part of the sequence before the cursor
into the settled statements, and leave the rest as it is. What is seen at the cursor depends on the
parted sequence only, and so does its place (`Cursor.place`); every step of the cursor is a step of
the parted sequence. A walk that goes by what is shown (`FileWalk.GoesByShown`) is the same at every
cursor that shows the sequence. -/

namespace MacroExpansion

/-! ## Pending splices -/

namespace SpliceStack

variable {α : Type}

/-- Splices are carried out one part after the other. -/
theorem run_append (reckoning : Reckoning) (first second : List (PendingSplice α)) (delta : Int)
    (items : List α) :
    run reckoning (first ++ second) delta items =
      run reckoning second (run reckoning first delta items).2
        (run reckoning first delta items).1 := by
  induction first generalizing delta items with
  | nil => rfl
  | cons splice rest ih => exact ih _ _

/-- A splice over elements that stand right behind `front` once the splices before it are carried
out. -/
theorem run_one (front removed behind : List α) (splice : PendingSplice α)
    (h : removed.length = splice.deleted) :
    run .unbounded [splice] ((front.length : Int) - splice.index) (front ++ (removed ++ behind)) =
      (front ++ splice.replacement ++ behind,
        (front.length : Int) - splice.index + (splice.replacement.length - splice.deleted)) := by
  -- the growth so far moves the splice to the end of the front
  have hstart : min ((splice.index : Int) + ((front.length : Int) - splice.index)).toNat
      (front ++ (removed ++ behind)).length = front.length := by
    simp only [List.length_append]
    omega
  have hstop : min (front.length + splice.deleted) (front ++ (removed ++ behind)).length =
      front.length + splice.deleted := by
    simp only [List.length_append]
    omega
  simp only [run, Reckoning.wrap_unbounded, hstart, hstop, List.take_left']
  rw [← h, List.drop_length_add_append, List.drop_left, Nat.add_sub_cancel_left]

/-- A splice behind all others is carried out last. -/
theorem insertInOrder_of_le {splice : PendingSplice α} {others : List (PendingSplice α)}
    (h : ∀ other ∈ others, other.index ≤ splice.index) :
    splice.insertInOrder others = others ++ [splice] := by
  induction others with
  | nil => rfl
  | cons other rest ih =>
    rw [PendingSplice.insertInOrder, if_pos (h other List.mem_cons_self),
      ih fun later hmem => h later (List.mem_cons_of_mem other hmem), List.cons_append]

end SpliceStack

namespace Cursor

/-- Settling a statement does not change the length of the sequence as it was at first. -/
@[simp] theorem length_after (cursor : Cursor) (settled : Settled) :
    (cursor.after settled).statements.length = cursor.statements.length := by
  cases settled with
  | kept stmt => exact List.length_set
  | spliced deleted run => rfl

/-- A cursor shows a parted sequence: with its pending splices what is before the cursor reads as
the settled statements, and what is behind them is still as it was at first. -/
structure Shows (cursor : Cursor) (setting : Setting) (split : Split) : Prop where
  scope : cursor.scope = setting.scope
  depth : cursor.depth = setting.depth
  span : cursor.span = setting.span
  reckoning : cursor.splices.reckoning = .unbounded
  index_le : cursor.index ≤ cursor.statements.length
  before : ∀ splice ∈ cursor.splices.pending, splice.index < cursor.index
  growth : PendingSplice.totalDelta .unbounded cursor.splices.pending =
    (split.done.length : Int) - cursor.index
  apply : ∀ ahead, cursor.splices.apply (cursor.statements.take cursor.index ++ ahead) =
    (split.done ++ ahead, (split.done.length : Int) - cursor.index)
  todo : cursor.statements.drop cursor.index = split.todo

namespace Shows

variable {cursor : Cursor} {setting : Setting} {split : Split}

/-- Without pending splices the settled statements are those before the cursor. -/
theorem initial (setting : Setting) (statements : List Stmt) (index : Nat)
    (h : index ≤ statements.length) :
    Shows ⟨setting.scope, setting.depth, setting.span, statements, {}, index⟩ setting
      ⟨statements.take index, statements.drop index⟩ where
  scope := rfl
  depth := rfl
  span := rfl
  reckoning := rfl
  index_le := h
  before := fun _ hmem => nomatch hmem
  growth := by simp [PendingSplice.totalDelta, h]
  apply := by simp [SpliceStack.apply, SpliceStack.run, h]
  todo := rfl

/-- The cursor of a parted sequence shows it. -/
theorem of_split (setting : Setting) (split : Split) :
    (setting.cursor split).Shows setting split := by
  have h := initial setting split.statements split.done.length (by simp [Split.statements])
  simp only [Split.statements, List.take_left', List.drop_left'] at h
  exact h

/-- The cursor stands before the statements to come. -/
theorem index_add_length (h : cursor.Shows setting split) :
    cursor.index + split.todo.length = cursor.statements.length := by
  have hindex := h.index_le
  rw [← h.todo, List.length_drop]
  omega

/-! ### What is seen at the cursor -/

/-- The block that is shown is the parted sequence. -/
theorem block (h : cursor.Shows setting split) : cursor.block = ⟨split.statements, setting.span⟩ := by
  have happly := congrArg Prod.fst (h.apply split.todo)
  rw [← h.todo, List.take_append_drop] at happly
  rw [Cursor.block, SpliceStack.preview, happly, h.span, h.todo, Split.statements]

/-- In the block that is shown, the cursor stands behind the settled statements. -/
theorem blockIndex (h : cursor.Shows setting split) : cursor.blockIndex = split.done.length := by
  have hfilter : cursor.splices.pending.filter (·.index < cursor.index) = cursor.splices.pending :=
    List.filter_eq_self.mpr fun splice hmem => decide_eq_true (h.before splice hmem)
  simp only [Cursor.blockIndex, SpliceStack.shifted, hfilter, h.reckoning, h.growth,
    Reckoning.wrap_unbounded]
  omega

/-- A walk that stops at the cursor leaves the parted sequence. -/
theorem walked (h : cursor.Shows setting split) {length : Nat}
    (hlength : cursor.statements.length = length) :
    (⟨cursor.block.statements, cursor.index⟩ : Walked) =
      ⟨split.statements, length - split.todo.length⟩ := by
  have hindex := h.index_add_length
  rw [h.block, Walked.mk.injEq]
  exact ⟨rfl, by omega⟩

/-- The statement at the cursor is the first one to come. -/
theorem stmt (h : cursor.Shows setting split) : cursor.stmt = (split.todo[0]?).getD default := by
  rw [Cursor.stmt, ← h.todo, List.getElem?_drop, Nat.add_zero]

/-- The function that is shown holds the parted sequence. -/
theorem function? (h : cursor.Shows setting split) :
    cursor.function? = setting.scope.function.map (·.plug ⟨split.statements, setting.span⟩) := by
  rw [Cursor.function?, h.scope, h.block]

/-- What a macro sees does not depend on the cursor that shows the sequence. -/
theorem site_eq {other : Cursor} (h : cursor.Shows setting split)
    (h' : other.Shows setting split) (path : String) : cursor.site path = other.site path := by
  funext call
  simp only [Cursor.site, Cursor.enclosing, h.scope, h'.scope, h.function?, h'.function?, h.block,
    h'.block, h.blockIndex, h'.blockIndex, h.stmt, h'.stmt]

/-- What surrounds the nested statements does not depend on it either. -/
theorem inside_eq {other : Cursor} (h : cursor.Shows setting split)
    (h' : other.Shows setting split) (slot : Slot) : cursor.inside slot = other.inside slot := by
  simp only [Cursor.inside, h.scope, h'.scope, h.block, h'.block, h.blockIndex, h'.blockIndex,
    h.span, h'.span, h.stmt, h'.stmt]

/-- The statements that follow a call are those behind the next one. -/
theorem following (h : cursor.Shows setting split) (path : String) (call : Call) :
    (cursor.site path call).following = split.todo.tail := by
  change cursor.block.statements.drop (cursor.blockIndex + 1) = split.todo.tail
  rw [h.block, h.blockIndex, Split.statements, List.drop_length_add_append, List.drop_one]

/-! ### Steps of the cursor -/

/-- The statement of the cursor is not reached by the pending splices. -/
theorem withStmt (h : cursor.Shows setting split) (stmt : Stmt) :
    (cursor.withStmt stmt).Shows setting (split.withStmt stmt) where
  scope := h.scope
  depth := h.depth
  span := h.span
  reckoning := h.reckoning
  index_le := by simpa [Cursor.withStmt] using h.index_le
  before := h.before
  growth := h.growth
  apply := by simpa [Cursor.withStmt, List.take_set_of_le] using h.apply
  todo := by simp [Cursor.withStmt, Split.withStmt, List.drop_set, h.todo]

/-- A statement that is kept joins the settled ones. -/
theorem next {done rest : List Stmt} {stmt : Stmt}
    (h : cursor.Shows setting ⟨done, stmt :: rest⟩) :
    cursor.next.Shows setting ⟨done ++ [stmt], rest⟩ where
  scope := h.scope
  depth := h.depth
  span := h.span
  reckoning := h.reckoning
  index_le := by
    have hlength := congrArg List.length h.todo
    simp only [List.length_drop, List.length_cons] at hlength
    change cursor.index + 1 ≤ cursor.statements.length
    omega
  before := fun splice hmem => Nat.lt_succ_of_lt (h.before splice hmem)
  growth := by
    have hgrowth := h.growth
    simp only [Cursor.next, List.length_append, List.length_singleton] at hgrowth ⊢
    omega
  apply := by
    intro ahead
    have htake : cursor.statements.take (cursor.index + 1) =
        cursor.statements.take cursor.index ++ [stmt] := by
      rw [List.take_add, h.todo, List.take_one, List.head?_cons, Option.toList_some]
    -- the splices leave the statement where it is, with all that is ahead of it
    simp only [Cursor.next, htake, List.append_assoc, h.apply, List.length_append,
      List.length_singleton, Prod.mk.injEq, true_and]
    omega
  todo := by
    change cursor.statements.drop (cursor.index + 1) = rest
    rw [← List.drop_drop, h.todo, List.drop_one, List.tail_cons]

/-- What is spliced in at the cursor comes behind all pending splices. -/
theorem pending_spliceOver (h : cursor.Shows setting split) {deleted : Nat} {run : List Stmt} :
    (cursor.spliceOver deleted run).splices.pending =
      cursor.splices.pending ++ [⟨cursor.index, deleted, run⟩] :=
  SpliceStack.insertInOrder_of_le fun splice hmem => Nat.le_of_lt (h.before splice hmem)

/-- A run that is spliced in joins the settled statements. -/
theorem spliceOver (h : cursor.Shows setting split) {deleted : Nat} (run : List Stmt)
    (hpos : 0 < deleted) (hle : deleted ≤ split.todo.length) :
    (cursor.spliceOver deleted run).Shows setting (split.after (.spliced deleted run)) where
  scope := h.scope
  depth := h.depth
  span := h.span
  reckoning := h.reckoning
  index_le := by
    have hlength := congrArg List.length h.todo
    have hindex := h.index_le
    simp only [List.length_drop] at hlength
    change cursor.index + deleted ≤ cursor.statements.length
    omega
  before := by
    intro splice hmem
    rw [pending_spliceOver h, List.mem_append, List.mem_singleton] at hmem
    change splice.index < cursor.index + deleted
    rcases hmem with hmem | rfl
    · exact Nat.lt_add_right deleted (h.before splice hmem)
    · exact Nat.lt_add_of_pos_right hpos
  growth := by
    have hgrowth := h.growth
    rw [pending_spliceOver h, PendingSplice.totalDelta_append, hgrowth]
    simp only [Cursor.spliceOver, Split.after, PendingSplice.totalDelta, PendingSplice.delta,
      Reckoning.wrap_unbounded, List.length_append]
    omega
  apply := by
    intro ahead
    have htake : cursor.statements.take (cursor.index + deleted) =
        cursor.statements.take cursor.index ++ split.todo.take deleted := by
      rw [List.take_add, h.todo]
    change SpliceStack.apply _ (cursor.statements.take (cursor.index + deleted) ++ ahead) = _
    -- the other splices are carried out first, then the new one right behind the settled statements
    have hbefore := h.apply (split.todo.take deleted ++ ahead)
    rw [SpliceStack.apply, h.reckoning] at hbefore
    have hreckoning : (cursor.spliceOver deleted run).splices.reckoning = .unbounded := h.reckoning
    rw [htake, List.append_assoc, SpliceStack.apply, pending_spliceOver h, hreckoning,
      SpliceStack.run_append, hbefore, SpliceStack.run_one _ _ _ _ (List.length_take_of_le hle)]
    simp only [Split.after, Cursor.spliceOver, List.append_assoc, List.length_append, Prod.mk.injEq,
      true_and]
    omega
  todo := by
    change cursor.statements.drop (cursor.index + deleted) = split.todo.drop deleted
    rw [← List.drop_drop, h.todo]

/-- Settling a statement leads to a cursor that shows the sequence parted behind it. -/
theorem after (h : cursor.Shows setting split) {settled : Settled}
    (fits : settled.Fits split.todo.length) :
    (cursor.after settled).Shows setting (split.after settled) := by
  obtain ⟨done, todo⟩ := split
  cases settled with
  | kept stmt =>
    cases todo with
    | nil => exact absurd fits (Nat.lt_irrefl 0)
    | cons first rest => exact (h.withStmt stmt).next
  | spliced deleted run => exact h.spliceOver run fits.1 fits.2

end Shows

/-! ### The place of the cursor -/

end Cursor

/-- Where a statement of a walked sequence stands. -/
structure Place where
  /-- Where the sequence is walked. -/
  setting : Setting
  /-- The settled statements before it. -/
  done : List Stmt
  /-- The statement, as the walk comes to it. -/
  stmt : Stmt
  /-- The statements behind it. -/
  rest : List Stmt

namespace Cursor

/-- The place of a cursor in the sequence as it reads with the pending splices. -/
def place (cursor : Cursor) : Place where
  setting := ⟨cursor.scope, cursor.depth, cursor.span⟩
  done := cursor.block.statements.take cursor.blockIndex
  stmt := cursor.stmt
  rest := cursor.block.statements.drop (cursor.blockIndex + 1)

/-- The place of a cursor is between the settled statements and those to come. -/
theorem Shows.place {cursor : Cursor} {setting : Setting} {split : Split}
    (h : cursor.Shows setting split) :
    cursor.place = ⟨setting, split.done, (split.todo[0]?).getD default, split.todo.tail⟩ := by
  rw [Cursor.place, h.scope, h.depth, h.span, h.stmt, h.block, h.blockIndex, Split.statements,
    List.take_left, List.drop_length_add_append, List.drop_one]

/-! ### Slots at the cursor -/

variable {setting : Setting} {done rest : List Stmt} {stmt : Stmt} {slot : Slot}

/-- The level that a slot is entered from, with other content in the slot. -/
theorem plug_level (content : Block) :
    Level.plug
        { statements := (setting.cursor ⟨done, stmt :: rest⟩).block.statements
          span := setting.span
          index := (setting.cursor ⟨done, stmt :: rest⟩).blockIndex
          slot } content =
      ⟨done ++ slot.fill content stmt :: rest, setting.span⟩ := by
  have hshows := Shows.of_split setting ⟨done, stmt :: rest⟩
  rw [Level.plug, hshows.block, hshows.blockIndex, Split.statements, modify_append,
    if_neg (Nat.lt_irrefl _), Nat.sub_self, List.modify_zero_cons]

/-- Content in a slot shows the function that the sequence shows with the slot filled. -/
theorem function_inside (content : Block) :
    ((setting.cursor ⟨done, stmt :: rest⟩).inside slot).function.map (·.plug content) =
      setting.scope.function.map
        (·.plug ⟨done ++ slot.fill content stmt :: rest, setting.span⟩) := by
  rw [← plug_level]
  exact Option.map_map ..

end Cursor

/-! ## Walks that go by what is shown -/

namespace FileWalk

/-- A walk that goes by the statements and not by the positions that a cursor has: what it does before
a statement is the same at every cursor that shows the sequence, and the calls that it finds captured
only what follows them. -/
structure GoesByShown {σ : Type} (walk : FileWalk σ) : Prop where
  poll {cursor : Cursor} {setting : Setting} {split : Split} (h : cursor.Shows setting split) :
    walk.poll cursor = walk.poll (setting.cursor split)
  captures : walk.Captures

/-- An expansion asks the host before a statement, whatever the statement is. -/
theorem goesByShown_of_expansion {σ : Type} (expander : Expander) (file : FileOrigin) :
    GoesByShown (σ := σ) { expander, file } where
  poll _ := rfl
  captures := captures_of_expansion expander file

end FileWalk

/-! ## Names of members -/

/-- Whether a slot is the body of a lambda. -/
def Slot.isLambda : Slot → Bool
  | .lambda _ => true
  | _ => false

/-- The name of the nearest member of a scope; a function goes by the name that it has in the
scope. -/
def Scope.memberName (scope : Scope) : String :=
  match scope.enclosing, scope.function with
  | .function _, some context => context.decl.name
  | other, _ => other.memberName

/-- What surrounds a cursor goes by the name that it has in its scope. -/
theorem Cursor.memberName_enclosing (cursor : Cursor) :
    cursor.enclosing.memberName = cursor.scope.memberName := by
  unfold enclosing function? Scope.memberName
  rcases cursor.scope with ⟨_ | _ | _ | _, _ | _⟩ <;> rfl

/-- The body of a lambda has a name of its own, other slots belong to the member around the
statement. -/
theorem Cursor.memberName_inside {cursor : Cursor} {slot : Slot} {held : Block}
    (hslot : slot.content? cursor.stmt = some held) :
    (cursor.inside slot).memberName =
      if slot.isLambda then "<lambda>" else cursor.scope.memberName := by
  -- the function around the cursor keeps its name when a slot is entered
  have hentered : Scope.memberName ⟨cursor.scope.enclosing, (cursor.inside slot).function⟩ =
      cursor.scope.memberName := by
    unfold Scope.memberName inside
    rcases cursor.scope with ⟨_ | _ | _ | _, _ | _⟩ <;> rfl
  cases slot with
  | lambda n =>
    obtain ⟨lambda, hlambda, -⟩ := Option.map_eq_some_iff.mp hslot
    have henclosing : (cursor.inside (.lambda n)).enclosing = .lambda lambda := by
      simp [inside, hlambda]
    simp [Scope.memberName, henclosing, Slot.isLambda, Enclosing.memberName]
  | _ => exact hentered

end MacroExpansion
