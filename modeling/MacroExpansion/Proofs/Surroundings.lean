import MacroExpansion.Proofs.CursorShows
import MacroExpansion.Proofs.Pause

/-! # What surrounds a site

A macro sees the function around its call as it stands: with every expansion so far in its place, in
all the bodies around the call. The cursor gets this function from the snapshots that were taken
when the bodies were entered; the walk itself never builds it, but puts one body after the other
back in its place. The nearest lambda around the call is such a snapshot itself (`Site.IsWithin`): it
is not rewritten along with its body.

`Site.Sees` relates a site to a block around it: the site sees the block in the place where the walk
puts it. It holds where a call is found (`sees_cursor`), and what is seen in the content of a slot is
seen in the block around its statement (`Site.Sees.of_inside`). -/

namespace MacroExpansion

variable {σ : Type}

/-! ## Levels -/

/-- A level at whose position there is a statement with the slot, so that the slot can be filled. -/
def Level.HasSlot (level : Level) : Prop :=
  ∃ stmt content, level.statements[level.index]? = some stmt ∧
    level.slot.content? stmt = some content

/-- The lambda that is entered from a level, as it read by then. -/
def Level.lambda? (level : Level) : Option Lambda :=
  match level.slot with
  | .lambda n => level.statements[level.index]?.bind (·.ownLambdas[n]?)
  | _ => none

/-- A lambda is entered wherever the slot is the body of one. -/
theorem Level.HasSlot.isSome_lambda? {level : Level} (h : level.HasSlot) :
    level.lambda?.isSome = level.slot.isLambda := by
  obtain ⟨stmt, content, hstmt, hcontent⟩ := h
  unfold lambda?
  cases hslot : level.slot with
  | lambda n =>
    rw [hslot] at hcontent
    obtain ⟨lambda, hlambda, -⟩ := Option.map_eq_some_iff.mp hcontent
    simp [hstmt, hlambda, Slot.isLambda]
  | _ => rfl

/-- The name of the nearest member, when some levels lie between the code and a member: lambdas have
a name of their own. -/
def nameWithin (member : String) (levels : List Level) : String :=
  if levels.any (·.slot.isLambda) then "<lambda>" else member

/-- The nearest lambda around a block in some levels, innermost first: as it read when it was
entered, together with its body as it reads with the block in its place. -/
def lambdaAround? : List Level → Block → Option (Lambda × Block)
  | [], _ => none
  | level :: outer, block =>
      match level.lambda? with
      | some lambda => some (lambda, block)
      | none => lambdaAround? outer (level.plug block)

/-- Levels further out make a difference only where no lambda is nearer. -/
theorem lambdaAround?_append (inner outer : List Level) (block : Block) :
    lambdaAround? (inner ++ outer) block =
      (lambdaAround? inner block).or
        (lambdaAround? outer (inner.foldl (fun body level => level.plug body) block)) := by
  induction inner generalizing block with
  | nil => rfl
  | cons level inner ih =>
    rw [List.cons_append, lambdaAround?, lambdaAround?, List.foldl_cons]
    cases level.lambda? with
    | some lambda => rfl
    | none => exact ih (level.plug block)

/-- The nearest member or lambda around a block in some levels of a member. A lambda reads as it did
when it was entered. -/
def Enclosing.entered (member : Enclosing) (levels : List Level) (block : Block) : Enclosing :=
  (lambdaAround? levels block).elim member fun near => .lambda near.1

/-- The nearest member or lambda goes by the name that the levels tell. -/
theorem Enclosing.memberName_entered (member : Enclosing) {levels : List Level}
    (h : ∀ level ∈ levels, level.HasSlot) (block : Block) :
    (member.entered levels block).memberName = nameWithin member.memberName levels := by
  induction levels generalizing block with
  | nil => rfl
  | cons level outer ih =>
    have hlambda := (h level List.mem_cons_self).isSome_lambda?
    have houter := ih (fun other hmem => h other (List.mem_cons_of_mem level hmem)) (level.plug block)
    unfold entered lambdaAround? nameWithin
    rw [List.any_cons, ← hlambda]
    cases level.lambda? with
    | some lambda => rfl
    | none => exact houter

/-- The nearest member or lambda of a scope with a block in it; a function reads with the block in its
place. -/
def Scope.enclosingWith (scope : Scope) (block : Block) : Enclosing :=
  match scope.enclosing, scope.function.map (·.plug block) with
  | .function _, some current => .function current
  | other, _ => other

/-! ## Sites in a scope -/

/-- In a walk of a block that starts with `entered` invocations on record, the invocation takes place
at the site, and the walk has made the second block of the first one by then. -/
def FileWalk.PausesIn (walk : FileWalk (Recording σ)) (entered count : Nat) (site : Site)
    (scope : Scope) (before now : Block) : Prop :=
  ∃ (nesting depth : Nat) (walked : Walked), now = ⟨walked.statements, before.span⟩ ∧
    ExpandM.PausesAt entered count
      (walk.walk nesting scope depth before.span before.statements 0 before.statements.length)
      (fun fuel => (walk.pausedAt count).walk fuel scope depth before.span before.statements 0
        before.statements.length) site (.proceed walked)

/-- A site within some levels of a member. -/
structure Site.IsWithin (walk : FileWalk (Recording σ)) (count : Nat) (site : Site)
    (member : Enclosing) (levels : List Level) : Prop where
  /-- Every level has the slot that it is entered by. -/
  slots : ∀ level ∈ levels, level.HasSlot
  /-- The site shows the nearest lambda as it was entered, or the member if there is none. -/
  enclosing : site.enclosing = member.entered levels site.block
  /-- The walk of the body of the lambda that is shown has come to the body as it reads now. -/
  walked : ∀ lambda body, lambdaAround? levels site.block = some (lambda, body) →
    ∃ scope, scope.enclosing = .lambda lambda ∧
      ∃ entered ≤ count, walk.PausesIn entered count site scope lambda.asBody body

/-- What is seen at a site somewhere in a block, when the block stands in a scope. -/
structure Site.Sees (walk : FileWalk (Recording σ)) (count : Nat) (site : Site) (scope : Scope)
    (block : Block) : Prop where
  /-- The site sees the function around the scope with the block in its place. -/
  function : site.function = scope.function.map (·.plug block)
  /-- The block of the site fills a slot in the block, or is the block. -/
  placed : ∃ levels : List Level, site.IsWithin walk count (scope.enclosingWith block) levels ∧
    block = levels.foldl (fun body level => level.plug body) site.block
  /-- The statement of the site stands in its block. -/
  statement : site.block.statements[site.index]? = some site.statement
  /-- The call is one of the statement's own. -/
  call : site.call ∈ site.statement.ownCalls

variable {walk : FileWalk (Recording σ)} {count : Nat}

/-- The block of the site fills a slot in the block, or is the block. -/
theorem Site.Sees.nested {site : Site} {scope : Scope} {block : Block}
    (h : site.Sees walk count scope block) :
    ∃ levels : List Level, (∀ level ∈ levels, level.HasSlot) ∧
      block = levels.foldl (fun body level => level.plug body) site.block := by
  obtain ⟨levels, hwithin, hblock⟩ := h.placed
  exact ⟨levels, hwithin.slots, hblock⟩

variable {setting : Setting} {done rest : List Stmt} {stmt : Stmt}

/-- At a cursor the block is the one that it stands in. -/
theorem sees_cursor (path : String) {call : Call} (h : call ∈ stmt.ownCalls) :
    ((setting.cursor ⟨done, stmt :: rest⟩).site path call).Sees walk count setting.scope
      ⟨done ++ stmt :: rest, setting.span⟩ := by
  have hshows := Cursor.Shows.of_split setting ⟨done, stmt :: rest⟩
  have hfunction : ((setting.cursor ⟨done, stmt :: rest⟩).site path call).function =
      setting.scope.function.map (·.plug ⟨done ++ stmt :: rest, setting.span⟩) := hshows.function?
  have hblock : ((setting.cursor ⟨done, stmt :: rest⟩).site path call).block =
      ⟨done ++ stmt :: rest, setting.span⟩ := hshows.block
  have henclosing : ((setting.cursor ⟨done, stmt :: rest⟩).site path call).enclosing =
      setting.scope.enclosingWith ⟨done ++ stmt :: rest, setting.span⟩ := by
    change (setting.cursor ⟨done, stmt :: rest⟩).enclosing = _
    unfold Cursor.enclosing
    rw [hshows.function?]
    rfl
  refine ⟨hfunction, ⟨[], ⟨?_, henclosing, nofun⟩, hblock.symm⟩, ?_, ?_⟩
  · exact fun _ hmem => absurd hmem List.not_mem_nil
  · have hindex : ((setting.cursor ⟨done, stmt :: rest⟩).site path call).index = done.length :=
      hshows.blockIndex
    have hstmt : ((setting.cursor ⟨done, stmt :: rest⟩).site path call).statement = stmt :=
      Setting.stmt_cursor setting done rest stmt
    rw [hblock, hindex, hstmt, List.getElem?_append_right (Nat.le_refl _), Nat.sub_self,
      List.getElem?_cons_zero]
  · change call ∈ (setting.cursor ⟨done, stmt :: rest⟩).stmt.ownCalls
    rwa [Setting.stmt_cursor]

/-- The level that a slot of the statement is entered from. -/
def Setting.level (setting : Setting) (done rest : List Stmt) (stmt : Stmt) (slot : Slot) : Level where
  statements := (setting.cursor ⟨done, stmt :: rest⟩).block.statements
  span := setting.span
  index := (setting.cursor ⟨done, stmt :: rest⟩).blockIndex
  slot := slot

/-- At the position of the level there is the statement. -/
theorem Setting.getElem?_level (slot : Slot) :
    (setting.level done rest stmt slot).statements[(setting.level done rest stmt slot).index]? =
      some stmt := by
  have hshows := Cursor.Shows.of_split setting ⟨done, stmt :: rest⟩
  change (setting.cursor ⟨done, stmt :: rest⟩).block.statements[
    (setting.cursor ⟨done, stmt :: rest⟩).blockIndex]? = some stmt
  rw [hshows.block, hshows.blockIndex, Split.statements,
    List.getElem?_append_right (Nat.le_refl _), Nat.sub_self, List.getElem?_cons_zero]

/-- The lambda that is entered is one of the statement. -/
theorem Setting.lambda?_level (n : Nat) :
    (setting.level done rest stmt (.lambda n)).lambda? = stmt.ownLambdas[n]? := by
  unfold Level.lambda?
  rw [setting.getElem?_level]
  rfl

/-- The lambda is the nearest member of its own body. -/
theorem Setting.enclosing_inside_lambda (n : Nat) :
    ((setting.cursor ⟨done, stmt :: rest⟩).inside (.lambda n)).enclosing =
      ((stmt.ownLambdas[n]?).map .lambda).getD setting.scope.enclosing := by
  unfold Cursor.inside
  rw [Setting.stmt_cursor]
  rfl

/-- What surrounds the content of a slot is the lambda that is entered, or what surrounds the block of
the statement. -/
theorem Setting.enclosingWith_inside (slot : Slot) (content : Block) :
    ((setting.cursor ⟨done, stmt :: rest⟩).inside slot).enclosingWith content =
      (setting.scope.enclosingWith ⟨done ++ slot.fill content stmt :: rest, setting.span⟩).entered
        [setting.level done rest stmt slot] content := by
  have houter : Scope.enclosingWith
      ⟨setting.scope.enclosing, ((setting.cursor ⟨done, stmt :: rest⟩).inside slot).function⟩ content =
        setting.scope.enclosingWith ⟨done ++ slot.fill content stmt :: rest, setting.span⟩ := by
    unfold Scope.enclosingWith
    rw [Cursor.function_inside]
  unfold Enclosing.entered lambdaAround?
  cases slot with
  | lambda n =>
    have henclosing : ((setting.cursor ⟨done, stmt :: rest⟩).inside (.lambda n)).enclosing = _ :=
      Setting.enclosing_inside_lambda n
    rw [Setting.lambda?_level]
    cases hlambda : stmt.ownLambdas[n]? with
    | some lambda =>
      rw [hlambda] at henclosing
      unfold Scope.enclosingWith
      rw [henclosing]
      rfl
    | none =>
      rw [hlambda] at henclosing
      rw [← houter]
      unfold Scope.enclosingWith
      rw [henclosing]
      rfl
  | _ => exact houter

/-- What is seen in the content of a slot is seen in the block of the statement, with the content in
its slot. -/
theorem Site.Sees.of_inside {site : Site} {slot : Slot} {content held : Block}
    (hslot : slot.content? stmt = some held)
    (hwalked : ∃ entered ≤ count, walk.PausesIn entered count site
      ((setting.cursor ⟨done, stmt :: rest⟩).inside slot) held content)
    (h : site.Sees walk count ((setting.cursor ⟨done, stmt :: rest⟩).inside slot) content) :
    site.Sees walk count setting.scope ⟨done ++ slot.fill content stmt :: rest, setting.span⟩ := by
  have hplug : (setting.level done rest stmt slot).plug content =
      ⟨done ++ slot.fill content stmt :: rest, setting.span⟩ := Cursor.plug_level content
  have hstmt : (setting.level done rest stmt slot).statements[
      (setting.level done rest stmt slot).index]? = some stmt := setting.getElem?_level slot
  obtain ⟨levels, hwithin, hcontent⟩ := h.placed
  have haround := lambdaAround?_append levels [setting.level done rest stmt slot] site.block
  rw [← hcontent] at haround
  refine ⟨?_, ⟨levels ++ [setting.level done rest stmt slot], ⟨?_, ?_, ?_⟩, ?_⟩, h.statement, h.call⟩
  · -- filling the inner hole fills the outer one with the level around it
    rw [h.function, Cursor.function_inside]
  · rw [List.forall_mem_append, List.forall_mem_singleton]
    exact ⟨hwithin.slots, stmt, held, hstmt, hslot⟩
  · rw [hwithin.enclosing, Setting.enclosingWith_inside]
    unfold Enclosing.entered
    rw [haround]
    cases lambdaAround? levels site.block <;> rfl
  · intro lambda body hbody
    rw [haround] at hbody
    cases hnear : lambdaAround? levels site.block with
    | some near =>
      rw [hnear] at hbody
      exact hwithin.walked lambda body (hnear.trans hbody)
    | none =>
      -- the lambda is the one whose body is walked here
      rw [hnear, Option.none_or, lambdaAround?] at hbody
      cases slot with
      | lambda n =>
        rw [Setting.lambda?_level] at hbody
        obtain ⟨found, hfound, rfl⟩ := Option.map_eq_some_iff.mp hslot
        rw [hfound] at hbody
        cases hbody
        refine ⟨_, ?_, hwalked⟩
        rw [Setting.enclosing_inside_lambda, hfound]
        rfl
      | _ => nomatch hbody
  · rw [List.foldl_append, ← hcontent, ← hplug]
    rfl

end MacroExpansion
