import MacroExpansion.Proofs.FileBodies
import MacroExpansion.Proofs.Height
import MacroExpansion.Proofs.WalkAgrees

/-! # How deep expanded code nests

A walk that comes to an end has walked every body that is left in the code, and so many walks within
each other are enough to walk that code again. Filling a slot does not change this: a body may lose
its braces on the way back, but never gets new ones around it. -/

namespace MacroExpansion

/-- So many walks within each other are enough for statements: one for the statements themselves, and
one for every body within another. -/
def NestWithin : (bound : Nat) → List Stmt → Prop
  | 0, _ => False
  | bound + 1, statements => ∀ stmt ∈ statements, ∀ slot content,
      Slot.content? slot stmt = some content → NestWithin bound content.statements

/-- Statements in sequence nest within a bound that each part of them nests within. -/
theorem NestWithin.append {bound : Nat} {first second : List Stmt} (h : NestWithin bound first)
    (h' : NestWithin bound second) : NestWithin bound (first ++ second) := by
  cases bound with
  | zero => exact h
  | succ bound => exact fun stmt hmem => (List.mem_append.mp hmem).elim (h stmt) (h' stmt)

/-- More walks are enough as well. -/
theorem NestWithin.mono {bound more : Nat} {statements : List Stmt} (h : NestWithin bound statements)
    (hle : bound ≤ more) : NestWithin more statements := by
  induction bound generalizing more statements with
  | zero => exact h.elim
  | succ bound ih =>
    obtain ⟨more, rfl⟩ : ∃ fewer, more = fewer + 1 := ⟨more - 1, by omega⟩
    exact fun stmt hmem slot content hcontent =>
      ih (h stmt hmem slot content hcontent) (Nat.le_of_succ_le_succ hle)

/-- One walk more than the statements are high is enough. -/
theorem nestWithin_of_height {bound : Nat} {statements : List Stmt}
    (h : stmtsHeight statements < bound) : NestWithin bound statements := by
  induction bound generalizing statements with
  | zero => exact absurd h (Nat.not_lt_zero _)
  | succ bound ih =>
    intro stmt hmem slot content hcontent
    have hstmt := height_le_stmtsHeight hmem
    have hlt := Slot.height_content_lt hcontent
    exact ih (by omega)

/-! ## Filling a slot -/

/-- The place of an expression statement does not matter. -/
theorem nestWithin_ofExpr {bound : Nat} {expr : Expr} {span : Span}
    (h : NestWithin bound [.expr expr span]) : NestWithin bound [Stmt.ofExpr expr] := by
  cases bound with
  | zero => exact h
  | succ bound =>
    refine List.forall_mem_singleton.mpr fun slot content hcontent => ?_
    refine h _ (List.mem_singleton_self _) slot content ?_
    cases slot <;> exact hcontent

/-- A body that was filled shows nothing deeper than what it was filled with. -/
theorem nestWithin_asBody_withBody {bound : Nat} {body : Stmt} {content : Block}
    (h : NestWithin bound content.statements) :
    NestWithin bound (body.withBody content).asBody.statements := by
  unfold Stmt.withBody
  split
  · exact h
  · rename_i only _ hcontent
    rw [hcontent] at h
    cases only with
    | block inner =>
      -- the block in the braces of the body is the body now
      cases bound with
      | zero => exact h
      | succ bound =>
        exact (h _ (List.mem_singleton_self _) .block inner rfl).mono (Nat.le_succ bound)
    | _ => exact h
  · exact h

/-- A lambda that was filled shows nothing deeper than what it was filled with. -/
theorem nestWithin_asBody_withBody_lambda {bound : Nat} {lambda : Lambda} {content : Block}
    (h : NestWithin bound content.statements) :
    NestWithin bound (lambda.withBody content).asBody.statements := by
  unfold Lambda.withBody
  split
  · rename_i e span _ hcontent
    rw [hcontent] at h
    exact nestWithin_ofExpr h
  · exact h

/-- A slot that was filled shows nothing deeper than what it was filled with. -/
theorem Slot.nestWithin_fill {bound : Nat} {slot : Slot} {stmt : Stmt} {content filled : Block}
    (hslot : slot ∈ all stmt) (h : NestWithin bound content.statements)
    (hfilled : slot.content? (slot.fill content stmt) = some filled) :
    NestWithin bound filled.statements := by
  obtain ⟨held, hheld⟩ := hasContent_of_mem_all hslot
  cases hheld with
  | block =>
    cases hfilled
    exact h
  | thenBranch =>
    cases hfilled
    exact nestWithin_asBody_withBody h
  | elseBranch =>
    cases hfilled
    exact nestWithin_asBody_withBody h
  | loop =>
    cases hfilled
    exact nestWithin_asBody_withBody h
  | lambda hlambda =>
    rw [content?, fill, Stmt.ownLambdas_modifyOwnLambda, List.getElem?_modify_eq, hlambda] at hfilled
    cases hfilled
    exact nestWithin_asBody_withBody_lambda h

/-! ## Sequences -/

variable {σ : Type}

/-- So many walks within each other are enough for what a walk settles. -/
def SplitWalk.Nests (bound : Nat) (walk : SplitWalk σ) : Prop :=
  ∀ setting tail split, (walk setting tail split).Ensures (Flow.Holds fun last =>
    ∃ settled, last.done = split.done ++ settled ∧ NestWithin bound settled)

/-- So many walks within each other are enough for a sequence once it is walked. -/
def SequenceWalk.Nests (bound : Nat) (walk : SequenceWalk σ) : Prop :=
  ∀ scope depth span statements, (walk scope depth span statements 0 statements.length).Ensures
    (Flow.Holds fun walked => NestWithin bound walked.statements)

/-- What is settled in a parted sequence is all that is left of a whole one. -/
theorem SplitWalk.Nests.onSequence {bound : Nat} {walk : SplitWalk σ} (h : walk.Nests bound)
    (hadvances : walk.Advances) : walk.onSequence.Nests bound := by
  intro scope depth span statements
  unfold SplitWalk.onSequence
  rw [Nat.sub_self, List.take_zero, List.drop_zero]
  refine Flow.ensures_followedBy (Flow.ensures_and (h _ 0 ⟨[], statements⟩) (hadvances _ _ _)) ?_
  rintro ⟨_, todo⟩ ⟨⟨settled, rfl, hsettled⟩, -, hlength⟩
  -- nothing is left to come
  obtain rfl : todo = [] := List.eq_nil_of_length_eq_zero (Nat.le_zero.mp hlength)
  refine .pure (Flow.holds_proceed.mpr ?_)
  rwa [Split.statements, List.append_nil]

namespace FileWalk

variable {walk : FileWalk σ} {walkRun : SplitWalk σ} {walkNested : SequenceWalk σ}
  {setting : Setting} {done rest : List Stmt} {bound : Nat}

/-- Once its slots are walked, a statement needs one walk more than they took. -/
theorem walkSlots_nests (hnested : walkNested.Nests bound) (stmt : Stmt) :
    (walkSlots walkNested (setting.cursor ⟨done, stmt :: rest⟩) (Slot.all stmt)).Ensures
      (Flow.Holds fun last => NestWithin (bound + 1) [last]) := by
  refine (walkSlots_ensures (fun _ => True)
    (fun slot stmt => ∀ content, slot.content? stmt = some content →
      NestWithin bound content.statements)
    (NestWithin bound) (fun _ _ _ _ => hnested _ _ _ _) (fun _ _ _ _ => True.intro)
    (fun slot content stmt hslot h _ => Slot.nestWithin_fill hslot h) ?_ True.intro).mono ?_
  · intro slot other content stmt hne h held hheld
    rw [Slot.content?_fill_of_ne hne] at hheld
    exact h held hheld
  · intro flow h last hlast
    refine List.forall_mem_singleton.mpr fun slot content hcontent => ?_
    exact (h last hlast).2 slot (Slot.mem_all_iff.mpr (hcontent ▸ rfl)) content hcontent

/-- What stands for a statement once it is settled needs one walk more than those within it. -/
theorem settleSplit_nests (hrun : walkRun.Nests bound) (hnested : walkNested.Nests bound)
    (allowed : Nat) (stmt : Stmt) :
    (walk.settleSplit walkRun walkNested setting allowed ⟨done, stmt :: rest⟩).Ensures
      (Flow.Holds fun last =>
        ∃ settled, last.done = done ++ settled ∧ NestWithin (bound + 1) settled) := by
  refine settleSplit_ensures (fun stmt _ _ _ => ?_) (fun captured run => ?_) allowed stmt
  · refine (walkSlots_nests hnested stmt).mono fun flow h last hlast => ?_
    exact ⟨[last], rfl, h last hlast⟩
  · refine (hrun _ _ _).mono fun flow h last hlast => ?_
    obtain ⟨settled, hdone, hsettled⟩ := h last hlast
    exact ⟨settled, hdone, hsettled.mono (Nat.le_succ bound)⟩

/-- Statements that are settled one after the other nest one level deeper than inner walks do. -/
theorem walkSplit_nests (hrun : walkRun.Nests bound) (hnested : walkNested.Nests bound)
    (tail steps : Nat) (split : Split) :
    (walk.walkSplit walkRun walkNested setting tail steps split).Ensures (Flow.Holds fun last =>
      ∃ settled, last.done = split.done ++ settled ∧ NestWithin (bound + 1) settled) := by
  have hnothing : ∃ settled, split.done = split.done ++ settled ∧ NestWithin (bound + 1) settled :=
    ⟨[], (List.append_nil _).symm, fun _ hmem => absurd hmem List.not_mem_nil⟩
  induction steps generalizing split with
  | zero => exact .pure (Flow.holds_proceed.mpr hnothing)
  | succ steps ih =>
    unfold walkSplit
    split
    · refine (ExpandM.Ensures.trivial _).bind fun _ _ => ?_
      obtain ⟨done, todo⟩ := split
      cases todo with
      | nil => exact absurd ‹tail < _› (Nat.not_lt_zero tail)
      | cons stmt rest =>
        refine Flow.ensures_followedBy (settleSplit_nests hrun hnested _ stmt) ?_
        rintro ⟨_, todo⟩ ⟨first, rfl, hfirst⟩
        refine (ih ⟨done ++ first, todo⟩ ?_).mono fun flow h last hlast => ?_
        · exact ⟨[], (List.append_nil _).symm, fun _ hmem => absurd hmem List.not_mem_nil⟩
        · obtain ⟨second, hdone, hsecond⟩ := h last hlast
          exact ⟨first ++ second, by rw [hdone, List.append_assoc], hfirst.append hsecond⟩
    · exact .pure (Flow.holds_proceed.mpr hnothing)

/-- What a walk settles nests no deeper than the walks that are under way within each other. -/
theorem splitWalk_nests (walk : FileWalk σ) (nesting : Nat) :
    (walk.splitWalk nesting).Nests nesting := by
  induction nesting with
  | zero => exact fun _ _ _ => .throw _
  | succ nesting ih =>
    exact fun setting tail split =>
      walkSplit_nests ih (ih.onSequence (splitWalk_advances walk nesting)) tail _ split

end FileWalk

/-- A sequence that was walked can be walked again with as many walks within each other. -/
theorem Expander.walk_nests (expander : Expander) (file : FileOrigin) (nesting : Nat) :
    (FileWalk.walk (σ := σ) { expander, file } nesting).Nests nesting := by
  intro scope depth span statements
  rw [expander.walk_whole]
  exact (FileWalk.splitWalk_nests _ nesting).onSequence (FileWalk.splitWalk_advances _ nesting)
    scope depth span statements

/-! ## Files -/

/-- What was walked can be walked again in the bodies of a file. -/
theorem SequenceWalk.Nests.ensuresBodies {walkAll : SequenceWalk σ} {bound : Nat}
    (h : walkAll.Nests bound) :
    walkAll.EnsuresBodies fun _ body => NestWithin bound body.statements := by
  have hblock (scope : Scope) (block : Block) :
      (FileWalk.walkBlock walkAll scope block).Ensures (Flow.Holds fun expanded =>
        NestWithin bound expanded.statements) :=
    Flow.ensures_followedBy (h scope 0 block.span block.statements) fun _ hwalked =>
      .pure (Flow.holds_proceed.mpr hwalked)
  exact ⟨fun decl => hblock (.ofFunction decl) decl.body, fun _ block => hblock _ block⟩

end MacroExpansion
