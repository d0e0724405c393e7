import MacroExpansion.Proofs.Program

/-! # Files expanded alike

Two walks of sequences that come to the same are carried over to the functions, accessors and blocks
of a file. The settings of the walks may differ in the limit, as far as stopping at the lower limit
is ignored (`FileWalk.Admits`). -/

namespace MacroExpansion

variable {σ : Type} {ignored : Stop → Prop}

/-- Two walks of whole sequences behind so many inserted runs come to the same, unless the first one
ends in an ignored way. -/
def SequenceWalk.Matches (ignored : Stop → Prop) (depth : Nat) (walk walk' : SequenceWalk σ) : Prop :=
  ∀ scope span statements, ExpandM.Matches ignored Eq
    (walk scope depth span statements 0 statements.length)
    (walk' scope depth span statements 0 statements.length)

namespace FileWalk

/-- The second walk is one of the same file. Either it replaces functions just as often as the first
one, or it may do so more often and stopping at the limit of the first one is ignored. -/
structure Admits (ignored : Stop → Prop) (walk walk' : FileWalk σ) : Prop where
  /-- The walks are walks of one file. -/
  file : walk'.file = walk.file
  /-- The second walk allows as much as the first one. -/
  maxDepth_le : walk.expander.config.maxDepth ≤ walk'.expander.config.maxDepth
  /-- Where it allows more, the limit of the first one does not matter. -/
  limit : walk'.expander.config.maxDepth = walk.expander.config.maxDepth ∨
    ∀ name span, ignored (.error (walk.fault
      (.replacementLimit name walk.expander.config.maxDepth) span))

/-- A walk admits itself. -/
theorem Admits.refl (ignored : Stop → Prop) (walk : FileWalk σ) : Admits ignored walk walk :=
  ⟨rfl, Nat.le_refl _, .inl rfl⟩

variable {walk walk' : FileWalk σ} {walkAll walkAll' walkInner walkInner' : SequenceWalk σ}

/-- Walks of one file report a fault alike. -/
theorem Admits.fault_eq (h : Admits ignored walk walk') : walk'.fault = walk.fault := by
  funext fault span
  rw [FileWalk.fault, FileWalk.fault, h.file]

/-- What is nested in a statement is walked alike. -/
theorem walkSlots_matches {cursor : Cursor} (h : walkInner.Matches ignored cursor.depth walkInner')
    (slots : List Slot) :
    ExpandM.Matches ignored Eq (walkSlots walkInner cursor slots)
      (walkSlots walkInner' cursor slots) := by
  induction slots generalizing cursor with
  | nil => exact .refl _ _
  | cons slot rest ih =>
    unfold walkSlots
    cases slot.content? cursor.stmt with
    | none => exact ih h
    | some content => exact Flow.matches_followedBy_same (h _ _ _) fun _ => ih h

/-- Blocks are walked alike. -/
theorem walkBlock_matches (h : walkAll.Matches ignored 0 walkAll') (scope : Scope) (block : Block) :
    ExpandM.Matches ignored Eq (walkBlock walkAll scope block) (walkBlock walkAll' scope block) :=
  Flow.matches_followedBy_same (h scope block.span block.statements) fun _ => .refl _ _

/-- A function is expanded alike when it may be replaced just as often, or more often where running
out of replacements is ignored. -/
theorem expandFunction_matches (hadmits : Admits ignored walk walk')
    (h : walkAll.Matches ignored 0 walkAll') {allowed allowed' : Nat} (hle : allowed ≤ allowed')
    (heq : walk'.expander.config.maxDepth = walk.expander.config.maxDepth → allowed' = allowed)
    (decl : FunctionDecl) :
    ExpandM.Matches ignored Eq (walk.expandFunction walkAll allowed decl)
      (walk'.expandFunction walkAll' allowed' decl) := by
  induction allowed generalizing allowed' decl with
  | zero =>
    rcases hadmits.limit with hlimit | hignored
    · obtain rfl := heq hlimit
      unfold expandFunction
      rw [hlimit, hadmits.fault_eq]
      exact (walkBlock_matches h _ _).bind_same fun _ => .refl _ _
    · unfold expandFunction
      refine (walkBlock_matches h _ _).bind_same fun flow => ?_
      cases flow with
      | proceed body => exact .refl _ _
      | replaceFunction replacement => exact .of_ignored (hignored _ _)
  | succ allowed ih =>
    obtain ⟨allowed', rfl⟩ : ∃ fewer, allowed' = fewer + 1 := ⟨allowed' - 1, by omega⟩
    unfold expandFunction
    refine (walkBlock_matches h _ _).bind_same fun flow => ?_
    cases flow with
    | proceed body => exact .refl _ _
    | replaceFunction replacement =>
      exact ih (Nat.le_of_succ_le_succ hle) (fun hlimit => Nat.succ.inj (heq hlimit)) replacement

/-- Blocks outside of functions are expanded alike. -/
theorem expandLoose_matches (hadmits : Admits ignored walk walk')
    (h : walkAll.Matches ignored 0 walkAll') (scope : Scope) (block : Block) (span : Span) :
    ExpandM.Matches ignored Eq (walk.expandLoose walkAll scope block span)
      (walk'.expandLoose walkAll' scope block span) := by
  unfold expandLoose
  rw [hadmits.fault_eq]
  exact (walkBlock_matches h scope block).bind_same fun _ => .refl _ _

/-- Members are expanded alike. -/
theorem expandMember_matches (hadmits : Admits ignored walk walk')
    (h : walkAll.Matches ignored 0 walkAll') (member : Member) :
    ExpandM.Matches ignored Eq (walk.expandMember walkAll member)
      (walk'.expandMember walkAll' member) := by
  cases member with
  | function decl =>
    exact (expandFunction_matches hadmits h hadmits.maxDepth_le id decl).bind_same fun _ => .refl _ _
  | property decl =>
    refine .bind_same (.bind_same (.mapM (fun accessor => ?_) _) fun _ => .refl _ _) fun _ =>
      .refl _ _
    exact (expandLoose_matches hadmits h _ _ _).bind_same fun _ => .refl _ _

/-- Items are expanded alike when the sequences in them are walked alike. -/
theorem expandItem_matches (hadmits : Admits ignored walk walk')
    (h : walkAll.Matches ignored 0 walkAll') (item : Item) :
    ExpandM.Matches ignored Eq (walk.expandItem walkAll item) (walk'.expandItem walkAll' item) := by
  cases item with
  | function decl =>
    exact (expandFunction_matches hadmits h hadmits.maxDepth_le id decl).bind_same fun _ => .refl _ _
  | typeDecl decl =>
    exact .bind_same (.mapM (expandMember_matches hadmits h) decl.members) fun _ => .refl _ _
  | statements block =>
    exact (expandLoose_matches hadmits h _ block _).bind_same fun _ => .refl _ _

end FileWalk

end MacroExpansion
