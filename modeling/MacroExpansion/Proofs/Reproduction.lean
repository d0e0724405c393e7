import Mathlib
import MacroExpansion.Proofs.BodyNesting
import MacroExpansion.Proofs.CallContext
import MacroExpansion.Proofs.Nested
import MacroExpansion.Symbol.Table
import MacroExpansion.Tree.Build

/-! # Macros that reproduce themselves

When the output of every macro has a call in it that is expanded again, an expansion never comes to
a result. It ends at the depth limit as long as the new calls stand where the limit counts, in the
statement that is settled or in a run that is inserted for it. It does not end at all when they
stand in bodies: a body is walked as if it had been there from the start, so every body brings
another one. -/

namespace MacroExpansion

/-! ## Calls that are expanded -/

/-- A call that is expanded wherever it stands: it leads to a macro, and passes no quote of the
function around it on. -/
def BindingRules.Expands (rules : BindingRules) (call : Call) : Prop :=
  ∃ symbol, rules.candidate? call = some symbol ∧
    ∀ site, site.call = call → rules.forwardsAmbientQuote symbol site = false

/-- A statement with a call in it that is expanded. -/
def Stmt.IsLive (rules : BindingRules) (stmt : Stmt) : Prop :=
  ∃ inner, stmt.Contains inner ∧ ∃ call ∈ inner.ownCalls, rules.Expands call

/-- A statement without any such call. -/
def Stmt.IsInert (rules : BindingRules) (stmt : Stmt) : Prop :=
  stmt.AllCalls fun call => ¬ rules.Expands call

/-- A statement with a call that is expanded is not without any. -/
theorem Stmt.IsLive.not_isInert {rules : BindingRules} {stmt : Stmt} (h : stmt.IsLive rules) :
    ¬ stmt.IsInert rules := by
  obtain ⟨inner, hinner, call, hcall, hexpands⟩ := h
  exact fun hinert => hinert inner hinner call hcall hexpands

/-- What stands for an own call of a statement is found in the statement. -/
theorem Stmt.IsLive.of_replaceCall? {rules : BindingRules} {stmt stmt' : Stmt} {target : Call}
    {expr : Expr} (h : (Stmt.ofExpr expr).IsLive rules)
    (hreplace : stmt.replaceCall? target expr = some stmt') : stmt'.IsLive rules := by
  obtain ⟨whole, hwhole, hcalls, hlambdas⟩ := ownExpr?_replaceCall? hreplace
  obtain ⟨inner, hinner, call, hcall, hexpands⟩ := h
  cases hinner with
  | self =>
    refine ⟨stmt', .self stmt', call, ?_, hexpands⟩
    rw [ownCalls, hwhole]
    exact hcalls hcall
  | lambda hlambda hmem hinner =>
    refine ⟨inner, .lambda ?_ hmem hinner, call, hcall, hexpands⟩
    rw [ownLambdas, hwhole]
    exact hlambdas hlambda

/-- An output with a call in it that is expanded. An output that replaces the function around the
call does not count. -/
def Placement.IsLive (rules : BindingRules) : Placement → Prop
  | .empty | .function _ => False
  | .inPlace expr => (Stmt.ofExpr expr).IsLive rules
  | .statement stmt => stmt.IsLive rules
  | .splice run => ∃ stmt ∈ run, stmt.IsLive rules

/-- An output of one statement that has such calls in its bodies, and no call of a macro outside of
them. -/
def Placement.IsLiveInside (rules : BindingRules) (placement : Placement) : Prop :=
  ∃ stmt, placement = .statement stmt ∧ stmt.IsLive rules ∧
    ∀ call ∈ stmt.ownCalls, rules.candidate? call = none

/-- From progress with an invariant, every call of a macro can be bound and expanded, with an output
of a certain kind, and the host does not end the expansion. -/
structure Expander.Reproduces {σ : Type} (expander : Expander) (source : Option SourceText)
    (inv : Progress σ → Prop) (output : Placement → Prop) : Prop where
  goesOn : ∀ progress, inv progress → progress.session.cancelled = false
  binds : ∀ site symbol error, expander.rules.candidate? site.call = some symbol →
    expander.rules.bind symbol site source ≠ .error error
  expands : ∀ site symbol bound, expander.rules.candidate? site.call = some symbol →
    expander.rules.bind symbol site source = .ok (some bound) →
    (expander.expandCall source bound).Keeps inv (fun _ => False) output

/-- Walks that find every call that is expanded, or stop in one of certain ways. -/
def SplitWalk.Exposes {σ : Type} (rules : BindingRules) (inv : Progress σ → Prop)
    (stops : Stop → Prop) (depth : Nat) (walk : SplitWalk σ) : Prop :=
  ∀ setting tail split, setting.depth = depth →
    (walk setting tail split).Keeps inv stops (Flow.Proceeds fun _ =>
      ∀ stmt ∈ split.todo.take (split.todo.length - tail), stmt.IsInert rules)

/-- The same for walks of whole sequences. -/
def SequenceWalk.Exposes {σ : Type} (rules : BindingRules) (inv : Progress σ → Prop)
    (stops : Stop → Prop) (depth : Nat) (walk : SequenceWalk σ) : Prop :=
  ∀ scope span statements,
    (walk scope depth span statements 0 statements.length).Keeps inv stops (Flow.Proceeds fun _ =>
      ∀ stmt ∈ statements, stmt.IsInert rules)

/-- Walks that find every call in parted sequences find every call in whole ones. -/
theorem SplitWalk.Exposes.onSequence {σ : Type} {rules : BindingRules} {inv : Progress σ → Prop}
    {stops : Stop → Prop} {depth : Nat} {walk : SplitWalk σ} (h : walk.Exposes rules inv stops depth) :
    walk.onSequence.Exposes rules inv stops depth := by
  intro scope span statements
  unfold SplitWalk.onSequence
  rw [Nat.sub_self, List.take_zero, List.drop_zero]
  refine Flow.keeps_followedBy (h ⟨scope, depth, span⟩ 0 ⟨[], statements⟩ rfl) fun last hinert => ?_
  rw [Nat.sub_zero, List.take_length] at hinert
  exact .pure ⟨_, rfl, hinert⟩

/-! ## Settling a statement -/

namespace FileWalk

variable {σ : Type} {expander : Expander} {file : FileOrigin} {inv : Progress σ → Prop}
  {stops : Stop → Prop} {output : Placement → Prop} {walkRun : SplitWalk σ}
  {walkNested : SequenceWalk σ} {setting : Setting} {done rest : List Stmt}

/-- The search for the next call comes to its result. -/
theorem keeps_next (h : expander.Reproduces file.source inv output) (cursor : Cursor)
    (calls : List Call) :
    (ExpandM.require (expander.firstBound? file.source (cursor.site file.path) calls) :
      ExpandM σ _).Keeps inv stops fun next =>
        expander.firstBound? file.source (cursor.site file.path) calls = .ok next := by
  have hok : ∃ next, expander.firstBound? file.source (cursor.site file.path) calls = .ok next :=
    Expander.firstBound?_ok fun call _ symbol error hsymbol => h.binds _ symbol error hsymbol
  obtain ⟨next, hnext⟩ := hok
  rw [hnext]
  exact .pure rfl

/-- A call that was found is one of those that were looked at. -/
theorem call_mem_of_firstBound? {cursor : Cursor} {calls : List Call} {bound : BoundCall}
    (h : expander.firstBound? file.source (cursor.site file.path) calls = .ok (some bound)) :
    bound.site.call ∈ calls := by
  obtain ⟨call, hmem, symbol, -, hbind⟩ := Expander.firstBound?_some h
  obtain ⟨-, hsite, -⟩ := BindingRules.bind_some hbind
  rw [hsite]
  exact hmem

/-- A call that was found is expanded. -/
theorem keeps_expandCall (h : expander.Reproduces file.source inv output) {cursor : Cursor}
    {calls : List Call} {bound : BoundCall}
    (hbound : expander.firstBound? file.source (cursor.site file.path) calls = .ok (some bound)) :
    (ExpandM.located bound.site.call.span file.source
      (expander.expandCall file.source bound)).Keeps inv stops output := by
  obtain ⟨call, -, symbol, hsymbol, hbind⟩ := Expander.firstBound?_some hbound
  exact (h.expands _ symbol bound hsymbol hbind).located _ _

/-- In a statement without calls to expand, the walk of its slots finds what is to be found. -/
theorem walkSlots_exposes {rules : BindingRules}
    (hnested : walkNested.Exposes rules inv stops setting.depth) {slots : List Slot} {stmt : Stmt}
    (hnodup : slots.Nodup) :
    (walkSlots walkNested (setting.cursor ⟨done, stmt :: rest⟩) slots).Keeps inv stops
      (Flow.Proceeds fun _ => ∀ slot ∈ slots, ∀ inner ∈ slot.holds stmt, inner.IsInert rules) := by
  induction slots generalizing stmt with
  | nil => exact .pure ⟨_, rfl, fun _ hmem => absurd hmem List.not_mem_nil⟩
  | cons slot slots ih =>
    obtain ⟨hslot, hslots⟩ := List.nodup_cons.mp hnodup
    unfold walkSlots
    rw [Setting.stmt_cursor]
    cases hcontent : slot.content? stmt with
    | none =>
      refine (ih hslots).mono ?_
      rintro _ ⟨last, rfl, hinert⟩
      refine ⟨last, rfl, List.forall_mem_cons.mpr ⟨fun inner hmem => ?_, hinert⟩⟩
      rw [Slot.holds_eq_nil hcontent] at hmem
      exact absurd hmem List.not_mem_nil
    | some content =>
      refine Flow.keeps_followedBy (hnested _ _ _) fun walked hwalked => ?_
      simp only [Setting.withStmt_cursor]
      refine (ih hslots).mono ?_
      rintro _ ⟨last, rfl, hinert⟩
      refine ⟨last, rfl, List.forall_mem_cons.mpr ⟨Slot.allCalls_holds hcontent hwalked, ?_⟩⟩
      -- the other slots hold what they held before this one was filled
      intro other hother inner hmem
      have hne : other ≠ slot := fun heq => hslot (heq ▸ hother)
      exact hinert other hother inner (by rwa [Slot.holds_fill_of_ne hne])

/-- A statement without calls to expand is settled only if there are none in its bodies either. -/
theorem settled_exposes (hnested : walkNested.Exposes expander.rules inv stops setting.depth)
    {stmt : Stmt}
    (hnone : expander.firstBound? file.source
      ((setting.cursor ⟨done, stmt :: rest⟩).site file.path) stmt.ownCalls = .ok none) :
    (walkSlots walkNested (setting.cursor ⟨done, stmt :: rest⟩) (Slot.all stmt) >>=
      (·.followedBy fun stmt => return .proceed (Split.mk (done ++ [stmt]) rest))).Keeps inv stops
        (Flow.Proceeds fun last => last.todo = rest ∧ stmt.IsInert expander.rules) := by
  refine Flow.keeps_followedBy (walkSlots_exposes hnested (Slot.nodup_all stmt)) fun last hslots => ?_
  refine .pure ⟨_, rfl, rfl, Stmt.allCalls_iff.mpr ⟨?_, hslots⟩⟩
  rintro call hcall ⟨symbol, hsymbol, hcode⟩
  -- a call that was passed over forwards a quote
  have hforwards := Expander.firstBound?_none hnone call hcall symbol hsymbol
  rw [hcode _ rfl] at hforwards
  cases hforwards

/-- With an output that has a call to be expanded, a statement is never settled: neither what stands
for it is, nor the run in its place. -/
theorem placeSplit_exposes {rules : BindingRules} {P : Split → Prop} {stmt : Stmt}
    (hrun : walkRun.Exposes rules inv stops (setting.depth + 1))
    {settle : Split → ExpandM σ (Flow Split)}
    (hnever : ∀ stmt : Stmt, stmt.IsLive rules →
      (settle ⟨done, stmt :: rest⟩).Keeps inv stops (Flow.Proceeds P))
    {bound : BoundCall} (hcall : bound.site.call ∈ stmt.ownCalls) {placement : Placement}
    (hlive : placement.IsLive rules) :
    (placeSplit { expander, file } walkRun settle setting ⟨done, stmt :: rest⟩ bound
      placement).Keeps inv stops (Flow.Proceeds P) := by
  cases placement with
  | empty => exact hlive.elim
  | function decl => exact hlive.elim
  | statement stmt' => exact hnever stmt' hlive
  | inPlace expr =>
    have hsome : (stmt.replaceCall? bound.site.call expr).isSome := Stmt.isSome_replaceCall? hcall
    obtain ⟨stmt', hreplace⟩ := Option.isSome_iff_exists.mp hsome
    simp only [placeSplit, Setting.stmt_cursor, hreplace]
    exact hnever stmt' (hlive.of_replaceCall? hreplace)
  | splice run =>
    refine (hrun setting.deeper _ ⟨done, run ++ rest.drop bound.captured⟩ rfl).mono ?_
    rintro _ ⟨last, rfl, hinert⟩
    -- the run is the part that is walked, so the call in it would have been found
    rw [List.length_append] at hinert
    obtain ⟨stmt', hmem, hlive⟩ := hlive
    refine absurd (hinert stmt' ?_) hlive.not_isInert
    change stmt' ∈ (run ++ rest.drop bound.captured).take
      (run.length + (rest.drop bound.captured).length - (rest.drop bound.captured).length)
    rwa [Nat.add_sub_cancel, List.take_left]

/-- With outputs that have calls to be expanded, a statement is settled only if there was nothing to
expand in it. -/
theorem settleSplit_exposes
    (h : expander.Reproduces file.source inv (Placement.IsLive expander.rules))
    (hstops : ∀ callee span,
      stops (.error (.atSpan (.depthLimit callee expander.config.maxDepth) span file.source)))
    (hrun : walkRun.Exposes expander.rules inv stops (setting.depth + 1))
    (hnested : walkNested.Exposes expander.rules inv stops setting.depth) (allowed : Nat)
    (stmt : Stmt) :
    (settleSplit { expander, file } walkRun walkNested setting allowed
      ⟨done, stmt :: rest⟩).Keeps inv stops
        (Flow.Proceeds fun last => last.todo = rest ∧ stmt.IsInert expander.rules) := by
  induction allowed generalizing stmt with
  | zero =>
    unfold settleSplit
    simp only [Setting.stmt_cursor]
    refine (keeps_next h _ _).bind fun next hnext => ?_
    cases next with
    | none => exact settled_exposes hnested hnext
    | some bound => exact .throw (hstops _ _)
  | succ allowed ih =>
    -- a statement with a call to be expanded is never settled
    have never (stmt' : Stmt) (hlive : stmt'.IsLive expander.rules) :
        (settleSplit { expander, file } walkRun walkNested setting allowed
          ⟨done, stmt' :: rest⟩).Keeps inv stops
            (Flow.Proceeds fun last => last.todo = rest ∧ stmt.IsInert expander.rules) := by
      refine (ih stmt').mono ?_
      rintro _ ⟨last, rfl, -, hinert⟩
      exact absurd hinert hlive.not_isInert
    unfold settleSplit
    simp only [Setting.stmt_cursor]
    refine (keeps_next h _ _).bind fun next hnext => ?_
    cases next with
    | none => exact settled_exposes hnested hnext
    | some bound =>
      have hcall : bound.site.call ∈ stmt.ownCalls := call_mem_of_firstBound? hnext
      cases hdepth : decide (setting.depth ≤ expander.config.maxDepth) with
      | false => exact .throw (hstops _ _)
      | true =>
        exact (keeps_expandCall h hnext).bind fun placement hlive =>
          placeSplit_exposes hrun never hcall hlive

/-- With outputs whose calls to be expanded stand in bodies, the limit is not even reached. -/
theorem settleSplit_exposes_inside
    (h : expander.Reproduces file.source inv (Placement.IsLiveInside expander.rules))
    (hnested : walkNested.Exposes expander.rules inv stops setting.depth)
    (hdepth : setting.depth ≤ expander.config.maxDepth) (allowed : Nat) (stmt : Stmt) :
    (settleSplit { expander, file } walkRun walkNested setting (allowed + 1)
      ⟨done, stmt :: rest⟩).Keeps inv stops
        (Flow.Proceeds fun last => last.todo = rest ∧ stmt.IsInert expander.rules) := by
  -- an output has no own calls to expand, so its bodies are walked at once
  have never {stmt' : Stmt} (hlive : stmt'.IsLive expander.rules)
      (hcalls : ∀ call ∈ stmt'.ownCalls, expander.rules.candidate? call = none) :
      (settleSplit { expander, file } walkRun walkNested setting allowed
        ⟨done, stmt' :: rest⟩).Keeps inv stops
          (Flow.Proceeds fun last => last.todo = rest ∧ stmt.IsInert expander.rules) := by
    have hnone : expander.firstBound? file.source
        ((setting.cursor ⟨done, stmt' :: rest⟩).site file.path) stmt'.ownCalls = .ok none :=
      Expander.firstBound?_of_no_candidate hcalls
    have hsettled : (settleSplit { expander, file } walkRun walkNested setting allowed
        ⟨done, stmt' :: rest⟩).Keeps inv stops
          (Flow.Proceeds fun last => last.todo = rest ∧ stmt'.IsInert expander.rules) := by
      unfold settleSplit
      simp only [Setting.stmt_cursor, hnone]
      exact settled_exposes hnested hnone
    refine hsettled.mono ?_
    rintro _ ⟨last, rfl, -, hinert⟩
    exact absurd hinert hlive.not_isInert
  unfold settleSplit
  simp only [Setting.stmt_cursor]
  refine (keeps_next h _ _).bind fun next hnext => ?_
  cases next with
  | none => exact settled_exposes hnested hnext
  | some bound =>
    simp only [decide_eq_true hdepth]
    refine (keeps_expandCall h hnext).bind ?_
    rintro _ ⟨stmt', rfl, hlive, hcalls⟩
    exact never hlive hcalls

/-! ## Walking sequences -/

/-- Statements that are settled one after the other are settled only if there was nothing to expand
in them. -/
theorem walkSplit_exposes (hgoesOn : ∀ progress, inv progress → progress.session.cancelled = false)
    (hsettle : ∀ done stmt rest,
      (settleSplit { expander, file } walkRun walkNested setting expander.config.maxDepth
        ⟨done, stmt :: rest⟩).Keeps inv stops
          (Flow.Proceeds fun last => last.todo = rest ∧ stmt.IsInert expander.rules))
    (tail steps : Nat) (split : Split) (hsteps : split.todo.length ≤ tail + steps) :
    (walkSplit { expander, file } walkRun walkNested setting tail steps split).Keeps inv stops
      (Flow.Proceeds fun _ =>
        ∀ stmt ∈ split.todo.take (split.todo.length - tail), stmt.IsInert expander.rules) := by
  have hpoll : (ExpandM.checkCancelled : ExpandM σ Unit).Keeps inv stops fun _ => True :=
    .checkCancelled_of_goesOn hgoesOn
  -- nothing is left of the part to be walked
  have hover {split : Split} (hlength : split.todo.length ≤ tail) :
      ∀ stmt ∈ split.todo.take (split.todo.length - tail), stmt.IsInert expander.rules := by
    rw [Nat.sub_eq_zero_of_le hlength, List.take_zero]
    exact fun _ hmem => absurd hmem List.not_mem_nil
  induction steps generalizing split with
  | zero => exact .pure ⟨_, rfl, hover hsteps⟩
  | succ steps ih =>
    unfold walkSplit
    split
    · obtain ⟨done, todo⟩ := split
      cases todo with
      | nil => exact absurd ‹tail < _› (Nat.not_lt_zero tail)
      | cons stmt rest =>
        refine hpoll.bind fun _ _ => ?_
        refine Flow.keeps_followedBy (hsettle done stmt rest) ?_
        rintro ⟨done, todo⟩ ⟨rfl, hstmt⟩
        have hlt : tail < todo.length + 1 := ‹_›
        refine (ih ⟨done, todo⟩ (Nat.le_of_succ_le_succ hsteps)).mono ?_
        rintro _ ⟨last, rfl, hrest⟩
        refine ⟨last, rfl, ?_⟩
        rw [List.length_cons, Nat.succ_sub (Nat.le_of_lt_succ hlt), List.take_succ_cons]
        exact List.forall_mem_cons.mpr ⟨hstmt, hrest⟩
    · exact .pure ⟨_, rfl, hover (by omega)⟩

/-- With outputs that have calls to be expanded, a sequence is walked to its end only if there was
nothing to expand in it. -/
theorem splitWalk_exposes
    (h : expander.Reproduces file.source inv (Placement.IsLive expander.rules))
    (hlimit : ∀ callee span,
      stops (.error (.atSpan (.depthLimit callee expander.config.maxDepth) span file.source)))
    (hexhausted : stops .exhausted) (nesting depth : Nat) :
    (splitWalk (σ := σ) { expander, file } nesting).Exposes expander.rules inv stops depth := by
  induction nesting generalizing depth with
  | zero => exact fun _ _ _ _ => .throw hexhausted
  | succ nesting ih =>
    rintro setting tail split rfl
    exact walkSplit_exposes h.goesOn
      (fun _ stmt _ => settleSplit_exposes h hlimit (ih _) (ih _).onSequence _ stmt) tail _ split
      (by omega)

/-- With outputs whose calls to be expanded stand in bodies, this takes ever more walks. -/
theorem splitWalk_exposes_inside
    (h : expander.Reproduces file.source inv (Placement.IsLiveInside expander.rules))
    (hlimit : 0 < expander.config.maxDepth) (hexhausted : stops .exhausted) (nesting : Nat)
    {depth : Nat} (hdepth : depth ≤ expander.config.maxDepth) :
    (splitWalk (σ := σ) { expander, file } nesting).Exposes expander.rules inv stops depth := by
  induction nesting with
  | zero => exact fun _ _ _ _ => .throw hexhausted
  | succ nesting ih =>
    rintro setting tail split rfl
    obtain ⟨allowed, hallowed⟩ : ∃ fewer, expander.config.maxDepth = fewer + 1 :=
      ⟨expander.config.maxDepth - 1, by omega⟩
    refine walkSplit_exposes h.goesOn (fun _ stmt _ => ?_) tail _ split (by omega)
    rw [hallowed]
    exact settleSplit_exposes_inside h ih.onSequence hdepth allowed stmt

/-! ## Whole files -/

variable {walkAll : SequenceWalk σ} {rules : BindingRules}

/-- A block is walked to its end only if there was nothing to expand in it. -/
theorem walkBlock_exposes (hwalk : walkAll.Exposes rules inv stops 0) (scope : Scope)
    (block : Block) :
    (walkBlock walkAll scope block).Keeps inv stops (Flow.Proceeds fun _ =>
      ∀ stmt ∈ block.statements, stmt.IsInert rules) :=
  Flow.keeps_followedBy (hwalk scope block.span block.statements) fun _ hinert =>
    .pure ⟨_, rfl, hinert⟩

/-- A function is expanded only if there was nothing to expand in its body. -/
theorem expandFunction_exposes (walk : FileWalk σ) (hwalk : walkAll.Exposes rules inv stops 0)
    (allowed : Nat) (decl : FunctionDecl) :
    (walk.expandFunction walkAll allowed decl).Keeps inv stops fun _ =>
      ∀ stmt ∈ decl.body.statements, stmt.IsInert rules := by
  unfold expandFunction
  refine (walkBlock_exposes hwalk _ _).bind ?_
  rintro _ ⟨body, rfl, hinert⟩
  exact .pure hinert

/-- A body outside of functions is expanded only if there was nothing to expand in it. -/
theorem expandLoose_exposes (walk : FileWalk σ) (hwalk : walkAll.Exposes rules inv stops 0)
    (scope : Scope) (block : Block) (span : Span) :
    (walk.expandLoose walkAll scope block span).Keeps inv stops fun _ =>
      ∀ stmt ∈ block.statements, stmt.IsInert rules := by
  unfold expandLoose
  refine (walkBlock_exposes hwalk _ _).bind ?_
  rintro _ ⟨body, rfl, hinert⟩
  exact .pure hinert

/-- A member is expanded only if there was nothing to expand in its bodies. -/
theorem expandMember_exposes (walk : FileWalk σ) (hwalk : walkAll.Exposes rules inv stops 0)
    (member : Member) :
    (walk.expandMember walkAll member).Keeps inv stops fun _ =>
      match member with
      | .function decl => ∀ stmt ∈ decl.body.statements, stmt.IsInert rules
      | .property decl => ∀ accessor ∈ decl.accessors,
          ∀ stmt ∈ accessor.body.statements, stmt.IsInert rules := by
  cases member with
  | function decl =>
    exact (expandFunction_exposes walk hwalk _ decl).bind fun _ hinert => .pure hinert
  | property decl =>
    refine ExpandM.Keeps.bind (.bind (.mapM (fun accessor => ?_) decl.accessors)
      fun _ hinert => .pure hinert) fun _ hinert => .pure hinert
    exact (expandLoose_exposes walk hwalk _ _ _).bind fun _ hinert => .pure hinert

/-- An item is expanded only if there was nothing to expand in it. -/
theorem expandItem_exposes (walk : FileWalk σ) (hwalk : walkAll.Exposes rules inv stops 0)
    (item : Item) :
    (walk.expandItem walkAll item).Keeps inv stops fun _ => ∀ function body,
      item.HasBody function body → ∀ stmt ∈ body.statements, stmt.IsInert rules := by
  cases item with
  | function decl =>
    refine (expandFunction_exposes walk hwalk _ decl).bind fun _ hinert => .pure ?_
    rintro _ _ ⟨⟩
    exact hinert
  | typeDecl decl =>
    refine ExpandM.Keeps.bind (.mapM (expandMember_exposes walk hwalk) decl.members)
      fun _ hinert => .pure ?_
    intro function body hbody
    cases hbody with
    | method hmem => exact hinert _ hmem
    | accessor hmem haccessor => exact hinert _ hmem _ haccessor
  | statements block =>
    refine (expandLoose_exposes walk hwalk _ block _).bind fun _ hinert => .pure ?_
    rintro _ _ ⟨⟩
    exact hinert

end FileWalk

/-- A file with a call in its code that is expanded. -/
def SyntaxTree.IsLive (rules : BindingRules) (tree : SyntaxTree) : Prop :=
  ∃ item ∈ tree.items, ∃ function body, item.HasBody function body ∧
    ∃ stmt ∈ body.statements, stmt.IsLive rules

namespace Expander

variable {σ : Type} {expander : Expander} {tree : SyntaxTree} {workspace : Workspace σ}
  {inv : Progress σ → Prop} {stops : Stop → Prop}

/-- A file with something to expand is never expanded by walks that expose it. -/
theorem expandBy_stops {walkAll : FileWalk σ → SequenceWalk σ}
    (h : SequenceWalk.Exposes expander.rules inv stops 0
      (walkAll { expander, file := { path := tree.path, text := tree.source } }))
    (hinv : inv { toWorkspace := workspace }) (hlive : tree.IsLive expander.rules) :
    ∃ stop, (expandBy walkAll expander tree workspace).1 = .error stop ∧ stops stop := by
  have hitems : (itemsProgram walkAll expander tree).Keeps inv stops fun _ => ∀ item ∈ tree.items,
      ∀ function body, item.HasBody function body →
        ∀ stmt ∈ body.statements, stmt.IsInert expander.rules :=
    .mapM (FileWalk.expandItem_exposes _ h) tree.items
  have hended := expandBy_keeps hitems hinv
  rcases hrun : (expandBy walkAll expander tree workspace).1 with stop | expansion
  all_goals rw [hrun] at hended
  · exact ⟨stop, rfl, hended⟩
  · -- a result would mean that there was nothing to expand
    obtain ⟨item, hitem, function, body, hbody, stmt, hstmt, hlive⟩ := hlive
    exact absurd (hended.1 item hitem function body hbody stmt hstmt) hlive.not_isInert

/-- When every output has a call in it that is expanded, a file with such a call is never expanded:
the expansion ends at the depth limit if it ends at all. -/
theorem reproduction_ends_at_limit
    (h : expander.Reproduces tree.sourceText inv (Placement.IsLive expander.rules))
    (hinv : inv { toWorkspace := workspace }) (hlive : tree.IsLive expander.rules) (nesting : Nat) :
    ∃ stop, (expander.expandWithin nesting tree workspace).1 = .error stop ∧
      (stop = .exhausted ∨ ∃ callee span, stop = .error
        (.atSpan (.depthLimit callee expander.config.maxDepth) span tree.sourceText)) := by
  refine expandBy_stops (fun scope span statements => ?_) hinv hlive
  rw [walk_whole]
  exact (FileWalk.splitWalk_exposes h (fun callee span => .inr ⟨callee, span, rfl⟩) (.inl rfl)
    nesting 0).onSequence scope span statements

/-- When the calls to be expanded stand in the bodies of every output, the expansion of a file with
such a call does not end, whatever the limit. -/
theorem reproduction_inside_never_ends
    (h : expander.Reproduces tree.sourceText inv (Placement.IsLiveInside expander.rules))
    (hlimit : 0 < expander.config.maxDepth) (hinv : inv { toWorkspace := workspace })
    (hlive : tree.IsLive expander.rules) (nesting : Nat) :
    (expander.expandWithin nesting tree workspace).1 = .error .exhausted := by
  have hstops : ∃ stop, (expander.expandWithin nesting tree workspace).1 = .error stop ∧
      stop = .exhausted := by
    refine expandBy_stops (fun scope span statements => ?_) hinv hlive
    have hexposes : SplitWalk.Exposes expander.rules inv (· = .exhausted) 0
        (FileWalk.splitWalk { expander, file := { path := tree.path, text := tree.source } }
          nesting) := by
      refine FileWalk.splitWalk_exposes_inside h hlimit ?_ nesting (Nat.zero_le _)
      rfl
    rw [walk_whole]
    exact hexposes.onSequence scope span statements
  obtain ⟨stop, hstop, rfl⟩ := hstops
  exact hstop

end Expander

/-! ## What the limit bounds, and what it does not -/

/-- An expansion ends exactly when the bodies that are under way within each other are bounded: with
`n` walks it opens no more than `n` bodies within each other, and with so many bodies it takes no
more than `limit + 2` walks for each of them. So if every output has a call in it that is expanded,
the expansion ends at the depth limit or not at all; and not at all, whatever the limit, if these
calls stand in bodies. -/
theorem expansion_ends_iff_bodies_end {σ : Type} (expander : Expander) (tree : SyntaxTree)
    (workspace : Workspace σ) :
    (∀ nesting, (expander.expandWithin nesting tree workspace).1 ≠ .error .exhausted →
      ∀ bodies, nesting < bodies → expander.expandWithBodies bodies tree workspace =
        expander.expandWithin nesting tree workspace) ∧
    (∀ bodies, (expander.expandWithBodies bodies tree workspace).1 ≠ .error .exhausted →
      ∀ nesting, bodies * (expander.config.maxDepth + 2) ≤ nesting →
        expander.expandWithin nesting tree workspace =
          expander.expandWithBodies bodies tree workspace) ∧
    ∀ inv : Progress σ → Prop, inv { toWorkspace := workspace } → tree.IsLive expander.rules →
      (expander.Reproduces tree.sourceText inv (Placement.IsLive expander.rules) →
        ∀ nesting, ∃ stop, (expander.expandWithin nesting tree workspace).1 = .error stop ∧
          (stop = .exhausted ∨ ∃ callee span, stop = .error
            (.atSpan (.depthLimit callee expander.config.maxDepth) span tree.sourceText))) ∧
      (expander.Reproduces tree.sourceText inv (Placement.IsLiveInside expander.rules) →
        0 < expander.config.maxDepth →
        ∀ nesting, (expander.expandWithin nesting tree workspace).1 = .error .exhausted) := by
  refine ⟨fun nesting hends bodies hbodies => Expander.expandWithBodies_eq hbodies hends,
    fun bodies hends nesting hnesting => Expander.expandWithin_eq hnesting hends,
    fun inv hinv hlive => ⟨fun h nesting => ?_, fun h hlimit nesting => ?_⟩⟩
  · exact Expander.reproduction_ends_at_limit h hinv hlive nesting
  · exact Expander.reproduction_inside_never_ends h hlimit hinv hlive nesting

/-! ### A macro that writes one statement -/

/-- A macro that takes nothing. -/
def repeatMacro : MethodSymbol :=
  { id := ⟨0⟩, declaringType := "Host", name := "Repeat", markers := [.macroFunction] }

/-- The call of the macro as a statement. -/
def repeatCall : Stmt :=
  .evaluate (.callOf "Repeat" [])

/-- Expands calls of the macro without type arguments. -/
def repeatExpander (limit : Nat) : Expander where
  model :=
    { bindCall := fun call =>
        if call.callee = "Repeat" ∧ call.typeArgs = [] then some repeatMacro else none
      declaredSymbol := fun _ => none }
  config := { maxDepth := limit, recordTrace := false }

/-- A workspace in which the macro writes a statement. -/
def repeatWorkspace (output : Stmt) : Workspace Unit where
  session := { host := () }
  registry := ({} : Registry Unit).registerBody repeatMacro fun _ => .replaceWithStatements [output]

/-- A file in which a function calls the macro. -/
def repeatFile : SyntaxTree :=
  { path := "file", source := none, items := [.function (.plain "Run" [] .void [repeatCall])] }

/-- The call of the macro, bound at a place. -/
def repeatBound (site : Site) : BoundCall where
  symbol := repeatMacro
  site
  args := []
  buffers := (Buffers.create {}).2
  buffer := (Buffers.create {}).1
  captured := 0
  placeholders := []

/-- Between two calls nothing is published, nothing ends the expansion, and the macro is what it was,
known to the registry from its first call on. -/
def RepeatReady (output : Stmt) (progress : Progress Unit) : Prop :=
  progress.session = { host := () } ∧
    (progress.registry = (repeatWorkspace output).registry ∨
      progress.registry = ((repeatWorkspace output).registry.discover repeatMacro).2)

/-- A call that is a candidate for expansion is one of the macro, without type arguments. -/
theorem repeat_candidate {limit : Nat} {call : Call} {symbol : MethodSymbol}
    (h : (repeatExpander limit).rules.candidate? call = some symbol) :
    symbol = repeatMacro ∧ call.typeArgs = [] := by
  rw [BindingRules.candidate?, Option.filter_eq_some_iff] at h
  have hbind : (if call.callee = "Repeat" ∧ call.typeArgs = [] then some repeatMacro else none) =
    some symbol := h.1
  split at hbind
  · exact ⟨(Option.some.inj hbind).symm, (‹_ ∧ _›).2⟩
  · cases hbind

/-- The macro has no quote parameter that could be forwarded. -/
theorem repeat_forwards {limit : Nat} (site : Site) :
    (repeatExpander limit).rules.forwardsAmbientQuote repeatMacro site = false := by
  unfold BindingRules.forwardsAmbientQuote
  cases site.function <;> rfl

/-- Every call of the macro is bound in the same way. -/
theorem repeat_bind {limit : Nat} {site : Site} {source : Option SourceText} :
    (repeatExpander limit).rules.bind repeatMacro site source = .ok (some (repeatBound site)) := by
  rw [BindingRules.bind, repeat_forwards]
  rfl

/-- A call of the macro comes to the statement that the macro writes, and leaves everything ready
for the next one. -/
theorem repeat_expandCall {limit : Nat} {site : Site} {source : Option SourceText} {output : Stmt}
    (htypes : site.call.typeArgs = []) :
    ((repeatExpander limit).expandCall source (repeatBound site)).Keeps (RepeatReady output)
      (fun _ => False) (· = .statement output) := by
  rintro ⟨⟨session, registry⟩, trace, warnings⟩ ⟨hsession, hregistry⟩
  obtain ⟨file, ⟨callee, typeArgs, args, span⟩, statement, enclosing, function, block, index⟩ := site
  simp only at htypes hsession hregistry
  subst htypes hsession
  rcases hregistry with rfl | rfl
  · exact ⟨rfl, rfl, .inr rfl⟩
  · exact ⟨rfl, rfl, .inr rfl⟩

/-- The macro writes the statement whenever it is called. -/
theorem repeat_reproduces {limit : Nat} {source : Option SourceText} {output : Stmt}
    {kind : Placement → Prop} (h : kind (.statement output)) :
    (repeatExpander limit).Reproduces source (RepeatReady output) kind where
  goesOn progress hready := by rw [hready.1]
  binds site symbol error hsymbol := by
    rw [(repeat_candidate hsymbol).1, repeat_bind]
    nofun
  expands site symbol bound hsymbol hbind := by
    obtain ⟨rfl, htypes⟩ := repeat_candidate hsymbol
    rw [repeat_bind] at hbind
    obtain rfl := Option.some.inj (Except.ok.inj hbind)
    refine (repeat_expandCall htypes).mono ?_
    rintro _ rfl
    exact h

/-- A call of the macro is one to expand. -/
theorem repeat_expands {limit : Nat} :
    (repeatExpander limit).rules.Expands (.plain "Repeat" []) :=
  ⟨repeatMacro, rfl, fun site _ => repeat_forwards site⟩

/-- A statement that calls the macro has a call to expand. -/
theorem repeatCall_isLive {limit : Nat} : repeatCall.IsLive (repeatExpander limit).rules :=
  ⟨_, .self _, _, List.mem_cons_self, repeat_expands⟩

/-- A file with such a statement has a call to expand. -/
theorem repeatFile_isLive {limit : Nat} : repeatFile.IsLive (repeatExpander limit).rules :=
  ⟨_, List.mem_cons_self, _, _, .function _, _, List.mem_cons_self, repeatCall_isLive⟩

/-- Written as it is called, the macro ends at the limit; written in a block, it never ends. -/
theorem expansion_ends_iff_bodies_end_repeat :
    (((repeatExpander 1).expandWithin 4 repeatFile (repeatWorkspace repeatCall)).1 =
        .error (.error (.atSpan (.depthLimit "Repeat" 1) default none)) ∧
      (repeatExpander 1).expandWithBodies 5 repeatFile (repeatWorkspace repeatCall) =
        (repeatExpander 1).expandWithin 4 repeatFile (repeatWorkspace repeatCall) ∧
      (repeatExpander 1).expandWithin 15 repeatFile (repeatWorkspace repeatCall) =
        (repeatExpander 1).expandWithBodies 5 repeatFile (repeatWorkspace repeatCall)) ∧
    (∃ stop, ((repeatExpander 1).expandWithin 4 repeatFile (repeatWorkspace repeatCall)).1 =
        .error stop ∧ (stop = .exhausted ∨ ∃ callee span, stop = .error
          (.atSpan (.depthLimit callee 1) span none))) ∧
    ((repeatExpander 1).expandWithin 4 repeatFile
      (repeatWorkspace (.blockOf [repeatCall]))).1 = .error .exhausted := by
  have hrun : ((repeatExpander 1).expandWithin 4 repeatFile (repeatWorkspace repeatCall)).1 =
      .error (.error (.atSpan (.depthLimit "Repeat" 1) default none)) := by cbv
  have hends : ((repeatExpander 1).expandWithin 4 repeatFile (repeatWorkspace repeatCall)).1 ≠
      .error .exhausted := by
    intro hexhausted
    rw [hrun] at hexhausted
    cases hexhausted
  obtain ⟨hbodies, hwalks, hlive⟩ :=
    expansion_ends_iff_bodies_end (repeatExpander 1) repeatFile (repeatWorkspace repeatCall)
  obtain ⟨-, -, hlive'⟩ := expansion_ends_iff_bodies_end (repeatExpander 1) repeatFile
    (repeatWorkspace (.blockOf [repeatCall]))
  refine ⟨⟨hrun, hbodies 4 hends 5 (by decide), hwalks 5 ?_ 15 (by decide)⟩, ?_, ?_⟩
  · rw [hbodies 4 hends 5 (by decide)]
    exact hends
  · exact (hlive _ ⟨rfl, .inl rfl⟩ repeatFile_isLive).1 (repeat_reproduces repeatCall_isLive) 4
  · refine (hlive' _ ⟨rfl, .inl rfl⟩ repeatFile_isLive).2 (repeat_reproduces ?_) (by decide) 4
    exact ⟨_, rfl, ⟨_, .block List.mem_cons_self (.self _), _, List.mem_cons_self, repeat_expands⟩,
      fun _ hmem => absurd hmem List.not_mem_nil⟩

/-- Written in a block, a branch, the body of a loop or that of a lambda, the macro never ends,
whatever the limit. -/
theorem repeat_in_body_never_ends :
    ∀ output ∈ [Stmt.blockOf [repeatCall], .branchOn (.ofBool true) repeatCall none,
        .loopWhile (.ofBool true) repeatCall, .evaluate (.blockLambda [] [repeatCall])],
      ∀ limit nesting, ((repeatExpander (limit + 1)).expandWithin nesting repeatFile
        (repeatWorkspace output)).1 = .error .exhausted := by
  intro output houtput limit nesting
  have hinside : Placement.IsLiveInside (repeatExpander (limit + 1)).rules (.statement output) := by
    simp only [List.mem_cons, List.not_mem_nil, or_false] at houtput
    rcases houtput with rfl | rfl | rfl | rfl
    all_goals refine ⟨_, rfl, ⟨repeatCall, ?_, _, List.mem_cons_self, repeat_expands⟩, fun _ hmem =>
      absurd hmem List.not_mem_nil⟩
    · exact .block List.mem_cons_self (.self _)
    · exact .thenBranch (.self _)
    · exact .loop (.self _)
    · exact .lambda List.mem_cons_self List.mem_cons_self (.self _)
  exact Expander.reproduction_inside_never_ends (repeat_reproduces hinside) (Nat.succ_pos limit)
    ⟨rfl, .inl rfl⟩ repeatFile_isLive nesting

end MacroExpansion
