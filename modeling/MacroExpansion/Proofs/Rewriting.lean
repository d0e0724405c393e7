import MacroExpansion.Proofs.Fixpoint
import MacroExpansion.Proofs.PlacedCalls
import MacroExpansion.Proofs.TraceSwitch
import MacroExpansion.Proofs.WithoutCode

/-! # Code and the calls that rewrote it

What an expansion makes of a sequence of statements is told by the calls that it placed, in the order
in which it placed them. `Rewriting.Turns` follows the statements: one that is kept has only what is
nested in it rewritten, one in which an expression comes for a call is settled further, and one that a
call replaces goes together with the statements that the call captured. Every statement of the output
is there for one of these reasons, and no statement of the input is gone without one. -/

namespace MacroExpansion

variable {σ : Type}

/-! ## The relation -/

/-- The call stands in a statement that others follow. -/
structure PlacedCall.StandsIn (call : PlacedCall) (stmt : Stmt) (rest : List Stmt) : Prop where
  /-- The statement, as the macro sees it. -/
  statement : call.bound.site.statement = stmt
  /-- The call is one of its own. -/
  mem : call.bound.site.call ∈ stmt.ownCalls
  /-- The statements that follow, as the macro sees them. -/
  following : call.bound.site.following = rest

/-- The statements that come in place of the statement of a call. -/
def Placement.run? (stmt : Stmt) : Placement → Option (List Stmt)
  | .empty => some [.empty stmt.span]
  | .statement stmt => some [stmt]
  | .splice run => some run
  | .inPlace _ | .function _ => none

namespace Rewriting

mutual

/-- A statement that `rest` follows is settled by placing calls. Gives what becomes of it, and what is
left of the statements that follow. -/
inductive Settles : List PlacedCall → (stmt : Stmt) → (rest out left : List Stmt) → Prop where
  /-- The statement is kept, and what is nested in it is rewritten. -/
  | kept {calls : List PlacedCall} {stmt stmt' : Stmt} {rest : List Stmt}
      (hnested : Fills calls (Slot.all stmt) stmt stmt') (hframe : stmt.SameFrame stmt') :
      Settles calls stmt rest [stmt'] rest
  /-- The statement is kept with an expression in place of a call, and settled further. -/
  | inPlace {call : PlacedCall} {later : List PlacedCall} {expr : Expr} {stmt stmt' : Stmt}
      {rest out left : List Stmt} (hstands : call.StandsIn stmt rest)
      (hplaced : call.placement = .inPlace expr)
      (hreplaced : stmt.replaceCall? call.bound.site.call expr = some stmt')
      (hframe : stmt'.withoutCode = stmt.withoutCode)
      (hlambdas : ReplacesPart call.bound.site.call.lambdas expr.lambdas stmt.ownLambdas
        stmt'.ownLambdas)
      (h : Settles later stmt' rest out left) : Settles (call :: later) stmt rest out left
  /-- Other statements come in place of the statement and those that a call captured, and are
  rewritten together with what follows. -/
  | replaced {call : PlacedCall} {later : List PlacedCall} {stmt : Stmt}
      {rest run out left : List Stmt} (hstands : call.StandsIn stmt rest)
      (hplaced : call.placement.run? stmt = some run)
      (h : Turns later (run ++ rest.drop call.bound.captured) out left) :
      Settles (call :: later) stmt rest out left

/-- What some slots of a statement hold is rewritten. Gives the statement with it. -/
inductive Fills : List PlacedCall → List Slot → (stmt stmt' : Stmt) → Prop where
  /-- No slot is left. -/
  | nil (stmt : Stmt) : Fills [] [] stmt stmt
  /-- One slot after the other. -/
  | cons {calls later : List PlacedCall} {slot : Slot} {slots : List Slot} {content : Block}
      {statements : List Stmt} {stmt stmt' : Stmt} (hcontent : slot.content? stmt = some content)
      (h : Turns calls content.statements statements [])
      (hnext : Fills later slots (slot.fill { content with statements } stmt) stmt') :
      Fills (calls ++ later) (slot :: slots) stmt stmt'

/-- Statements are settled one after the other, up to some that are left. Gives what becomes of
them. -/
inductive Turns : List PlacedCall → (todo out left : List Stmt) → Prop where
  /-- All that is to come is left. -/
  | stop (todo : List Stmt) : Turns [] todo [] todo
  /-- The next statement is settled. -/
  | step {calls later : List PlacedCall} {stmt : Stmt} {rest out left out' left' : List Stmt}
      (h : Settles calls stmt rest out left) (hnext : Turns later left out' left') :
      Turns (calls ++ later) (stmt :: rest) (out ++ out') left'

end

/-- One statement that comes in place of another one is settled in its place. -/
theorem Settles.of_single {call : PlacedCall} {later : List PlacedCall} {stmt stmt' : Stmt}
    {rest out left : List Stmt} (hstands : call.StandsIn stmt rest)
    (hplaced : call.placement.run? stmt = some [stmt']) (hcaptured : call.bound.captured = 0)
    (h : Settles later stmt' rest out left) : Settles (call :: later) stmt rest out left := by
  refine .replaced hstands hplaced ?_
  rw [hcaptured, List.drop_zero, List.singleton_append, ← List.append_nil later,
    ← List.append_nil out]
  exact .step h (.stop left)

end Rewriting

open Rewriting

/-- The block is rewritten at its place. -/
def Block.RewrittenBy (calls : List PlacedCall) (block block' : Block) : Prop :=
  block'.withoutCode = block.withoutCode ∧ Turns calls block.statements block'.statements []

/-- No function comes in place of another one. -/
def NoFunctionPlaced (calls : List PlacedCall) : Prop :=
  ∀ call ∈ calls, call.placement.kind ≠ .function

/-- Of calls in two parts none is placed as a function when none is in either part. -/
theorem noFunctionPlaced_append {first second : List PlacedCall} :
    NoFunctionPlaced (first ++ second) ↔ NoFunctionPlaced first ∧ NoFunctionPlaced second :=
  List.forall_mem_append

/-- Calls in sequence belong to the members of a list in sequence. -/
inductive InParts {α β : Type} (R : List PlacedCall → α → β → Prop) :
    List PlacedCall → List α → List β → Prop where
  /-- No calls without members. -/
  | nil : InParts R [] [] []
  /-- The first calls belong to the first member. -/
  | cons {calls later : List PlacedCall} {value : α} {values : List α} {result : β}
      {results : List β} (h : R calls value result) (hrest : InParts R later values results) :
      InParts R (calls ++ later) (value :: values) (result :: results)

namespace InParts

variable {α β γ δ : Type} {R : List PlacedCall → α → β → Prop} {calls later : List PlacedCall}

/-- One value is one part. -/
theorem single {value : α} {result : β} (h : R calls value result) :
    InParts R calls [value] [result] := by
  rw [← List.append_nil calls]
  exact .cons h .nil

/-- Values in sequence are in parts where both of their lists are. -/
theorem append {first second : List α} {first' second' : List β} (h : InParts R calls first first')
    (h' : InParts R later second second') :
    InParts R (calls ++ later) (first ++ second) (first' ++ second') := by
  induction h with
  | nil => exact h'
  | cons hhead _ ih =>
    rw [List.append_assoc]
    exact .cons hhead ih

end InParts

/-- Without a function in place of another one, the node keeps everything but the code in its bodies,
and the bodies are rewritten in order. -/
def KeepsOutline {α β : Type} (outline : α → β) (bodies : α → List Block) (calls : List PlacedCall)
    (node node' : α) : Prop :=
  NoFunctionPlaced calls → outline node' = outline node ∧
    InParts Block.RewrittenBy calls (bodies node) (bodies node')

/-- Nodes in sequence keep their outlines when each of them does. -/
theorem KeepsOutline.of_inParts {α β : Type} {outline : α → β} {bodies : α → List Block}
    {calls : List PlacedCall} {nodes nodes' : List α}
    (h : InParts (KeepsOutline outline bodies) calls nodes nodes') :
    KeepsOutline (List.map outline) (List.flatMap bodies) calls nodes nodes' := by
  induction h with
  | nil => exact fun _ => ⟨rfl, .nil⟩
  | cons hnode _ ih =>
    intro hnone
    obtain ⟨hfirst, hrest⟩ := noFunctionPlaced_append.mp hnone
    obtain ⟨houtline, hbodies⟩ := hnode hfirst
    obtain ⟨houtlines, hothers⟩ := ih hrest
    refine ⟨?_, ?_⟩
    · rw [List.map_cons, List.map_cons, houtline, houtlines]
    · rw [List.flatMap_cons, List.flatMap_cons]
      exact hbodies.append hothers

/-! ## Walks -/

/-- Only output that goes over several statements leaves room for captured ones, or takes them with
the function. -/
theorem BoundCall.captured_eq_zero_of_place {bound : BoundCall} {fragments : List Fragment}
    {placement : Placement} (h : bound.place fragments = .ok placement)
    (hsplice : ∀ run, placement ≠ .splice run) (hfunction : ∀ decl, placement ≠ .function decl) :
    bound.captured = 0 := by
  unfold place at h
  cases hfragments : Placement.ofFragments bound.symbol bound.site fragments with
  | error fault =>
    rw [hfragments] at h
    cases h
  | ok first =>
    rw [hfragments] at h
    by_cases hcaptured : bound.captured = 0
    · exact hcaptured
    · simp only [Except.map, if_neg hcaptured, Except.ok.injEq] at h
      cases first with
      | function decl => exact absurd h.symm (hfunction decl)
      | _ => exact absurd h.symm (hsplice _)

/-- What is known of a part of a walk that goes on. One that does not has placed a function. -/
def Flow.Told {α : Type} (P : List PlacedCall → α → Prop) (calls : List PlacedCall) : Flow α → Prop
  | .proceed value => P calls value
  | .replaceFunction _ => ¬NoFunctionPlaced calls

namespace ExpandM.Accounts

variable {expander : Expander} {file : FileOrigin} {α β : Type}

/-- What is known of a part that goes on may be used for what follows it. -/
theorem followedBy {P : List PlacedCall → α → Prop} {Q : List PlacedCall → β → Prop}
    {program : ExpandM (Recording σ) (Flow α)} {next : α → ExpandM (Recording σ) (Flow β)}
    (h : program.Accounts expander file (Flow.Told P))
    (hnext : ∀ calls value, P calls value →
      (next value).Accounts expander file (Flow.Told fun later => Q (calls ++ later))) :
    (program >>= (·.followedBy next)).Accounts expander file (Flow.Told Q) := by
  refine h.bind fun calls flow hflow => ?_
  cases flow with
  | proceed value =>
    refine (hnext calls value hflow).mono fun later flow' hflow' => ?_
    cases flow' with
    | proceed result => exact hflow'
    | replaceFunction decl => exact fun hnone => hflow' (noFunctionPlaced_append.mp hnone).2
  | replaceFunction decl =>
    refine .pure ?_
    rw [List.append_nil]
    exact hflow

/-- What is known one by one of the members of a list is known of their parts. -/
theorem mapM {R : List PlacedCall → α → β → Prop} {next : α → ExpandM (Recording σ) β}
    (h : ∀ value, (next value).Accounts expander file fun calls => R calls value)
    (values : List α) :
    (values.mapM next).Accounts expander file fun calls => InParts R calls values := by
  induction values with
  | nil => exact .pure .nil
  | cons value rest ih =>
    rw [List.mapM_cons]
    refine (h value).bind fun calls result hresult => ih.bind fun later results hresults => .pure ?_
    rw [List.append_nil]
    exact .cons hresult hresults

end ExpandM.Accounts

/-- The walk of parted sequences tells how it rewrites them. -/
def SplitWalk.Rewrites (expander : Expander) (file : FileOrigin) (walk : SplitWalk (Recording σ)) :
    Prop :=
  ∀ setting tail split, (walk setting tail split).Accounts expander file (Flow.Told fun calls last =>
    ∃ out, last.done = split.done ++ out ∧ Turns calls split.todo out last.todo)

/-- The walk of whole sequences tells how it rewrites them. -/
def SequenceWalk.Rewrites (expander : Expander) (file : FileOrigin)
    (walk : SequenceWalk (Recording σ)) : Prop :=
  ∀ scope depth span statements,
    (walk scope depth span statements 0 statements.length).Accounts expander file
      (Flow.Told fun calls walked => Turns calls statements walked.statements [])

namespace FileWalk

variable {expander : Expander} {file : FileOrigin} {walkRun : SplitWalk (Recording σ)}
  {walkNested walkAll : SequenceWalk (Recording σ)} {setting : Setting} {done rest : List Stmt}
  {stmt : Stmt}

/-- A statement without calls to expand is settled, and otherwise a call that stands in it is
placed. -/
theorem attend_accounts {α : Type} {P : List PlacedCall → α → Prop} {limited : Bool}
    {settled : ExpandM (Recording σ) α} {place : BoundCall → Placement → ExpandM (Recording σ) α}
    (hsettled : settled.Accounts expander file P)
    (hplace : ∀ call : PlacedCall, call.IsOf expander file → call.StandsIn stmt rest →
      (place call.bound call.placement).Accounts expander file fun later => P (call :: later)) :
    (attend { expander, file } stmt ((setting.cursor ⟨done, stmt :: rest⟩).site file.path) limited
      settled place).Accounts expander file P := by
  rw [attend_expansion]
  cases hfirst : expander.firstBound? file.source
    ((setting.cursor ⟨done, stmt :: rest⟩).site file.path) stmt.ownCalls with
  | error error => exact .throw _
  | ok next =>
    cases next with
    | none => exact hsettled
    | some bound =>
      cases limited with
      | true => exact .throw _
      | false =>
        obtain ⟨call, hcall, symbol, -, hbind⟩ := Expander.firstBound?_some hfirst
        have hsite := (BindingRules.bind_some hbind).2.1
        obtain ⟨hleads, hbinds⟩ := Expander.binds_of_firstBound?_some (fun _ => rfl) hfirst
        refine (Expander.accounts_expandCall hleads hbinds _).bind ?_
        rintro _ _ ⟨placed, rfl, hisOf, rfl, rfl⟩
        -- the call that was found stands at the site that it was bound at
        refine hplace placed hisOf ⟨?_, ?_, ?_⟩
        · rw [hsite]
          exact Setting.stmt_cursor setting done rest stmt
        · rw [hsite]
          exact hcall
        · rw [hsite]
          exact (Cursor.Shows.of_split setting ⟨done, stmt :: rest⟩).following file.path call

/-- The slots of a statement are filled with what they hold in the end. -/
theorem walkSlots_accounts (hnested : walkNested.Rewrites expander file) (slots : List Slot)
    (stmt : Stmt) (hslots : ∀ slot ∈ slots, slot ∈ Slot.all stmt) :
    (walkSlots walkNested (setting.cursor ⟨done, stmt :: rest⟩) slots).Accounts expander file
      (Flow.Told fun calls stmt' => Fills calls slots stmt stmt' ∧ stmt.SameFrame stmt') := by
  induction slots generalizing stmt with
  | nil =>
    unfold walkSlots
    rw [Setting.stmt_cursor]
    exact .pure ⟨.nil stmt, .refl stmt⟩
  | cons slot slots ih =>
    obtain ⟨hslot, hslots⟩ := List.forall_mem_cons.mp hslots
    obtain ⟨content, hcontent⟩ := Option.isSome_iff_exists.mp (Slot.mem_all_iff.mp hslot)
    unfold walkSlots
    rw [Setting.stmt_cursor, hcontent]
    refine (hnested _ _ _ _).followedBy fun calls walked hwalked => ?_
    simp only [Setting.withStmt_cursor]
    -- the slots that are left are those of the filled statement
    have hfilled := ih (slot.fill { content with statements := walked.statements } stmt)
      fun other hother => by
        rw [Slot.all_fill]
        exact hslots other hother
    refine hfilled.mono fun later flow hflow => ?_
    cases flow with
    | proceed stmt' =>
      obtain ⟨hfills, hframe⟩ := hflow
      have hfill : stmt.SameFrame (slot.fill { content with statements := walked.statements } stmt) :=
        .fill hcontent rfl
      exact ⟨.cons hcontent hwalked hfills, hfill.trans hframe⟩
    | replaceFunction decl => exact hflow

/-- Placing the output of a call settles its statement by the call and those that follow. -/
theorem placeSplit_accounts (hrun : walkRun.Rewrites expander file)
    {settle : Split → ExpandM (Recording σ) (Flow Split)}
    (hsettle : ∀ stmt, (settle ⟨done, stmt :: rest⟩).Accounts expander file (Flow.Told
      fun calls last => ∃ out, last.done = done ++ out ∧ Settles calls stmt rest out last.todo))
    (call : PlacedCall) (hisOf : call.IsOf expander file) (hstands : call.StandsIn stmt rest) :
    (placeSplit { expander, file } walkRun settle setting ⟨done, stmt :: rest⟩ call.bound
      call.placement).Accounts expander file fun later => Flow.Told (fun calls last =>
        ∃ out, last.done = done ++ out ∧ Settles calls stmt rest out last.todo) (call :: later) := by
  have hfree (hsplice : ∀ run, call.placement ≠ .splice run)
      (hfunction : ∀ decl, call.placement ≠ .function decl) : call.bound.captured = 0 :=
    BoundCall.captured_eq_zero_of_place hisOf.placed hsplice hfunction
  -- one statement is settled in the same place, and what is told of it is told with this call first
  have honward {stmt' : Stmt}
      (h : ∀ later out left, Settles later stmt' rest out left →
        Settles (call :: later) stmt rest out left) :
      (settle ⟨done, stmt' :: rest⟩).Accounts expander file fun later => Flow.Told (fun calls last =>
        ∃ out, last.done = done ++ out ∧ Settles calls stmt rest out last.todo) (call :: later) := by
    refine (hsettle stmt').mono fun later flow hflow => ?_
    cases flow with
    | proceed last =>
      obtain ⟨out, hdone, hsettles⟩ := hflow
      exact ⟨out, hdone, h _ _ _ hsettles⟩
    | replaceFunction decl => exact fun hnone => hflow (List.forall_mem_cons.mp hnone).2
  cases hplacement : call.placement with
  | empty =>
    have hcaptured := hfree (by simp [hplacement]) (by simp [hplacement])
    simp only [placeSplit, Setting.stmt_cursor]
    exact honward fun later out left =>
      Settles.of_single hstands (by rw [hplacement]; rfl) hcaptured
  | statement stmt' =>
    have hcaptured := hfree (by simp [hplacement]) (by simp [hplacement])
    exact honward fun later out left =>
      Settles.of_single hstands (by rw [hplacement]; rfl) hcaptured
  | function decl =>
    refine .pure fun hnone => hnone call List.mem_cons_self ?_
    rw [hplacement]
    rfl
  | splice run =>
    refine (hrun _ _ _).mono fun later flow hflow => ?_
    cases flow with
    | proceed last =>
      obtain ⟨out, hdone, hturns⟩ := hflow
      exact ⟨out, hdone, .replaced hstands (by rw [hplacement]; rfl) hturns⟩
    | replaceFunction decl => exact fun hnone => hflow (List.forall_mem_cons.mp hnone).2
  | inPlace expr =>
    simp only [placeSplit, Setting.stmt_cursor]
    cases hreplaced : stmt.replaceCall? call.bound.site.call expr with
    | none => exact .throw _
    | some stmt' =>
      obtain ⟨hframe, hlambdas⟩ := Stmt.frame_replaceCall? hreplaced
      exact honward fun later out left =>
        .inPlace hstands hplacement hreplaced hframe hlambdas

/-- Settling a statement tells how it is settled. -/
theorem settleSplit_accounts (hrun : walkRun.Rewrites expander file)
    (hnested : walkNested.Rewrites expander file) (allowed : Nat) (stmt : Stmt) :
    (settleSplit { expander, file } walkRun walkNested setting allowed ⟨done, stmt :: rest⟩).Accounts
      expander file (Flow.Told fun calls last =>
        ∃ out, last.done = done ++ out ∧ Settles calls stmt rest out last.todo) := by
  have hkept (stmt : Stmt) :
      (walkSlots walkNested (setting.cursor ⟨done, stmt :: rest⟩) (Slot.all stmt) >>=
        (·.followedBy fun stmt => pure (.proceed (Split.mk (done ++ [stmt]) rest)))).Accounts expander
          file (Flow.Told fun calls last =>
            ∃ out, last.done = done ++ out ∧ Settles calls stmt rest out last.todo) := by
    refine (walkSlots_accounts hnested _ stmt fun _ => id).followedBy fun calls stmt' h => ?_
    obtain ⟨hfills, hframe⟩ := h
    refine .pure ⟨[stmt'], rfl, ?_⟩
    rw [List.append_nil]
    exact .kept hfills hframe
  induction allowed generalizing stmt with
  | zero =>
    rw [settleSplit_zero _ _ _ _ _ _ _ fun _ _ => throw .exhausted]
    exact attend_accounts (hkept stmt) fun _ _ _ => .throw _
  | succ allowed ih =>
    rw [settleSplit_succ]
    exact attend_accounts (hkept stmt) (placeSplit_accounts hrun ih)

/-- The statements of a sequence are accounted for one after the other, up to where the walk stops. -/
theorem walkSplit_accounts (hrun : walkRun.Rewrites expander file)
    (hnested : walkNested.Rewrites expander file) (tail steps : Nat) (split : Split) :
    (walkSplit { expander, file } walkRun walkNested setting tail steps split).Accounts expander file
      (Flow.Told fun calls last =>
        ∃ out, last.done = split.done ++ out ∧ Turns calls split.todo out last.todo) := by
  have hstop (split : Split) : ∃ out, split.done = split.done ++ out ∧
      Turns [] split.todo out split.todo := ⟨[], (List.append_nil _).symm, .stop _⟩
  induction steps generalizing split with
  | zero => exact .pure (hstop split)
  | succ steps ih =>
    unfold walkSplit
    split
    · obtain ⟨done, todo⟩ := split
      cases todo with
      | nil => exact absurd ‹tail < _› (Nat.not_lt_zero tail)
      | cons stmt rest =>
        refine ExpandM.Accounts.checkCancelled.bind ?_
        rintro _ _ rfl
        refine (settleSplit_accounts hrun hnested _ stmt).followedBy fun calls middle h => ?_
        obtain ⟨out, hdone, hsettles⟩ := h
        refine (ih middle).mono fun later flow hflow => ?_
        cases flow with
        | proceed last =>
          obtain ⟨out', hdone', hturns⟩ := hflow
          refine ⟨out ++ out', ?_, .step hsettles hturns⟩
          rw [hdone', hdone, List.append_assoc]
        | replaceFunction decl => exact hflow
    · exact .pure (hstop split)

/-- The walk of whole sequences settles all of their statements. -/
theorem onSequence_rewrites (hadvances : walkRun.Advances) (hrun : walkRun.Rewrites expander file) :
    walkRun.onSequence.Rewrites expander file := by
  intro scope depth span statements
  unfold SplitWalk.onSequence
  rw [Nat.sub_self, List.take_zero, List.drop_zero]
  have hwalk : (walkRun ⟨scope, depth, span⟩ 0 ⟨[], statements⟩).Accounts expander file
      (Flow.Told fun calls last => Turns calls statements last.statements []) := by
    refine ((hrun _ 0 _).and_ensures (hadvances _ 0 _)).mono fun calls flow hflow => ?_
    cases flow with
    | proceed last =>
      obtain ⟨⟨out, hdone, hturns⟩, hholds⟩ := hflow
      -- nothing is left at the end
      have hleft : last.todo = [] :=
        List.length_eq_zero_iff.mp (Nat.le_zero.mp (Flow.holds_proceed.mp hholds).2)
      rw [hleft] at hturns
      change Turns calls statements (last.done ++ last.todo) []
      rw [hleft, hdone, List.nil_append, List.append_nil]
      exact hturns
    | replaceFunction decl => exact hflow.1
  refine hwalk.followedBy fun calls last h => .pure ?_
  change Turns (calls ++ []) statements last.statements []
  rw [List.append_nil]
  exact h

/-- The walk of a parted sequence tells how it rewrites it. -/
theorem splitWalk_rewrites (nesting : Nat) :
    (splitWalk (σ := Recording σ) { expander, file } nesting).Rewrites expander file := by
  induction nesting with
  | zero => exact fun _ _ _ => .throw _
  | succ nesting ih =>
    exact fun setting tail split => walkSplit_accounts ih
      (onSequence_rewrites (splitWalk_advances _ nesting) ih) tail _ split

/-- The walk of a sequence tells how it rewrites it. -/
theorem walk_rewrites (nesting : Nat) :
    (walk (σ := Recording σ) { expander, file } nesting).Rewrites expander file := by
  intro scope depth span statements
  rw [expander.walk_whole]
  exact onSequence_rewrites (splitWalk_advances _ nesting) (splitWalk_rewrites nesting) scope depth
    span statements

/-! ## Files -/

/-- A block is rewritten by the calls of its walk. -/
theorem walkBlock_accounts (h : walkAll.Rewrites expander file) (scope : Scope) (block : Block) :
    (walkBlock walkAll scope block).Accounts expander file
      (Flow.Told fun calls => Block.RewrittenBy calls block) := by
  refine (h _ _ _ _).followedBy fun calls walked hwalked => .pure ⟨rfl, ?_⟩
  rw [List.append_nil]
  exact hwalked

/-- A function that is not replaced has its body rewritten. -/
theorem expandFunction_accounts (h : walkAll.Rewrites expander file) (allowed : Nat)
    (decl : FunctionDecl) :
    (expandFunction { expander, file } walkAll allowed decl).Accounts expander file
      (KeepsOutline FunctionDecl.withoutCode (fun decl => [decl.body]) · decl) := by
  have hkept {calls : List PlacedCall} {decl : FunctionDecl} {body : Block}
      (hbody : Block.RewrittenBy calls decl.body body) :
      KeepsOutline FunctionDecl.withoutCode (fun decl => [decl.body]) (calls ++ []) decl
        { decl with body } := by
    intro _
    rw [List.append_nil]
    exact ⟨congrArg (fun body => { decl with body }) hbody.1, .single hbody⟩
  induction allowed generalizing decl
  all_goals
    unfold expandFunction
    refine (walkBlock_accounts h _ decl.body).bind fun calls flow hflow => ?_
  case zero =>
    cases flow with
    | proceed body => exact .pure (hkept hflow)
    | replaceFunction replacement => exact .throw _
  case succ allowed ih =>
    cases flow with
    | proceed body => exact .pure (hkept hflow)
    | replaceFunction replacement =>
      exact (ih replacement).mono fun later _ _ hnone =>
        absurd (noFunctionPlaced_append.mp hnone).1 hflow

/-- A block outside of functions is rewritten by the calls of its walk. -/
theorem expandLoose_accounts (h : walkAll.Rewrites expander file) (scope : Scope) (block : Block)
    (span : Span) :
    (expandLoose { expander, file } walkAll scope block span).Accounts expander file
      fun calls => Block.RewrittenBy calls block := by
  unfold expandLoose
  refine (walkBlock_accounts h scope block).bind fun calls flow hflow => ?_
  cases flow with
  | proceed body =>
    refine .pure ?_
    rw [List.append_nil]
    exact hflow
  | replaceFunction decl => exact .throw _

/-- A member keeps all but its code, and its bodies are rewritten. -/
theorem expandMember_accounts (h : walkAll.Rewrites expander file) (member : Member) :
    (expandMember { expander, file } walkAll member).Accounts expander file
      (KeepsOutline Member.withoutCode Member.bodies · member) := by
  cases member with
  | function decl =>
    refine (expandFunction_accounts h _ decl).bind_pure fun calls decl' hdecl hnone => ?_
    obtain ⟨houtline, hbodies⟩ := hdecl hnone
    exact ⟨congrArg Member.function houtline, hbodies⟩
  | property decl =>
    have haccessor (accessor : Accessor) :
        (do
          let scope := Scope.ofAccessor decl.name accessor.kind
          return { accessor with
            body := ← expandLoose { expander, file } walkAll scope accessor.body
              accessor.span }).Accounts expander file
          (KeepsOutline Accessor.withoutCode (fun accessor => [accessor.body]) · accessor) :=
      (expandLoose_accounts h _ _ _).bind_pure fun calls body hbody _ =>
        ⟨congrArg (fun body => { accessor with body }) hbody.1, .single hbody⟩
    have hproperty : (expandProperty { expander, file } walkAll decl).Accounts expander file
        (KeepsOutline PropertyDecl.withoutCode (·.accessors.map Accessor.body) · decl) := by
      refine (ExpandM.Accounts.mapM haccessor _).bind_pure fun calls accessors haccessors hnone => ?_
      obtain ⟨houtline, hbodies⟩ := KeepsOutline.of_inParts haccessors hnone
      refine ⟨congrArg (fun accessors => { decl with accessors }) houtline, ?_⟩
      simp only [List.map_eq_flatMap]
      exact hbodies
    refine hproperty.bind_pure fun calls decl' hdecl hnone => ?_
    obtain ⟨houtline, hbodies⟩ := hdecl hnone
    exact ⟨congrArg Member.property houtline, hbodies⟩

/-- An item keeps all but its code, and its bodies are rewritten. -/
theorem expandItem_accounts (h : walkAll.Rewrites expander file) (item : Item) :
    (expandItem { expander, file } walkAll item).Accounts expander file
      (KeepsOutline Item.withoutCode Item.bodies · item) := by
  cases item with
  | function decl =>
    refine (expandFunction_accounts h _ decl).bind_pure fun calls decl' hdecl hnone => ?_
    obtain ⟨houtline, hbodies⟩ := hdecl hnone
    exact ⟨congrArg Item.function houtline, hbodies⟩
  | typeDecl decl =>
    refine (ExpandM.Accounts.mapM (expandMember_accounts h) _).bind_pure
      fun calls members hmembers hnone => ?_
    obtain ⟨houtline, hbodies⟩ := KeepsOutline.of_inParts hmembers hnone
    exact ⟨congrArg (fun members => Item.typeDecl { decl with members }) houtline, hbodies⟩
  | statements block =>
    refine (expandLoose_accounts h _ block _).bind_pure fun calls block' hblock _ => ?_
    exact ⟨congrArg Item.statements hblock.1, .single hblock⟩

end FileWalk

/-- The expansion of a file rewrites the bodies of its items. -/
theorem Expander.itemsProgram_accounts (expander : Expander) (tree : SyntaxTree) (nesting : Nat) :
    (itemsProgram (σ := Recording σ) (·.walk nesting) expander tree).Accounts expander
      ⟨tree.path, tree.source⟩
      (KeepsOutline (List.map Item.withoutCode) (List.flatMap Item.bodies) · tree.items) :=
  (ExpandM.Accounts.mapM (FileWalk.expandItem_accounts (FileWalk.walk_rewrites nesting))
    tree.items).mono fun _ _ => KeepsOutline.of_inParts

/-- What a run of an expansion comes to is accounted for by calls. -/
theorem Expander.exists_gains {expander : Expander} {nesting : Nat} {tree : SyntaxTree}
    {workspace : Workspace σ} {expansion : Expansion}
    (h : (expander.expandWithin nesting tree workspace).1 = .ok expansion) :
    ∃ calls ended, Progress.Gains expander ⟨tree.path, tree.source⟩
        { toWorkspace := workspace.recorded } calls ended ∧
      (expander.expandWithin nesting tree workspace.recorded).2 = ended.toWorkspace ∧
      expansion.trace = ended.trace.toList ∧ expansion.warnings = ended.warnings.toList ∧
      KeepsOutline SyntaxTree.withoutCode SyntaxTree.bodies calls tree expansion.tree := by
  obtain ⟨_, -, hrecorded⟩ := expander.expandWithin_recorded nesting tree workspace []
  have hok : (expander.expandWithin nesting tree workspace.recorded).1 = .ok expansion := by
    rw [hrecorded]
    exact h
  unfold expandWithin at hok ⊢
  rw [expandBy_eq] at hok ⊢
  rcases hrun : (itemsProgram (·.walk nesting) expander tree).runFrom
    { toWorkspace := workspace.recorded } with ⟨stop | items, ended⟩
  all_goals
    rw [hrun] at hok
    cases hok
  obtain ⟨calls, hgains, hkeeps⟩ := expander.itemsProgram_accounts tree nesting _ _ _
    (workspace.isRecording_recorded []) hrun
  refine ⟨calls, ended, hgains, rfl, rfl, rfl, fun hnone => ?_⟩
  obtain ⟨houtline, hbodies⟩ := hkeeps hnone
  exact ⟨congrArg (fun items => { tree with items }) houtline, hbodies⟩

/-- The calls are those that the expansion of a file places, in the order in which it places them. -/
structure Expander.Places (expander : Expander) (nesting : Nat) (tree : SyntaxTree)
    (workspace : Workspace σ) (calls : List PlacedCall) : Prop where
  /-- They are calls of the file, bound by the expansion. -/
  isOf : ∀ call ∈ calls, call.IsOf expander ⟨tree.path, tree.source⟩
  /-- Their macros are invoked, and no others. -/
  invocations :
    (expander.expandWithin nesting tree workspace.recorded).2.session.host.invocations =
      calls.map PlacedCall.entry
  /-- They are the steps of the trace, if it is recorded. -/
  trace : ((expander.withTrace true).expandWithin nesting tree workspace).1.map Expansion.trace =
    .ok (calls.map PlacedCall.step)

/-- What an expansion comes to is accounted for by the calls that it places. -/
theorem Expander.places_of_expandWithin {expander : Expander} {nesting : Nat} {tree : SyntaxTree}
    {workspace : Workspace σ} {expansion : Expansion}
    (h : (expander.expandWithin nesting tree workspace).1 = .ok expansion) :
    ∃ calls, expander.Places nesting tree workspace calls ∧
      expansion.warnings = calls.flatMap (·.bound.placeholderWarnings) ∧
      KeepsOutline SyntaxTree.withoutCode SyntaxTree.bodies calls tree expansion.tree ∧
      ∀ call ∈ calls, ∃ registry, workspace.registry.LookedUp expander.rules registry ∧
        call.IsServedBy expander ⟨tree.path, tree.source⟩ registry := by
  rw [expander.expandWithin_eq_traced] at h
  cases htraced : ((expander.withTrace true).expandWithin nesting tree workspace).1 with
  | error stop =>
    rw [htraced] at h
    cases h
  | ok traced =>
    rw [htraced] at h
    cases h
    obtain ⟨calls, ended, hgains, hleft, htrace, hwarnings, hkeeps⟩ := exists_gains htraced
    obtain ⟨_, -, -, hserved⟩ := hgains.serves workspace.registry rfl
    refine ⟨calls, ⟨fun call hcall => ?_, ?_, ?_⟩, hwarnings.trans hgains.warnings, hkeeps, ?_⟩
    · obtain ⟨hleads, hbinds, htypes, hplaced⟩ := hgains.isOf call hcall
      exact ⟨hleads, hbinds, htypes, hplaced⟩
    · rw [expander.expandWithin_eq_traced, hleft]
      exact hgains.invocations
    · rw [htraced]
      exact congrArg Except.ok (htrace.trans hgains.trace)
    · exact hserved

/-- An expansion that puts no function in place of another one touches nothing but the code in bodies.
The file keeps its path and text, its items with their headers, members and places, and the places of
its bodies. What becomes of each body is told by the calls that were placed in it: a statement is
gone only where a call stood for it or captured it, every other one keeps its frame, and so do the
lambdas that it evaluates, outside of what a call was replaced by. -/
theorem expansion_touches_only_bodies (expander : Expander) (nesting : Nat) (tree : SyntaxTree)
    (workspace : Workspace σ) (expansion : Expansion)
    (h : (expander.expandWithin nesting tree workspace).1 = .ok expansion) :
    ∃ calls, expander.Places nesting tree workspace calls ∧
      ((∀ call ∈ calls, call.placement.kind ≠ .function) →
        expansion.tree.withoutCode = tree.withoutCode ∧
          InParts Block.RewrittenBy calls tree.bodies expansion.tree.bodies) := by
  obtain ⟨calls, hplaces, -, hkeeps, -⟩ := Expander.places_of_expandWithin h
  exact ⟨calls, hplaces, hkeeps⟩

/-- A statement in a block is left out, and the function, the block and the other statement stay. -/
theorem expansion_touches_only_bodies_in_block :
    let expander : Expander :=
      { model := (({} : SymbolTable).declare skipMacro).model, config := { recordTrace := false } }
    let before := blockFile [.evaluate (.callOf "Skip" []), .evaluate (.callOf "Log" [])]
    let after := blockFile [.nothing, .evaluate (.callOf "Log" [])]
    (expander.expandWithin 3 before skipWorkspace).1 = .ok ⟨after, [], []⟩ ∧
      ∃ calls, expander.Places 3 before skipWorkspace calls ∧ calls.length = 1 ∧
        after.withoutCode = before.withoutCode ∧
        InParts Block.RewrittenBy calls before.bodies after.bodies := by
  intro expander before after
  have hrun : (expander.expandWithin 3 before skipWorkspace).1 = .ok ⟨after, [], []⟩ := by cbv
  have htrace : ((expander.withTrace true).expandWithin 3 before skipWorkspace).1.map
      Expansion.trace = .ok [⟨skipMacro.qualifiedName, default, "Skip()", [], .empty⟩] := by cbv
  obtain ⟨calls, hplaces, hkeeps⟩ := expansion_touches_only_bodies expander 3 before skipWorkspace _ hrun
  have hsteps := Except.ok.inj (hplaces.trace.symm.trans htrace)
  refine ⟨hrun, calls, hplaces, ?_, hkeeps fun call hcall hfunction => ?_⟩
  · simpa using congrArg List.length hsteps
  · -- the only call leaves its statement empty
    have hstep := List.mem_map_of_mem (f := PlacedCall.step) hcall
    rw [hsteps] at hstep
    have hkind := congrArg ExpansionStep.splice (List.mem_singleton.mp hstep)
    rw [PlacedCall.step, hfunction] at hkind
    cases hkind

end MacroExpansion
