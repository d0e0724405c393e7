import MacroExpansion.Proofs.CallContext
import MacroExpansion.Proofs.CallOutcome
import MacroExpansion.Proofs.WalkAgrees
import MacroExpansion.Symbol.Table
import MacroExpansion.Tree.Build

/-! # The effect of what a macro wrote

A macro writes through its quotes and may ask for a replacement through the call binding. What it
wrote either breaks the contract with its call, or it is a function for the one around the call, or
it leaves code for the statement of the call and the statements that the call captured.
`BoundCall.BreaksContract` and `BoundCall.Leaves` say which from the fragments alone, without the
placement in between; `output_decides_effect` says that the expansion of a call goes by them, and that
the walk goes on with the code where the statement and the captured ones were
(`FileWalk.GoesOnWith`): one statement is settled in the place of the call's, and a run is walked
between what is before and behind these statements, and then stands for all of them. -/

namespace MacroExpansion

/-! ## Fragments that fit a call -/

namespace BoundCall

/-- The fragments that count: the replacement that was asked for, or else what went through the
quotes. -/
def counted (written requested : List Fragment) : List Fragment :=
  if requested = [] then written else requested

/-- The fragments cannot stand for the call. -/
inductive Misfits (bound : BoundCall) (fragments : List Fragment) : Prop where
  /-- There are none, and the call has to give a value or is not all of its statement. -/
  | nothing (h : fragments = [])
      (hneeded : bound.symbol.hasResult = true ∨
        ∀ span, bound.site.statement ≠ .expr (.call bound.site.call) span)
  /-- There is a function, and it is not the only fragment or there is none around the call. -/
  | function {decl : FunctionDecl} (h : .function decl ∈ fragments)
      (hplace : fragments.length ≠ 1 ∨ bound.site.function = none)

/-- The output of the macro is against the contract with its call: it went through both channels, or
it cannot stand for the call. -/
def BreaksContract (bound : BoundCall) (written requested : List Fragment) : Prop :=
  (written ≠ [] ∧ requested ≠ []) ∨ bound.Misfits (counted written requested)

/-- What fragments leave of the statement of a call and the ones that the call captured. -/
inductive Leaves (bound : BoundCall) : List Fragment → List Stmt → Prop where
  /-- The empty statement, when there is nothing in place of a statement alone. -/
  | nothing (h : bound.captured = 0) : Leaves bound [] [.empty bound.site.statement.span]
  /-- The statement, with an expression in place of the call. -/
  | replaced {value : Expr} {stmt : Stmt}
      (h : Stmt.ReplacedIn bound.site.call value bound.site.statement stmt) :
      Leaves bound [.expr value] [stmt]
  /-- The fragments in their order, expressions as statements. -/
  | run {fragments : List Fragment} {code : List Stmt}
      (hnothing : fragments = [] → bound.captured ≠ 0) (hvalue : ∀ value, fragments ≠ [.expr value])
      (h : fragments.map Fragment.toStmt? = code.map some) : Leaves bound fragments code

variable {bound : BoundCall} {fragments : List Fragment} {code : List Stmt}

/-- Code is left of fragments none of which is a function. -/
theorem Leaves.not_mem_function (h : bound.Leaves fragments code) (decl : FunctionDecl) :
    .function decl ∉ fragments := by
  intro hmem
  cases h with
  | nothing | replaced => simp at hmem
  | run _ _ h =>
    have hnone : none ∈ fragments.map Fragment.toStmt? := List.mem_map_of_mem hmem
    rw [h] at hnone
    simp at hnone

/-- Fragments that leave code can stand for the call, if there are any. -/
theorem Leaves.not_misfits (h : bound.Leaves fragments code) (hne : fragments ≠ []) :
    ¬bound.Misfits fragments := by
  rintro (⟨hnothing, -⟩ | ⟨hmem, -⟩)
  · exact hne hnothing
  · exact h.not_mem_function _ hmem

/-- But for a statement alone there are as many statements left as there are fragments. -/
theorem Leaves.length_eq (h : bound.Leaves fragments code)
    (hsome : fragments = [] → bound.captured ≠ 0) : code.length = fragments.length := by
  cases h with
  | nothing hcaptured => exact absurd hcaptured (hsome rfl)
  | replaced => rfl
  | run _ _ h => simpa using (congrArg List.length h).symm

end BoundCall

/-- Fragments are statements one by one, or one of them is a function. -/
theorem Fragment.mapM_toStmt?_cases (fragments : List Fragment) :
    (∃ run, fragments.mapM Fragment.toStmt? = some run ∧
      fragments.map Fragment.toStmt? = run.map some) ∨
    (fragments.mapM Fragment.toStmt? = none ∧ ∃ decl, .function decl ∈ fragments) := by
  induction fragments with
  | nil => exact .inl ⟨[], rfl, rfl⟩
  | cons fragment rest ih =>
    cases hfirst : fragment.toStmt? with
    | none =>
      cases fragment with
      | expr | stmt => cases hfirst
      | function decl => exact .inr ⟨by rw [List.mapM_cons, hfirst]; rfl, decl, List.mem_cons_self⟩
    | some stmt =>
      rcases ih with ⟨run, hrun, hmap⟩ | ⟨hnone, decl, hmem⟩
      · exact .inl ⟨stmt :: run, by rw [List.mapM_cons, hfirst, hrun]; rfl,
          by rw [List.map_cons, hfirst, hmap, List.map_cons]⟩
      · exact .inr ⟨by rw [List.mapM_cons, hfirst, hnone]; rfl, decl,
          List.mem_cons_of_mem fragment hmem⟩

/-! ## Placements -/

/-- A placement puts code where the statement of a call and the ones that it captured were. -/
inductive Placement.Puts (bound : BoundCall) : Placement → List Stmt → Prop where
  /-- The statement becomes empty. -/
  | empty (h : bound.captured = 0) : Puts bound .empty [.empty bound.site.statement.span]
  /-- The call is replaced in its statement. -/
  | inPlace {value : Expr} {stmt : Stmt} (h : bound.captured = 0)
      (hstmt : bound.site.statement.replaceCall? bound.site.call value = some stmt) :
      Puts bound (.inPlace value) [stmt]
  /-- The statement is another one. -/
  | statement {stmt : Stmt} (h : bound.captured = 0) : Puts bound (.statement stmt) [stmt]
  /-- A run is spliced in. -/
  | splice {run : List Stmt} : Puts bound (.splice run) run

namespace BoundCall

variable {bound : BoundCall} {fragments : List Fragment} {code : List Stmt}
  {placement : Placement}

/-- Fragments that do not fit a call have no place. -/
theorem place_eq_error {fault : Fault}
    (h : Placement.ofFragments bound.symbol bound.site fragments = .error fault) :
    bound.place fragments = .error fault := by
  rw [place, h]
  rfl

/-- Fragments that fit a call have the place that is their own, or one over the captured statements. -/
theorem place_eq_ok (h : Placement.ofFragments bound.symbol bound.site fragments = .ok placement) :
    bound.place fragments =
      .ok (if bound.captured = 0 then placement else placement.overCaptured bound.site) := by
  rw [place, h]
  rfl

/-- What is decided of the fragments of a call: they cannot stand for it, they are a function for the
one around it, or they leave code. -/
inductive Decided (bound : BoundCall) (fragments : List Fragment) :
    Except Fault Placement → Prop where
  /-- The fragments break the contract. -/
  | misfits {fault : Fault} (h : bound.Misfits fragments) (hkind : fault.kind = .contract) :
      Decided bound fragments (.error fault)
  /-- A single function stands for the one around the call. -/
  | function {decl : FunctionDecl} (hfits : ¬bound.Misfits fragments)
      (h : fragments = [.function decl]) : Decided bound fragments (.ok (.function decl))
  /-- The fragments leave code. -/
  | leaves {placement : Placement} {code : List Stmt} (hfits : ¬bound.Misfits fragments)
      (h : bound.Leaves fragments code) (hputs : placement.Puts bound code) :
      Decided bound fragments (.ok placement)

/-- No fragments leave an empty statement or nothing at all, where the call is a statement without a
value. -/
theorem decided_nil : bound.Decided [] (bound.place []) := by
  by_cases hresult : bound.symbol.hasResult = true
  · have hplaced : Placement.ofFragments bound.symbol bound.site [] =
        .error (.valueMissing bound.symbol.qualifiedName) := by
      rw [Placement.ofFragments, if_pos hresult]
    rw [place_eq_error hplaced]
    exact .misfits (.nothing rfl (.inl hresult)) rfl
  · by_cases hcall : bound.site.statement.isCall bound.site.call = true
    · obtain ⟨span, hspan⟩ := Stmt.isCall_iff.mp hcall
      have hfits : ¬bound.Misfits [] := by
        rintro (⟨-, h | h⟩ | ⟨h, -⟩)
        · exact hresult h
        · exact h span hspan
        · cases h
      have hplaced : Placement.ofFragments bound.symbol bound.site [] = .ok .empty := by
        rw [Placement.ofFragments, if_neg hresult, if_pos hcall]
      rw [place_eq_ok hplaced]
      by_cases hcaptured : bound.captured = 0
      · rw [if_pos hcaptured]
        exact .leaves hfits (.nothing hcaptured) (.empty hcaptured)
      · rw [if_neg hcaptured]
        exact .leaves hfits (.run (fun _ => hcaptured) (fun _ h => by cases h) rfl) .splice
    · have hplaced : Placement.ofFragments bound.symbol bound.site [] =
          .error (.statementMissing bound.symbol.qualifiedName) := by
        rw [Placement.ofFragments, if_neg hresult, if_neg hcall]
      rw [place_eq_error hplaced]
      refine .misfits (.nothing rfl (.inr fun span hspan => hcall ?_)) rfl
      exact Stmt.isCall_iff.mpr ⟨span, hspan⟩

/-- A single expression replaces the call in its statement. -/
theorem decided_expr (hcall : bound.site.call ∈ bound.site.statement.ownCalls) (value : Expr) :
    bound.Decided [.expr value] (bound.place [.expr value]) := by
  have hsome : (bound.site.statement.replaceCall? bound.site.call value).isSome :=
    Stmt.isSome_replaceCall? hcall
  obtain ⟨stmt, hstmt⟩ := Option.isSome_iff_exists.mp hsome
  have hleaves : bound.Leaves [.expr value] [stmt] :=
    .replaced (Stmt.replacedIn_of_replaceCall? hstmt)
  have hfits := hleaves.not_misfits (List.cons_ne_nil _ _)
  have hplaced : Placement.ofFragments bound.symbol bound.site [.expr value] =
      .ok (.inPlace value) := rfl
  rw [place_eq_ok hplaced]
  by_cases hcaptured : bound.captured = 0
  · rw [if_pos hcaptured]
    exact .leaves hfits hleaves (.inPlace hcaptured hstmt)
  · rw [if_neg hcaptured, Placement.overCaptured, hstmt]
    exact .leaves hfits hleaves .splice

/-- A single statement stands for that of the call. -/
theorem decided_stmt (stmt : Stmt) : bound.Decided [.stmt stmt] (bound.place [.stmt stmt]) := by
  have hleaves : bound.Leaves [.stmt stmt] [stmt] :=
    .run (fun h => by cases h) (fun value h => by cases h) rfl
  have hfits := hleaves.not_misfits (List.cons_ne_nil _ _)
  have hplaced : Placement.ofFragments bound.symbol bound.site [.stmt stmt] =
      .ok (.statement stmt) := rfl
  rw [place_eq_ok hplaced]
  by_cases hcaptured : bound.captured = 0
  · rw [if_pos hcaptured]
    exact .leaves hfits hleaves (.statement hcaptured)
  · rw [if_neg hcaptured]
    exact .leaves hfits hleaves .splice

/-- A single function stands for the one around the call, if there is one. -/
theorem decided_function (decl : FunctionDecl) :
    bound.Decided [.function decl] (bound.place [.function decl]) := by
  cases hfunction : bound.site.function with
  | none =>
    have hplaced : Placement.ofFragments bound.symbol bound.site [.function decl] =
        .error (.functionOutsideFunction bound.symbol.qualifiedName) := by
      rw [Placement.ofFragments, hfunction]
      rfl
    rw [place_eq_error hplaced]
    exact .misfits (.function List.mem_cons_self (.inr hfunction)) rfl
  | some function =>
    have hfits : ¬bound.Misfits [.function decl] := by
      rintro (⟨h, -⟩ | ⟨-, h | h⟩)
      · cases h
      · exact h rfl
      · simp [hfunction] at h
    have hplaced : Placement.ofFragments bound.symbol bound.site [.function decl] =
        .ok (.function decl) := by
      rw [Placement.ofFragments, hfunction]
      rfl
    -- captured statements or not, a function stays what it is
    have hplace : bound.place [.function decl] = .ok (.function decl) := by
      rw [place_eq_ok hplaced]
      split <;> rfl
    rw [hplace]
    exact .function hfits rfl

/-- Several fragments are a run of statements, if they are statements. -/
theorem decided_several (first second : Fragment) (rest : List Fragment) :
    bound.Decided (first :: second :: rest) (bound.place (first :: second :: rest)) := by
  rcases Fragment.mapM_toStmt?_cases (first :: second :: rest) with
    ⟨run, hrun, hmap⟩ | ⟨hnone, decl, hmem⟩
  · have hleaves : bound.Leaves (first :: second :: rest) run :=
      .run (fun h => by cases h) (fun value h => by cases h) hmap
    have hfits := hleaves.not_misfits (List.cons_ne_nil _ _)
    have hplaced : Placement.ofFragments bound.symbol bound.site (first :: second :: rest) =
        .ok (.splice run) := by
      cases first <;> simp only [Placement.ofFragments, hrun]
    have hplace : bound.place (first :: second :: rest) = .ok (.splice run) := by
      rw [place_eq_ok hplaced]
      split <;> rfl
    rw [hplace]
    exact .leaves hfits hleaves .splice
  · have hplaced : Placement.ofFragments bound.symbol bound.site (first :: second :: rest) =
        .error (.functionAmongOthers bound.symbol.qualifiedName) := by
      cases first <;> simp only [Placement.ofFragments, hnone]
    rw [place_eq_error hplaced]
    exact .misfits (.function hmem (.inl (by simp))) rfl

/-- The placement of fragments is decided by their number and kind. -/
theorem decided (hcall : bound.site.call ∈ bound.site.statement.ownCalls) :
    ∀ fragments, bound.Decided fragments (bound.place fragments)
  | [] => decided_nil
  | [.expr value] => decided_expr hcall value
  | [.stmt stmt] => decided_stmt stmt
  | [.function decl] => decided_function decl
  | first :: second :: rest => decided_several first second rest

end BoundCall

/-- Output goes through one channel, or it is reported that it went through both. -/
theorem BoundCall.output_cases (bound : BoundCall) (written requested : List Fragment) :
    ((written ≠ [] ∧ requested ≠ []) ∧
      bound.output written requested = .error (.bothChannels bound.symbol.qualifiedName)) ∨
    (¬(written ≠ [] ∧ requested ≠ []) ∧
      bound.output written requested = .ok (counted written requested)) := by
  cases requested with
  | nil => exact .inr ⟨fun h => h.2 rfl, rfl⟩
  | cons first others =>
    cases written with
    | nil => exact .inr ⟨fun h => h.1 rfl, rfl⟩
    | cons => exact .inl ⟨⟨List.cons_ne_nil _ _, List.cons_ne_nil _ _⟩, rfl⟩

variable {σ : Type}

namespace Expander

variable {expander : Expander} {source : Option SourceText} {bound : BoundCall}
  {progress : Progress σ} {implementation implementation' : Implementation σ}
  {registry registry' : Registry σ} {invoked invoked' : Invoked σ} {requested : List Fragment}

/-- A call from a progress has one run. -/
theorem Runs.unique (h : expander.Runs source bound progress implementation registry invoked)
    (h' : expander.Runs source bound progress implementation' registry' invoked') :
    invoked' = invoked := by
  have hresolved := h.resolved.symm.trans h'.resolved
  obtain ⟨typeArgs, htypes, hinvoked⟩ := h.invoked
  obtain ⟨typeArgs', htypes', hinvoked'⟩ := h'.invoked
  cases hresolved
  cases htypes.symm.trans htypes'
  exact hinvoked'.symm.trans hinvoked

/-- A call whose macro body comes to its end is expanded into the placement of the output. -/
theorem outcome_of_runs
    (hruns : expander.Runs source bound progress implementation registry invoked)
    (houtcome : invoked.outcome = .ok requested) :
    ((expander.expandCall source bound).runFrom progress).1 =
      (bound.output (invoked.buffers.fragments bound.buffer) requested >>= bound.place).mapError
        fun fault => .error (.atSpan fault bound.site.call.span source) := by
  have hcases := expander.callOutcome source bound progress
  generalize (expander.expandCall source bound).runFrom progress = outcome at hcases
  rcases outcome with ⟨outcome, ended⟩
  -- the run is the only one, so it decides which outcome it is
  cases hcases with
  | unresolved hresolved =>
    rw [hruns.resolved] at hresolved
    cases hresolved
  | untyped _ htypes =>
    obtain ⟨typeArgs, htypes', -⟩ := hruns.invoked
    rw [htypes'] at htypes
    cases htypes
  | stopped hruns' hstopped =>
    rw [hruns.unique hruns', houtcome] at hstopped
    cases hstopped
  | unplaced hruns' houtcome' hplace =>
    rw [hruns.unique hruns'] at houtcome' hplace
    cases houtcome.symm.trans houtcome'
    rw [hplace]
    rfl
  | placed hruns' houtcome' houtput hplace =>
    rw [hruns.unique hruns'] at houtcome' houtput
    cases houtcome.symm.trans houtcome'
    rw [houtput]
    exact congrArg (Except.mapError _) hplace.symm

end Expander

/-! ## The walk of a run -/

/-- How many of the statements behind a run its own calls captured, when it was walked between `before`
and `behind`. -/
def Walked.overrun (walked : Walked) (before run behind : List Stmt) : Nat :=
  min (walked.stopped - (before.length + run.length)) behind.length

/-- What has become of a run that was walked between `before` and `behind`: the walked sequence without
`before` and without what is left behind the run. -/
def Walked.between (walked : Walked) (before run behind : List Stmt) : List Stmt :=
  (walked.statements.take
    (walked.statements.length - (behind.length - walked.overrun before run behind))).drop before.length

/-- A sequence in which `before` and the rest of `behind` are left has between them what became of the
run. -/
theorem Walked.reads_between {before run became behind : List Stmt} {overrun : Nat}
    (hle : overrun ≤ behind.length) :
    let walked : Walked :=
      ⟨before ++ became ++ behind.drop overrun, before.length + run.length + overrun⟩
    walked.statements = before ++ walked.between before run behind ++
      behind.drop (walked.overrun before run behind) := by
  intro walked
  have hoverrun : walked.overrun before run behind = overrun := by
    rw [Walked.overrun, Nat.add_sub_cancel_left, Nat.min_eq_left hle]
  have hkept : walked.statements.length - (behind.length - overrun) = (before ++ became).length := by
    rw [List.length_append, List.length_drop, Nat.add_sub_cancel]
  have hbetween : walked.between before run behind = became := by
    rw [Walked.between, hoverrun, hkept, List.take_left, List.drop_left]
  rw [hbetween, hoverrun]

/-- The walk of a run leaves what is before it as it is, and of what is behind it all but what it
captured. -/
theorem FileWalk.walk_between {walk : FileWalk σ} (hshown : walk.GoesByShown) (nesting : Nat)
    (scope : Scope) (depth : Nat) (span : Span) (before run behind : List Stmt) :
    (walk.walk nesting scope depth span (before ++ run ++ behind) before.length
      (before.length + run.length)).Ensures (Flow.Holds fun walked =>
        walked.statements = before ++ walked.between before run behind ++
          behind.drop (walked.overrun before run behind)) := by
  have hstop : before.length + run.length ≤ (before ++ run ++ behind).length := by
    simp only [List.length_append]
    omega
  have hparted : Split.mk ((before ++ run ++ behind).take before.length)
      ((before ++ run ++ behind).drop before.length) = ⟨before, run ++ behind⟩ := by
    rw [List.append_assoc, List.take_left, List.drop_left]
  have hlength : (before ++ run ++ behind).length - (before.length + run.length) = behind.length := by
    simp only [List.length_append]
    omega
  rw [walk_agrees_splitWalk hshown nesting _ _ _ _ _ _ (Nat.le_add_right _ _) hstop]
  unfold SplitWalk.onSequence
  rw [hparted, hlength]
  refine Flow.ensures_followedBy (splitWalk_advances walk nesting _ _ _) ?_
  rintro ⟨done, todo⟩ ⟨hreaches, hle⟩
  -- what is left to come is the end of what was behind the run
  obtain ⟨became, rfl⟩ := hreaches.done
  obtain ⟨used, hused⟩ :=
    List.suffix_of_suffix_length_le hreaches.todo (List.suffix_append run behind) hle
  change used ++ todo = behind at hused
  subst hused
  refine .pure (Flow.holds_proceed.mpr ?_)
  have hreads := @Walked.reads_between before run became (used ++ todo) used.length (by simp)
  rw [List.drop_left] at hreads
  have hstopped : (before ++ run ++ (used ++ todo)).length - todo.length =
      before.length + run.length + used.length := by
    simp only [List.length_append]
    omega
  simp only [Split.statements, hstopped]
  exact hreads

/-! ## The walk of a call -/

namespace FileWalk

variable {walk : FileWalk σ} {walkInner : SequenceWalk σ} {allowed : Nat} {cursor : Cursor}
  {bound : BoundCall} {progress middle ended : Progress σ} {placement : Placement}

/-- What settling a statement goes on with once the output of its call has a place. -/
def placeAt (walk : FileWalk σ) (walkInner : SequenceWalk σ) (allowed : Nat) (cursor : Cursor)
    (bound : BoundCall) : Placement → ExpandM σ (Flow Settled)
  | .empty => walk.settle walkInner allowed (cursor.withStmt (.empty cursor.stmt.span))
  | .inPlace expr =>
      match cursor.stmt.replaceCall? bound.site.call expr with
      | some stmt => walk.settle walkInner allowed (cursor.withStmt stmt)
      | none =>
          ExpandM.fail (walk.fault (.callVanished bound.site.call.callee) bound.site.call.span)
  | .statement stmt => walk.settle walkInner allowed (cursor.withStmt stmt)
  | .function decl => return .replaceFunction decl
  | .splice run => spliceRun walkInner cursor bound.captured run

/-- Within the limits a statement whose call is expanded goes on from the place of the output. -/
theorem runFrom_settle_of_placed
    (hnext : (walk.next cursor.stmt (cursor.site walk.file.path)).runFrom progress =
      (.ok (some bound), middle))
    (hdepth : cursor.depth ≤ walk.expander.config.maxDepth)
    (hplaced : (walk.expander.expandCall walk.file.source bound).runFrom middle =
      (.ok placement, ended)) :
    (walk.settle walkInner (allowed + 1) cursor).runFrom progress =
      (walk.placeAt walkInner allowed cursor bound placement).runFrom ended := by
  have hlocated : (ExpandM.located bound.site.call.span walk.file.source
      (walk.expander.expandCall walk.file.source bound)).runFrom middle = (.ok placement, ended) := by
    rw [ExpandM.runFrom_located, hplaced]
  unfold settle
  rw [ExpandM.runFrom_bind_of_ok hnext]
  simp only [decide_eq_true hdepth]
  rw [ExpandM.runFrom_bind_of_ok hlocated]
  cases placement <;> rfl

/-- Walks a run between what is before it and what is behind it. What becomes of the run stands for the
statement at the cursor, the `captured` ones after it, and those behind that the run used up. -/
def walkBetween (walkInner : SequenceWalk σ) (cursor : Cursor) (captured : Nat)
    (before run behind : List Stmt) : ExpandM σ (Flow Settled) := do
  let flow ← walkInner cursor.scope (cursor.depth + 1) cursor.span (before ++ run ++ behind)
    before.length (before.length + run.length)
  flow.followedBy fun walked =>
    return .proceed (.spliced (1 + captured + walked.overrun before run behind)
      (walked.between before run behind))

/-- What the walk goes on with when code has come in place of the statement at the cursor and the ones
that its call captured, so that the sequence reads as `before`, the code, and `behind`. -/
inductive GoesOnWith (walk : FileWalk σ) (walkInner : SequenceWalk σ) (allowed : Nat)
    (cursor : Cursor) (bound : BoundCall) (before : List Stmt) :
    (code behind : List Stmt) → ExpandM σ (Flow Settled) → Prop where
  /-- One statement is settled further in the place of the one at the cursor. -/
  | settling {stmt : Stmt} {behind : List Stmt}
      (h : (cursor.withStmt stmt).block.statements = before ++ [stmt] ++ behind) :
      GoesOnWith walk walkInner allowed cursor bound before [stmt] behind
        (walk.settle walkInner allowed (cursor.withStmt stmt))
  /-- A run is walked between what is before it and behind it, and what becomes of it replaces the
  statement at the cursor, all captured ones, and what its own calls captured behind it: then the
  sequence reads as the walk has left it. -/
  | walking {code behind : List Stmt}
      (hwalked : ∀ nesting, (walk.walk nesting cursor.scope (cursor.depth + 1) cursor.span
        (before ++ code ++ behind) before.length (before.length + code.length)).Ensures
          (Flow.Holds fun walked => walked.statements = before ++ walked.between before code behind ++
            behind.drop (walked.overrun before code behind)))
      (hspliced : ∀ overrun ≤ behind.length, ∀ run,
        (cursor.after (.spliced (1 + bound.captured + overrun) run)).block.statements =
          before ++ run ++ behind.drop overrun) :
      GoesOnWith walk walkInner allowed cursor bound before code behind
        (walkBetween walkInner cursor bound.captured before code behind)

variable {setting : Setting} {before rest : List Stmt} {stmt : Stmt} {code : List Stmt}

/-- The pending splices make a run of the sequence what it is between `before` and what the call has
not captured. -/
theorem spliceRun_eq_walkBetween (hshows : cursor.Shows setting ⟨before, stmt :: rest⟩)
    (captured : Nat) (run : List Stmt) :
    spliceRun walkInner cursor captured run =
      walkBetween walkInner cursor captured before run (rest.drop captured) := by
  have hfront : cursor.splices.preview (cursor.statements.take cursor.index) = before := by
    have happly := congrArg Prod.fst (hshows.apply [])
    simpa [SpliceStack.preview] using happly
  have hbehind : cursor.statements.drop (cursor.index + 1 + captured) = rest.drop captured := by
    rw [Nat.add_assoc, ← List.drop_drop, hshows.todo, Nat.add_comm, List.drop_succ_cons]
  unfold spliceRun
  simp only [hfront, hbehind]
  rfl

/-- A run is walked in the sequence that reads without the statement at the cursor and the captured
ones, and replaces them. -/
theorem goesOnWith_walkBetween (hshown : walk.GoesByShown)
    (hshows : cursor.Shows setting ⟨before, stmt :: rest⟩) (hcaptured : bound.captured ≤ rest.length)
    (code : List Stmt) :
    walk.GoesOnWith walkInner allowed cursor bound before code (rest.drop bound.captured)
      (walkBetween walkInner cursor bound.captured before code (rest.drop bound.captured)) := by
  refine .walking (fun nesting => walk_between hshown nesting _ _ _ _ _ _) fun overrun hle run => ?_
  have hfits : (Settled.spliced (1 + bound.captured + overrun) run).Fits (rest.length + 1) := by
    rw [List.length_drop] at hle
    exact ⟨by omega, by omega⟩
  rw [(hshows.after hfits).block, Split.after, Split.statements, Nat.add_assoc, Nat.add_comm 1,
    List.drop_succ_cons, List.drop_drop]

/-- Where output is put, the walk goes on with the code that it leaves. -/
theorem goesOnWith_placeAt (hshown : walk.GoesByShown)
    (hshows : cursor.Shows setting ⟨before, stmt :: rest⟩) (hcaptured : bound.captured ≤ rest.length)
    (hstmt : bound.site.statement = stmt) (hputs : placement.Puts bound code) :
    walk.GoesOnWith walkInner allowed cursor bound before code (rest.drop bound.captured)
      (walk.placeAt walkInner allowed cursor bound placement) := by
  have hcursor : cursor.stmt = stmt := hshows.stmt
  have hread (stmt' : Stmt) (hcaptured : bound.captured = 0) :
      (cursor.withStmt stmt').block.statements =
        before ++ [stmt'] ++ rest.drop bound.captured := by
    rw [(hshows.withStmt stmt').block, hcaptured]
    simp [Split.withStmt, Split.statements]
  cases hputs with
  | empty hcaptured =>
    rw [hstmt, ← hcursor]
    exact .settling (hread _ hcaptured)
  | inPlace hcaptured hreplaced =>
    rw [hstmt, ← hcursor] at hreplaced
    rw [placeAt, hreplaced]
    exact .settling (hread _ hcaptured)
  | statement hcaptured => exact .settling (hread _ hcaptured)
  | splice =>
    rw [placeAt, spliceRun_eq_walkBetween hshows]
    exact goesOnWith_walkBetween hshown hshows hcaptured code

end FileWalk

/-! ## From the fragments to the walk -/

namespace Expander

variable {expander : Expander} {file : FileOrigin} {cursor : Cursor} {setting : Setting}
  {before rest : List Stmt} {stmt : Stmt} {bound : BoundCall}

/-- The first call to expand is one of its statement, and it captured statements that follow. -/
theorem site_of_firstBound? (hshows : cursor.Shows setting ⟨before, stmt :: rest⟩)
    (h : expander.firstBound? file.source (cursor.site file.path) stmt.ownCalls =
      .ok (some bound)) :
    bound.site.statement = stmt ∧ bound.site.call ∈ stmt.ownCalls ∧ bound.site.following = rest ∧
      bound.captured ≤ rest.length := by
  obtain ⟨call, hmem, symbol, -, hbind⟩ := firstBound?_some h
  obtain ⟨-, hsite, hcaptured⟩ := BindingRules.bind_some hbind
  rw [hshows.following] at hcaptured
  rw [hsite]
  exact ⟨hshows.stmt, hmem, hshows.following _ _, hcaptured⟩

/-- The walk looks for the next call at the statement that is shown. -/
theorem runFrom_next_of_firstBound? (hshows : cursor.Shows setting ⟨before, stmt :: rest⟩)
    (h : expander.firstBound? file.source (cursor.site file.path) stmt.ownCalls = .ok (some bound))
    (progress : Progress σ) :
    (FileWalk.next { expander, file } cursor.stmt (cursor.site file.path)).runFrom progress =
      (.ok (some bound), progress) := by
  have hcursor : cursor.stmt = stmt := hshows.stmt
  change (ExpandM.require (expander.firstBound? file.source (cursor.site file.path)
    cursor.stmt.ownCalls)).runFrom progress = _
  rw [hcursor, h]
  rfl

/-- The sequence reads as what is before a call, the statement of the call with the ones that it
captured, and what is behind them. -/
theorem reads_captured (hshows : cursor.Shows setting ⟨before, stmt :: rest⟩) (captured : Nat) :
    cursor.block.statements = before ++ (stmt :: rest.take captured) ++ rest.drop captured := by
  rw [hshows.block, Split.statements, List.append_assoc, List.cons_append, List.take_append_drop]

variable {source : Option SourceText} {progress : Progress σ} {implementation : Implementation σ}
  {registry : Registry σ} {invoked : Invoked σ} {requested : List Fragment}

/-- A call whose macro body comes to its end breaks the contract and is an error at the call, or its
fragments are decided on. -/
theorem decided_of_runs (hcall : bound.site.call ∈ bound.site.statement.ownCalls)
    (hruns : expander.Runs source bound progress implementation registry invoked)
    (houtcome : invoked.outcome = .ok requested) :
    let written := invoked.buffers.fragments bound.buffer
    let outcome := ((expander.expandCall source bound).runFrom progress).1
    (bound.BreaksContract written requested ∧ ∃ fault, fault.kind = .contract ∧
      outcome = .error (.error (.atSpan fault bound.site.call.span source))) ∨
    (¬bound.BreaksContract written requested ∧ ∃ placement, outcome = .ok placement ∧
      bound.Decided (BoundCall.counted written requested) (.ok placement)) := by
  intro written outcome
  have hplaced : outcome = (bound.output written requested >>= bound.place).mapError fun fault =>
      .error (.atSpan fault bound.site.call.span source) := outcome_of_runs hruns houtcome
  rcases bound.output_cases written requested with ⟨hboth, houtput⟩ | ⟨hone, houtput⟩
  · rw [houtput] at hplaced
    exact .inl ⟨.inl hboth, _, rfl, hplaced⟩
  · rw [houtput] at hplaced
    change outcome = (bound.place (BoundCall.counted written requested)).mapError _ at hplaced
    have hkept (hfits : ¬bound.Misfits (BoundCall.counted written requested)) :
        ¬bound.BreaksContract written requested := fun hbreaks => hbreaks.elim hone hfits
    have hdecided := bound.decided hcall (BoundCall.counted written requested)
    generalize bound.place (BoundCall.counted written requested) = placed at hplaced hdecided
    cases hdecided with
    | misfits hmisfits hkind => exact .inl ⟨.inr hmisfits, _, hkind, hplaced⟩
    | function hfits h => exact .inr ⟨hkept hfits, _, hplaced, .function hfits h⟩
    | leaves hfits h hputs => exact .inr ⟨hkept hfits, _, hplaced, .leaves hfits h hputs⟩

end Expander

/-- What an invocation wrote decides its effect. A call whose macro body comes to its end fails
exactly when the output breaks the contract, with an error of the contract at the call. Otherwise a
function alone replaces the one around the call, and everything else leaves code: the sequence, which
reads as `before`, the statement of the call, the captured ones and `behind`, is walked on as `before`,
the code and `behind`. A single statement takes the place of the one of the call and is settled
further. A run is walked where it stands, and what becomes of it is spliced over the statement of the
call, the captured ones, and as many of `behind` as the calls of the run captured. -/
theorem output_decides_effect {expander : Expander} {file : FileOrigin} {cursor : Cursor}
    {setting : Setting} {before rest : List Stmt} {stmt : Stmt} {bound : BoundCall}
    {progress : Progress σ} {implementation : Implementation σ} {registry : Registry σ}
    {invoked : Invoked σ} {requested : List Fragment}
    (hshows : cursor.Shows setting ⟨before, stmt :: rest⟩)
    (hfound : expander.firstBound? file.source (cursor.site file.path) stmt.ownCalls =
      .ok (some bound))
    (hruns : expander.Runs file.source bound progress implementation registry invoked)
    (houtcome : invoked.outcome = .ok requested) :
    let walk : FileWalk σ := { expander, file }
    let written := invoked.buffers.fragments bound.buffer
    let fragments := BoundCall.counted written requested
    let expanded := (expander.expandCall file.source bound).runFrom progress
    let captives := bound.site.following.take bound.captured
    let behind := rest.drop bound.captured
    ((∃ stop, expanded.1 = .error stop) ↔ bound.BreaksContract written requested) ∧
    (∀ stop, expanded.1 = .error stop → ∃ fault, fault.kind = .contract ∧
      stop = .error (.atSpan fault bound.site.call.span file.source)) ∧
    (cursor.block.statements = before ++ (stmt :: captives) ++ behind ∧
      captives.length = bound.captured) ∧
    (¬bound.BreaksContract written requested → cursor.depth ≤ expander.config.maxDepth →
      (∀ decl, fragments = [.function decl] → expanded.1 = .ok (.function decl) ∧
        ∀ walkInner allowed, (walk.settle walkInner (allowed + 1) cursor).runFrom progress =
          (.ok (.replaceFunction decl), expanded.2)) ∧
      ((∀ decl, fragments ≠ [.function decl]) → ∃ code, bound.Leaves fragments code ∧
        ((fragments = [] → bound.captured ≠ 0) → code.length = fragments.length) ∧
        ∀ walkInner allowed, ∃ program,
          walk.GoesOnWith walkInner allowed cursor bound before code behind program ∧
          (walk.settle walkInner (allowed + 1) cursor).runFrom progress =
            program.runFrom expanded.2)) := by
  intro walk written fragments expanded captives behind
  obtain ⟨hstmt, hcall, hfollowing, hcaptured⟩ := Expander.site_of_firstBound? hshows hfound
  have hnext := Expander.runFrom_next_of_firstBound? hshows hfound progress
  have hreads : cursor.block.statements = before ++ (stmt :: captives) ++ behind ∧
      captives.length = bound.captured := by
    have hcaptives : captives = rest.take bound.captured := by rw [← hfollowing]
    rw [hcaptives]
    exact ⟨Expander.reads_captured hshows _, List.length_take_of_le hcaptured⟩
  rcases Expander.decided_of_runs (hstmt ▸ hcall) hruns houtcome with
    ⟨hbreaks, fault, hkind, herror⟩ | ⟨hkept, placement, hplaced, hdecided⟩
  · refine ⟨⟨fun _ => hbreaks, fun _ => ⟨_, herror⟩⟩, fun stop hstop => ⟨fault, hkind, ?_⟩, hreads,
      fun hkept => absurd hbreaks hkept⟩
    exact (Except.error.inj (herror.symm.trans hstop)).symm
  · have hnever : ∀ stop, expanded.1 ≠ .error stop := fun stop hstop => by
      cases hplaced.symm.trans hstop
    refine ⟨⟨fun hstops => absurd hstops (not_exists.mpr hnever), fun hbreaks => absurd hbreaks hkept⟩,
      fun stop hstop => absurd hstop (hnever stop), hreads, fun _ hdepth => ?_⟩
    have hsettle (walkInner : SequenceWalk σ) (allowed : Nat) :
        (walk.settle walkInner (allowed + 1) cursor).runFrom progress =
          (walk.placeAt walkInner allowed cursor bound placement).runFrom expanded.2 :=
      FileWalk.runFrom_settle_of_placed hnext hdepth (Prod.ext hplaced rfl)
    cases hdecided with
    | function _ hfunction =>
      refine ⟨fun other hother => ?_, fun hnot => absurd hfunction (hnot _)⟩
      cases hfunction.symm.trans hother
      exact ⟨hplaced, hsettle⟩
    | leaves _ hleaves hputs =>
      refine ⟨fun decl hdecl => ?_, fun _ => ⟨_, hleaves, hleaves.length_eq,
        fun walkInner allowed => ⟨_, FileWalk.goesOnWith_placeAt
          (FileWalk.goesByShown_of_expansion expander file) hshows hcaptured hstmt hputs,
          hsettle walkInner allowed⟩⟩⟩
      have hmem : .function decl ∈ fragments := by
        rw [hdecl]
        exact List.mem_cons_self
      exact absurd hmem (hleaves.not_mem_function decl)

/-- A macro that captures a statement and writes through a quote. -/
def twiceMacro : MethodSymbol where
  id := ⟨0⟩
  declaringType := "Meta"
  name := "Twice"
  params := [{ name := "body", type := .statement, default := some .null }, .quote "quote"]

/-- The macro writes the captured statement twice, and a value between the two. -/
def expandTwice (invocation : Invocation) : BodyM Unit Unit := do
  let body ← BodyM.require (invocation.statement 0)
  let quote ← BodyM.require invocation.quote
  BodyM.emit quote (.stmt body)
  BodyM.emit quote (.expr (.ofName "between"))
  BodyM.emit quote (.stmt body)

/-- Three fragments stand for a call and the statement that it captured. -/
theorem output_decides_effect_twice :
    let expander : Expander := { model := (({} : SymbolTable).declare twiceMacro).model }
    let file : FileOrigin := { path := "twice.cs", text := none }
    let progress : Progress Unit :=
      { session := { host := () }
        registry := ({} : Registry Unit).registerBody twiceMacro expandTwice }
    let log := Stmt.evaluate (.callOf "Log" [])
    let last := Stmt.nothing
    let setting : Setting := ⟨⟨.topLevel, none⟩, 0, default⟩
    let cursor := setting.cursor ⟨[], [.evaluate (.callOf "Twice" []), log, last]⟩
    ∃ bound implementation registry invoked ended,
      cursor.Shows setting ⟨[], [.evaluate (.callOf "Twice" []), log, last]⟩ ∧
      expander.firstBound? file.source (cursor.site file.path) cursor.stmt.ownCalls =
        .ok (some bound) ∧
      expander.Runs file.source bound progress implementation registry invoked ∧
      invoked.outcome = .ok [] ∧ bound.captured = 1 ∧
      ∀ walkInner allowed, ∃ program,
        FileWalk.GoesOnWith { expander, file } walkInner allowed cursor bound []
          [log, .ofExpr (.ofName "between"), log] [last] program ∧
        (FileWalk.settle { expander, file } walkInner (allowed + 1) cursor).runFrom progress =
          program.runFrom ended := by
  intro expander file progress log last setting cursor
  let site := cursor.site file.path (.plain "Twice" [])
  let bound := BindingRules.boundWith twiceMacro site
    [.statement log, .quote { sequence := 1, site, buffer := ⟨0⟩ }] 1
  have hshows : cursor.Shows setting ⟨[], [.evaluate (.callOf "Twice" []), log, last]⟩ :=
    Cursor.Shows.of_split setting _
  have hfound : expander.firstBound? file.source (cursor.site file.path)
      (Stmt.evaluate (.callOf "Twice" [])).ownCalls = .ok (some bound) := rfl
  have hruns : expander.Runs file.source bound progress _ _ _ := ⟨rfl, [], rfl, rfl⟩
  obtain ⟨-, -, -, heffect⟩ := output_decides_effect hshows hfound hruns rfl
  have hkept : ¬bound.BreaksContract [.stmt log, .expr (.ofName "between"), .stmt log] [] := by
    rintro (⟨-, h⟩ | ⟨h, -⟩ | ⟨h, -⟩)
    · exact h rfl
    · cases h
    · simp [BoundCall.counted] at h
  obtain ⟨-, heffect⟩ := heffect hkept (Nat.zero_le _)
  obtain ⟨code, hleaves, -, hwalk⟩ := heffect fun decl h => by cases h
  have hcode : code = [log, .ofExpr (.ofName "between"), log] := by
    cases hleaves with
    | run _ _ h => exact (List.map_inj_right fun _ _ => Option.some.inj).mp h.symm
  exact ⟨bound, _, _, _, _, hshows, hfound, hruns, rfl, rfl, hcode ▸ hwalk⟩

end MacroExpansion
