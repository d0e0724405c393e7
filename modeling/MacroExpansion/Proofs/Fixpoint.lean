import Mathlib
import MacroExpansion.Proofs.FileBodies
import MacroExpansion.Proofs.WalkAgrees
import MacroExpansion.Symbol.Table
import MacroExpansion.Tree.Build

/-! # Nothing is left to expand

An expansion that comes to a result has expanded everything: whatever call stands in the code of the
file then, either leads to no macro or passes on a quote of the function that it stands in.

The walk is not over a fixed tree. What carries the proof is that a statement is settled only when
none of its own calls is left to expand, that filling its slots afterwards does not touch how those
calls bind (`Slot.outline_ownCalls_fill`), and that whatever a run, a replacement or a lambda brings
in is settled by a walk of its own, in a scope with the same function around it. -/

namespace MacroExpansion

/-! ## Calls that are left as code -/

namespace BindingRules

/-- A call forwards a quote of a function: some quote parameter of the macro is given the bare name
of a quote parameter of the function. -/
def ForwardsQuote (rules : BindingRules) (decl : FunctionDecl) (symbol : MethodSymbol)
    (call : Call) : Prop :=
  ∃ index name, rules.isQuoteParameter symbol index = true ∧
    (call.args.map Expr.asName?)[index]? = some (some name) ∧
      rules.isAmbientQuote decl name = true

/-- In the code of a function, or outside of all functions, there is nothing to expand in a call. -/
def LeavesAsCode (rules : BindingRules) (function : Option FunctionDecl) (call : Call) : Prop :=
  ∀ symbol, rules.candidate? call = some symbol →
    ∃ decl, function = some decl ∧ rules.ForwardsQuote decl symbol call

variable {rules : BindingRules}

/-- Quote parameters are parameters. -/
theorem lt_of_isQuoteParameter {symbol : MethodSymbol} {index : Nat}
    (h : rules.isQuoteParameter symbol index = true) : index < symbol.params.length := by
  unfold isQuoteParameter at h
  cases hparam : symbol.params[index]? with
  | none =>
    rw [hparam] at h
    cases h
  | some param => exact (List.getElem?_eq_some_iff.mp hparam).1

/-- The calls that binding leaves alone are those that forward a quote of the function around. -/
theorem forwardsAmbientQuote_iff {symbol : MethodSymbol} {site : Site} :
    rules.forwardsAmbientQuote symbol site = true ↔
      ∃ decl, site.function = some decl ∧ rules.ForwardsQuote decl symbol site.call := by
  unfold forwardsAmbientQuote
  cases site.function with
  | none => simp
  | some decl =>
    simp only [List.any_eq_true, List.mem_range, Bool.and_eq_true, Option.any_eq_true,
      Option.bind_eq_some_iff, Option.some.injEq, ForwardsQuote, List.getElem?_map,
      Option.map_eq_some_iff]
    constructor
    · rintro ⟨index, -, hquote, name, ⟨arg, harg, hname⟩, hambient⟩
      exact ⟨decl, rfl, index, name, hquote, ⟨arg, harg, hname⟩, hambient⟩
    · rintro ⟨_, rfl, index, name, hquote, ⟨arg, harg, hname⟩, hambient⟩
      exact ⟨index, lt_of_isQuoteParameter hquote, hquote, name, ⟨arg, harg, hname⟩, hambient⟩

end BindingRules

/-- A model that looks at the path of a call and at the head of a declaration, not at the code in
them. -/
structure SemanticModel.ByName (model : SemanticModel) : Prop where
  /-- Calls of one path bind alike. -/
  bindCall : ∀ {call call' : Call}, call.callee = call'.callee →
    model.bindCall call = model.bindCall call'
  /-- Declarations are known whatever their code. -/
  declaredSymbol : ∀ (decl : FunctionDecl) (body : Block),
    model.declaredSymbol { decl with body } = model.declaredSymbol decl

/-- Symbol tables look at names. -/
theorem SymbolTable.byName_model (table : SymbolTable) : table.model.ByName where
  bindCall h := congrArg table.get? h
  declaredSymbol _ _ := rfl

namespace BindingRules

variable {rules : BindingRules}

/-- Whether there is something to expand in a call depends on its outline. -/
theorem LeavesAsCode.of_outline (hmodel : rules.model.ByName) {function : Option FunctionDecl}
    {call call' : Call} (houtline : call'.outline = call.outline)
    (h : rules.LeavesAsCode function call) : rules.LeavesAsCode function call' := by
  obtain ⟨hcallee, hargs⟩ := Prod.mk.inj houtline
  intro symbol hsymbol
  rw [candidate?, hmodel.bindCall hcallee] at hsymbol
  obtain ⟨decl, hdecl, index, name, hquote, harg, hambient⟩ := h symbol hsymbol
  exact ⟨decl, hdecl, index, name, hquote, hargs ▸ harg, hambient⟩

/-- Which names are quotes of a function does not depend on its code. -/
theorem isAmbientQuote_body (hmodel : rules.model.ByName) (decl : FunctionDecl) (body : Block) :
    rules.isAmbientQuote { decl with body } = rules.isAmbientQuote decl := by
  funext name
  simp only [isAmbientQuote, hmodel.declaredSymbol]

end BindingRules

/-- Whether there is something to expand in a call does not depend on the code of the function. -/
theorem BindingRules.LeavesAsCode.of_body {rules : BindingRules} (hmodel : rules.model.ByName)
    {decl : FunctionDecl} {call : Call} (h : rules.LeavesAsCode (some decl) call) (body : Block) :
    rules.LeavesAsCode (some { decl with body }) call := by
  intro symbol hsymbol
  obtain ⟨around, haround, index, name, hquote, harg, hambient⟩ := h symbol hsymbol
  refine ⟨_, rfl, index, name, hquote, harg, ?_⟩
  rw [isAmbientQuote_body hmodel, Option.some.inj haround]
  exact hambient

/-! ## Settled statements -/

/-- The declaration of the function around the statements of a scope. -/
def Scope.decl? (scope : Scope) : Option FunctionDecl :=
  scope.function.map (·.decl)

/-- Entering a slot does not leave the function. -/
theorem Cursor.decl?_inside (cursor : Cursor) (slot : Slot) :
    (cursor.inside slot).decl? = cursor.scope.decl? := by
  simp only [Scope.decl?, inside, Option.map_map]
  rfl

/-- A statement in which nothing is left to expand. -/
def Stmt.IsExpanded (rules : BindingRules) (function : Option FunctionDecl) (stmt : Stmt) : Prop :=
  stmt.AllCalls (rules.LeavesAsCode function)

/-- What is left to expand in a statement does not depend on the code of the function around. -/
theorem Stmt.IsExpanded.of_body {rules : BindingRules} (hmodel : rules.model.ByName)
    {decl : FunctionDecl} {stmt : Stmt} (h : stmt.IsExpanded rules (some decl)) (body : Block) :
    stmt.IsExpanded rules (some { decl with body }) :=
  fun inner hinner call hcall => (h inner hinner call hcall).of_body hmodel body

/-- A walk that leaves nothing to expand in the statements that it settles. -/
def SplitWalk.Completes {σ : Type} (rules : BindingRules) (walkSplit : SplitWalk σ) : Prop :=
  ∀ setting tail split, (∀ stmt ∈ split.done, stmt.IsExpanded rules setting.scope.decl?) →
    (walkSplit setting tail split).Ensures (Flow.Holds fun last =>
      ∀ stmt ∈ last.done, stmt.IsExpanded rules setting.scope.decl?)

/-- A walk that leaves nothing to expand in the sequences that it walks as a whole. -/
def SequenceWalk.Completes {σ : Type} (rules : BindingRules) (walk : SequenceWalk σ) : Prop :=
  ∀ scope depth span statements, (walk scope depth span statements 0 statements.length).Ensures
    (Flow.Holds fun walked => ∀ stmt ∈ walked.statements, stmt.IsExpanded rules scope.decl?)

/-- A walk of parted sequences completes whole sequences. -/
theorem SplitWalk.Completes.onSequence {σ : Type} {rules : BindingRules} {walkSplit : SplitWalk σ}
    (h : walkSplit.Completes rules) (hadvances : walkSplit.Advances) :
    walkSplit.onSequence.Completes rules := by
  intro scope depth span statements
  unfold SplitWalk.onSequence
  rw [Nat.sub_self, List.take_zero, List.drop_zero]
  have hdone := h ⟨scope, depth, span⟩ 0 ⟨[], statements⟩ fun _ hmem => absurd hmem List.not_mem_nil
  refine Flow.ensures_followedBy (Flow.ensures_and hdone (hadvances _ _ _)) ?_
  rintro ⟨done, todo⟩ ⟨hexpanded, -, hlength⟩
  -- nothing is left to come
  obtain rfl : todo = [] := List.eq_nil_of_length_eq_zero (Nat.le_zero.mp hlength)
  refine .pure (Flow.holds_proceed.mpr ?_)
  rwa [Split.statements, List.append_nil]

namespace FileWalk

variable {σ : Type} {expander : Expander} {file : FileOrigin} {walkRun : SplitWalk σ}
  {walkNested : SequenceWalk σ} {setting : Setting} {done rest : List Stmt}

/-- In a statement without calls to expand, nothing is left to expand once its slots are walked. -/
theorem walkSlots_completes (hmodel : expander.rules.model.ByName)
    (hnested : walkNested.Completes expander.rules) {stmt : Stmt}
    (hown : ∀ call ∈ stmt.ownCalls, expander.rules.LeavesAsCode setting.scope.decl? call) :
    (walkSlots walkNested (setting.cursor ⟨done, stmt :: rest⟩) (Slot.all stmt)).Ensures
      (Flow.Holds (Stmt.IsExpanded expander.rules setting.scope.decl?)) := by
  refine (walkSlots_ensures
    (fun stmt => ∀ call ∈ stmt.ownCalls,
      expander.rules.LeavesAsCode setting.scope.decl? call)
    (fun slot stmt => ∀ inner ∈ slot.holds stmt,
      inner.IsExpanded expander.rules setting.scope.decl?)
    (fun statements => ∀ inner ∈ statements,
      inner.IsExpanded expander.rules setting.scope.decl?)
    ?_ ?_ ?_ ?_ hown).mono ?_
  · intro stmt slot content _
    have hwalked := hnested ((setting.cursor ⟨done, stmt :: rest⟩).inside slot) setting.depth
      content.span content.statements
    rw [Cursor.decl?_inside] at hwalked
    exact hwalked
  · -- the own calls bind as before
    intro slot content stmt hown call hcall
    have houtline := List.mem_map_of_mem (f := Call.outline) hcall
    rw [Slot.outline_ownCalls_fill] at houtline
    obtain ⟨call', hcall', houtline⟩ := List.mem_map.mp houtline
    exact (hown call' hcall').of_outline hmodel houtline.symm
  · exact fun slot content stmt => Slot.allCalls_holds_fill
  · intro slot other content stmt hne hheld
    rw [Slot.holds_fill_of_ne hne]
    exact hheld
  · exact fun flow h last hlast => Stmt.allCalls_iff.mpr (h last hlast)

/-- When no call is found in a statement, those of macros forward quotes of the function around. -/
theorem leavesAsCode_of_firstBound?_none (hmodel : expander.rules.model.ByName) {stmt : Stmt}
    (h : expander.firstBound? file.source ((setting.cursor ⟨done, stmt :: rest⟩).site file.path)
      stmt.ownCalls = .ok none) :
    ∀ call ∈ stmt.ownCalls, expander.rules.LeavesAsCode setting.scope.decl? call := by
  intro call hcall symbol hsymbol
  have hforwards := Expander.firstBound?_none h call hcall symbol hsymbol
  obtain ⟨decl, hdecl, hquote⟩ := BindingRules.forwardsAmbientQuote_iff.mp hforwards
  -- the function that the site sees has the head of the one around the scope
  have hfunction := (Cursor.Shows.of_split setting ⟨done, stmt :: rest⟩).function?
  rw [show ((setting.cursor ⟨done, stmt :: rest⟩).site file.path call).function = _ from hfunction,
    Option.map_eq_some_iff] at hdecl
  obtain ⟨context, hcontext, rfl⟩ := hdecl
  refine ⟨context.decl, by rw [Scope.decl?, hcontext, Option.map_some], ?_⟩
  obtain ⟨index, name, hparameter, harg, hambient⟩ := hquote
  rw [FunctionContext.plug, BindingRules.isAmbientQuote_body hmodel] at hambient
  exact ⟨index, name, hparameter, harg, hambient⟩

/-- A statement is settled when nothing is left to expand in it. -/
theorem settleSplit_completes (hmodel : expander.rules.model.ByName)
    (hrun : walkRun.Completes expander.rules) (hnested : walkNested.Completes expander.rules)
    (allowed : Nat) (stmt : Stmt)
    (hdone : ∀ stmt ∈ done, stmt.IsExpanded expander.rules setting.scope.decl?) :
    (settleSplit { expander, file } walkRun walkNested setting allowed
      ⟨done, stmt :: rest⟩).Ensures (Flow.Holds fun last =>
        ∀ stmt ∈ last.done, stmt.IsExpanded expander.rules setting.scope.decl?) := by
  refine settleSplit_ensures (fun stmt progress ended hnext => ?_) (fun captured run => ?_) allowed stmt
  · have hnone := ExpandM.Ensures.require _ progress none ended hnext
    have hown := leavesAsCode_of_firstBound?_none hmodel hnone
    refine (walkSlots_completes hmodel hnested hown).mono fun flow h last hlast => ?_
    intro settled hmem
    rcases List.mem_append.mp hmem with hmem | hmem
    · exact hdone settled hmem
    · rw [List.mem_singleton.mp hmem]
      exact h last hlast
  · exact hrun setting.deeper _ ⟨done, run ++ rest.drop captured⟩ hdone

/-- Settling statements one after the other leaves nothing to expand in them. -/
theorem walkSplit_completes (hmodel : expander.rules.model.ByName)
    (hrun : walkRun.Completes expander.rules) (hnested : walkNested.Completes expander.rules)
    (tail steps : Nat) (split : Split)
    (hdone : ∀ stmt ∈ split.done, stmt.IsExpanded expander.rules setting.scope.decl?) :
    (walkSplit { expander, file } walkRun walkNested setting tail steps split).Ensures
      (Flow.Holds fun last =>
        ∀ stmt ∈ last.done, stmt.IsExpanded expander.rules setting.scope.decl?) := by
  induction steps generalizing split with
  | zero => exact .pure (Flow.holds_proceed.mpr hdone)
  | succ steps ih =>
    unfold walkSplit
    split
    · refine (ExpandM.Ensures.trivial _).bind fun _ _ => ?_
      obtain ⟨done, todo⟩ := split
      cases todo with
      | nil => exact absurd ‹tail < _› (Nat.not_lt_zero tail)
      | cons stmt rest =>
        exact Flow.ensures_followedBy (settleSplit_completes hmodel hrun hnested _ stmt hdone) ih
    · exact .pure (Flow.holds_proceed.mpr hdone)

/-- The walk of parted sequences leaves nothing to expand. -/
theorem splitWalk_completes (expander : Expander) (file : FileOrigin)
    (hmodel : expander.rules.model.ByName) (nesting : Nat) :
    (splitWalk (σ := σ) { expander, file } nesting).Completes expander.rules := by
  induction nesting with
  | zero => exact fun _ _ _ _ => .throw _
  | succ nesting ih =>
    exact fun setting tail split hdone => walkSplit_completes hmodel ih
      (ih.onSequence (splitWalk_advances _ nesting)) tail _ split hdone

/-- The walk of sequences leaves nothing to expand. -/
theorem walk_completes (expander : Expander) (file : FileOrigin)
    (hmodel : expander.rules.model.ByName) (nesting : Nat) :
    (walk (σ := σ) { expander, file } nesting).Completes expander.rules := by
  intro scope depth span statements
  rw [expander.walk_whole]
  exact (splitWalk_completes expander file hmodel nesting).onSequence
    (splitWalk_advances _ nesting) scope depth span statements

end FileWalk

/-! ## Whole files -/

/-- An item in which nothing is left to expand. -/
def Item.IsExpanded (rules : BindingRules) (item : Item) : Prop :=
  ∀ function body, item.HasBody function body →
    ∀ stmt ∈ body.statements, stmt.IsExpanded rules function

namespace SequenceWalk.Completes

variable {σ : Type} {rules : BindingRules} {walkAll : SequenceWalk σ}

/-- A block that is walked to its end is expanded. -/
theorem walkBlock (h : walkAll.Completes rules) (scope : Scope) (block : Block) :
    (FileWalk.walkBlock walkAll scope block).Ensures (Flow.Holds fun expanded =>
      ∀ stmt ∈ expanded.statements, stmt.IsExpanded rules scope.decl?) :=
  Flow.ensures_followedBy (h scope 0 block.span block.statements) fun _ hexpanded =>
    .pure (Flow.holds_proceed.mpr hexpanded)

/-- A body is expanded as the code of the function that it becomes the body of. -/
theorem ensuresBodies (hmodel : rules.model.ByName) (h : walkAll.Completes rules) :
    walkAll.EnsuresBodies fun function body =>
      ∀ stmt ∈ body.statements, stmt.IsExpanded rules function where
  function decl := (h.walkBlock (.ofFunction decl) decl.body).mono fun _ hflow body hbody stmt hmem =>
    (hflow body hbody stmt hmem).of_body hmodel body
  loose {scope} hscope block := by
    have hblock := h.walkBlock scope block
    rwa [Scope.decl?, hscope] at hblock

end SequenceWalk.Completes

/-- Nothing is left to expand in an expanded item. -/
theorem FileWalk.expandItem_completes {σ : Type} {walkAll : SequenceWalk σ} (walk : FileWalk σ)
    {rules : BindingRules} (hmodel : rules.model.ByName) (hwalk : walkAll.Completes rules)
    (item : Item) : (walk.expandItem walkAll item).Ensures (Item.IsExpanded rules) :=
  walk.expandItem_ensures (hwalk.ensuresBodies hmodel) item

/-- Nothing is left to expand in an expanded file. Wherever in its code a call stands as an own call
of a statement, it leads to no macro, or it passes a quote of the function that it stands in on to
the macro, so that binding leaves it as code. -/
theorem expansion_leaves_nothing {σ : Type} (table : SymbolTable) (markers : MarkerLookup)
    (metadata : TypeMetadata) (config : ExpansionConfig) (nesting : Nat) (tree : SyntaxTree)
    (workspace : Workspace σ) {expansion : Expansion}
    (h : (Expander.expandWithin nesting { model := table.model, markers, metadata, config } tree
      workspace).1 = .ok expansion)
    {item : Item} (hitem : item ∈ expansion.tree.items) {function : Option FunctionDecl}
    {body : Block} (hbody : item.HasBody function body) {outer stmt : Stmt}
    (houter : outer ∈ body.statements) (hstmt : outer.Contains stmt) {call : Call}
    (hcall : call ∈ stmt.ownCalls) :
    let rules := Expander.rules { model := table.model, markers, metadata, config }
    rules.candidate? call = none ∨
      ∃ symbol decl, rules.candidate? call = some symbol ∧ function = some decl ∧
        rules.ForwardsQuote decl symbol call ∧
        ∀ site source, site.call = call → site.function = some decl →
          rules.bind symbol site source = .ok none := by
  intro rules
  have hmodel : rules.model.ByName := table.byName_model
  obtain ⟨ended, hrun⟩ := Expander.expandBy_ok h
  have hexpanded : item.IsExpanded rules :=
    ExpandM.Ensures.mapM (FileWalk.expandItem_completes _ hmodel
      (FileWalk.walk_completes _ _ hmodel nesting)) tree.items _ _ _ hrun item hitem
  have hleft := hexpanded function body hbody outer houter stmt hstmt call hcall
  cases hcandidate : rules.candidate? call with
  | none => exact .inl rfl
  | some symbol =>
    obtain ⟨decl, hdecl, hquote⟩ := hleft symbol hcandidate
    -- what is passed on is told from the call and the function, so every site agrees
    refine .inr ⟨symbol, decl, rfl, hdecl, hquote, fun site source hsite hfunction => ?_⟩
    have hforwards : rules.forwardsAmbientQuote symbol site = true :=
      BindingRules.forwardsAmbientQuote_iff.mpr ⟨decl, hfunction, hsite ▸ hquote⟩
    rw [BindingRules.bind, hforwards]
    rfl

/-! ### A macro without output -/

/-- A macro that takes nothing. -/
def skipMacro : MethodSymbol :=
  { id := ⟨0⟩, declaringType := "Host", name := "Skip", markers := [.macroFunction] }

/-- A workspace in which the macro does nothing. -/
def skipWorkspace : Workspace Unit where
  session := { host := () }
  registry := ({} : Registry Unit).registerBody skipMacro fun _ => pure ()

/-- A function that runs a block of statements. -/
def blockFunction (statements : List Stmt) : FunctionDecl where
  name := "Run"
  isStatic := true
  typeParams := []
  params := []
  returnType := .void
  body := .of [.block (.of statements)]
  attributes := []
  span := default

/-- A file with one such function. -/
def blockFile (statements : List Stmt) : SyntaxTree :=
  { path := "file", source := none, items := [.function (blockFunction statements)] }

/-- In a block with a call of the macro and another call, the other one is left. -/
theorem expansion_leaves_nothing_in_block :
    let table := ({} : SymbolTable).declare skipMacro
    let config : ExpansionConfig := { recordTrace := false }
    let log := Call.plain "Log" []
    let rules := Expander.rules { model := table.model, config }
    (Expander.expandWithin 3 { model := table.model, config }
      (blockFile [.evaluate (.callOf "Skip" []), .evaluate (.call log)]) skipWorkspace).1 =
        .ok ⟨blockFile [.nothing, .evaluate (.call log)], [], []⟩ ∧
      (rules.candidate? log = none ∨
        ∃ symbol decl, rules.candidate? log = some symbol ∧
          some (blockFunction [.nothing, .evaluate (.call log)]) = some decl ∧
          rules.ForwardsQuote decl symbol log ∧
          ∀ site source, site.call = log → site.function = some decl →
            rules.bind symbol site source = .ok none) := by
  intro table config log rules
  have hrun : (Expander.expandWithin 3 { model := table.model, config }
      (blockFile [.evaluate (.callOf "Skip" []), .evaluate (.call log)]) skipWorkspace).1 =
        .ok ⟨blockFile [.nothing, .evaluate (.call log)], [], []⟩ := by cbv
  refine ⟨hrun, ?_⟩
  exact expansion_leaves_nothing table .stored .byName config 3 _ skipWorkspace hrun
    List.mem_cons_self (.function _) List.mem_cons_self
    (.block (List.mem_cons_of_mem _ List.mem_cons_self) (.self _)) List.mem_cons_self

end MacroExpansion
