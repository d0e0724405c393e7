import MacroExpansion.Proofs.CallCount
import MacroExpansion.Proofs.Fixpoint
import MacroExpansion.Proofs.NestingKept
import MacroExpansion.Proofs.Recording
import MacroExpansion.Proofs.Unchanged

/-! # Expanded code stays as it is

Code in which nothing is left to expand goes through an expansion unchanged: every body that is
taken apart on the way is put back as it was, at every depth, and no macro is invoked. What an
expansion comes to is such code, and it nests no deeper than the walks that it took; so expanding it
once more changes nothing. -/

namespace MacroExpansion

variable {σ : Type}

/-- Where nothing is to be expanded in the calls, none is found. -/
theorem Expander.firstBound?_of_leavesAsCode {expander : Expander} {source : Option SourceText}
    {cursor : Cursor} {file : String} {calls : List Call}
    (h : ∀ call ∈ calls, expander.rules.LeavesAsCode cursor.function? call) :
    expander.firstBound? source (cursor.site file) calls = .ok none := by
  -- every call of a macro forwards a quote, and is left unbound
  have hbind : ∀ call ∈ calls, ∀ symbol, expander.rules.candidate? call = some symbol →
      expander.rules.bind symbol (cursor.site file call) source = .ok none := by
    intro call hcall symbol hsymbol
    have hforwards : expander.rules.forwardsAmbientQuote symbol (cursor.site file call) = true :=
      BindingRules.forwardsAmbientQuote_iff.mpr (h call hcall symbol hsymbol)
    rw [BindingRules.bind, hforwards]
    rfl
  induction calls with
  | nil => rfl
  | cons call rest ih =>
    obtain ⟨hcall, hrest⟩ := List.forall_mem_cons.mp hbind
    rw [firstBound?]
    cases hsymbol : expander.rules.candidate? call with
    | none => exact ih (fun other hmem => h other (List.mem_cons_of_mem call hmem)) hrest
    | some symbol =>
      simp only [hcall symbol hsymbol]
      exact ih (fun other hmem => h other (List.mem_cons_of_mem call hmem)) hrest

namespace Block

/-- Nothing is left to expand in a block, as a part of the function that its scope makes of it. -/
def IsExpandedIn (rules : BindingRules) (scope : Scope) (block : Block) : Prop :=
  ∀ stmt ∈ block.statements, stmt.IsExpanded rules (scope.function.map (·.plug block))

end Block

/-- An expansion that the host does not stop spares code with nothing to expand. -/
theorem Expander.spares_isExpanded (expander : Expander) (file : FileOrigin) {start : Progress σ}
    (hgoesOn : start.session.cancelled = false) :
    FileWalk.Spares { expander, file } start (fun _ => False) fun nesting scope block =>
      NestWithin nesting block.statements ∧ block.IsExpandedIn expander.rules scope where
  exhausted h := h.1
  poll _ := .checkCancelled_of_goesOn fun _ he => he ▸ hgoesOn
  next := by
    rintro nesting setting done rest stmt ⟨-, hexpanded⟩
    have hstmt := hexpanded stmt (List.mem_append_right done List.mem_cons_self)
    have hnone : expander.firstBound? file.source
        ((setting.cursor ⟨done, stmt :: rest⟩).site file.path) stmt.ownCalls = .ok none := by
      refine firstBound?_of_leavesAsCode fun call hcall => ?_
      rw [(Cursor.Shows.of_split setting ⟨done, stmt :: rest⟩).function?]
      exact hstmt stmt (.self stmt) call hcall
    dsimp only
    rw [hnone]
    exact .pure nofun
  nested := by
    rintro nesting setting done rest stmt slot content ⟨hnest, hexpanded⟩ hcontent
    have hmem : stmt ∈ done ++ stmt :: rest := List.mem_append_right done List.mem_cons_self
    refine ⟨hnest stmt hmem slot content hcontent, fun inner hinner => ?_⟩
    rw [Cursor.function_inside, Slot.fill_content hcontent]
    exact fun nested hnested =>
      hexpanded stmt hmem nested (.of_content hcontent hinner hnested)

/-! ## Whole files -/

namespace SyntaxTree

/-- Nothing is left to expand in the code of a file. -/
def IsExpanded (rules : BindingRules) (tree : SyntaxTree) : Prop :=
  ∀ item ∈ tree.items, item.IsExpanded rules

/-- So many walks within each other are enough for the code of a file. -/
def NestsWithin (bound : Nat) (tree : SyntaxTree) : Prop :=
  ∀ item ∈ tree.items, ∀ function body, item.HasBody function body →
    NestWithin bound body.statements

end SyntaxTree

/-- Some number of walks within each other is enough for every file. -/
theorem SyntaxTree.exists_nestsWithin (tree : SyntaxTree) :
    ∃ enough, ∀ bound, enough ≤ bound → tree.NestsWithin bound := by
  let heights := (tree.items.flatMap Item.bodies).map fun body => stmtsHeight body.statements
  refine ⟨heights.sum + 1, fun bound hbound item hitem function body hbody => ?_⟩
  have hheight : stmtsHeight body.statements ∈ heights :=
    List.mem_map_of_mem (List.mem_flatMap.mpr ⟨item, hitem, hbody.mem_bodies⟩)
  have hle := List.le_sum_of_mem hheight
  exact nestWithin_of_height (by omega)

namespace Expander

variable {expander : Expander} {tree : SyntaxTree} {workspace : Workspace σ} {nesting : Nat}

/-- A file with nothing to expand goes through an expansion as it is, and so does the workspace. -/
theorem expandWithin_of_isExpanded (hexpanded : tree.IsExpanded expander.rules)
    (hnests : tree.NestsWithin nesting) (hgoesOn : workspace.session.cancelled = false) :
    expander.expandWithin nesting tree workspace =
      (.ok { tree, trace := [], warnings := [] }, workspace) := by
  have hrun : (itemsProgram (·.walk nesting) expander tree).runFrom { toWorkspace := workspace } =
      (.ok tree.items, { toWorkspace := workspace }) :=
    (itemsProgram_unchanged (expander.spares_isExpanded _ hgoesOn)
      fun item hitem scope body hbody =>
        ⟨hnests item hitem _ body hbody, hexpanded item hitem _ body hbody⟩).runFrom_eq
  unfold expandWithin
  rw [expandBy_eq, hrun]
  rfl

/-- What an expansion comes to has nothing left to expand, and nests within the walks that the
expansion had. -/
theorem isExpanded_of_expandWithin (hmodel : expander.model.ByName) {expansion : Expansion}
    (h : (expander.expandWithin nesting tree workspace).1 = .ok expansion) :
    expansion.tree.IsExpanded expander.rules ∧ expansion.tree.NestsWithin nesting := by
  obtain ⟨ended, hrun⟩ := expandBy_ok h
  constructor
  · exact ExpandM.Ensures.mapM (FileWalk.expandItem_completes _ hmodel
      (FileWalk.walk_completes expander _ hmodel nesting)) tree.items _ _ _ hrun
  · exact ExpandM.Ensures.mapM (FileWalk.expandItem_ensures _
      (expander.walk_nests _ nesting).ensuresBodies) tree.items _ _ _ hrun

end Expander

/-- An expansion changes nothing where nothing is left to expand, whatever its settings: with enough
walks within each other it comes to the file as it was, without a step or a warning, and invokes no
macro. With a symbol table for a model, what any expansion comes to is such a file; expanding it once
more, with no more walks than before, gives it back as it is. -/
theorem expansion_is_idempotent (expander : Expander) :
    (∀ tree : SyntaxTree, tree.IsExpanded expander.rules →
      ∃ enough, ∀ nesting, enough ≤ nesting → ∀ workspace : Workspace σ,
        workspace.session.cancelled = false →
        expander.expandWithin nesting tree workspace =
            (.ok { tree, trace := [], warnings := [] }, workspace) ∧
          (expander.expandWithin nesting tree workspace.recorded).2.session.host.invocations = []) ∧
    ∀ table : SymbolTable, expander.model = table.model →
      ∀ nesting tree (before : Workspace σ) expansion,
        (expander.expandWithin nesting tree before).1 = .ok expansion →
        expansion.tree.IsExpanded expander.rules ∧
        ∀ workspace : Workspace σ, workspace.session.cancelled = false →
          expander.expandWithin nesting expansion.tree workspace =
            (.ok { tree := expansion.tree, trace := [], warnings := [] }, workspace) := by
  constructor
  · intro tree hexpanded
    obtain ⟨enough, henough⟩ := tree.exists_nestsWithin
    refine ⟨enough, fun nesting hnesting workspace hgoesOn => ?_⟩
    have hnests := henough nesting hnesting
    refine ⟨Expander.expandWithin_of_isExpanded hexpanded hnests hgoesOn, ?_⟩
    have hrecorded : workspace.recorded.session.cancelled = false := hgoesOn
    rw [Expander.expandWithin_of_isExpanded hexpanded hnests hrecorded]
    rfl
  · intro table htable nesting tree before expansion h
    obtain ⟨hexpanded, hnests⟩ :=
      Expander.isExpanded_of_expandWithin (htable ▸ table.byName_model) h
    exact ⟨hexpanded, fun workspace hgoesOn =>
      Expander.expandWithin_of_isExpanded hexpanded hnests hgoesOn⟩

/-- A block is settled once a call of a macro without output is expanded in it; the bare branch that
holds a lambda without braces is put back as it was. -/
theorem expansion_is_idempotent_block :
    let expander : Expander :=
      { model := (({} : SymbolTable).declare skipMacro).model
        config := { maxDepth := 1, recordTrace := false } }
    let branch := Stmt.branchOn (.ofBool true) (.evaluate (.lambdaOf [] (.callOf "Log" []))) none
    let settled := blockFile [.nothing, branch]
    (expander.expandWithin 5 (blockFile [.evaluate (.callOf "Skip" []), branch]) skipWorkspace).1 =
        .ok ⟨settled, [], []⟩ ∧
      settled.IsExpanded expander.rules ∧
      expander.expandWithin 5 settled skipWorkspace = (.ok ⟨settled, [], []⟩, skipWorkspace) ∧
      ∃ enough, ∀ nesting, enough ≤ nesting →
        (expander.expandWithin nesting settled skipWorkspace.recorded).2.session.host.invocations =
          [] := by
  intro expander branch settled
  have hrun : (expander.expandWithin 5 (blockFile [.evaluate (.callOf "Skip" []), branch])
      skipWorkspace).1 = .ok ⟨settled, [], []⟩ := by cbv
  obtain ⟨hexpanded, hagain⟩ :=
    (expansion_is_idempotent expander).2 _ rfl 5 _ skipWorkspace _ hrun
  obtain ⟨enough, henough⟩ := (expansion_is_idempotent (σ := Unit) expander).1 settled hexpanded
  exact ⟨hrun, hexpanded, hagain skipWorkspace rfl, enough, fun nesting hnesting =>
    (henough nesting hnesting skipWorkspace rfl).2⟩

end MacroExpansion
