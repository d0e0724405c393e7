import MacroExpansion.Expansion.Files
import MacroExpansion.Proofs.BodyNesting
import MacroExpansion.Proofs.Fixpoint
import MacroExpansion.Proofs.InStep
import MacroExpansion.Proofs.LocalMacros

/-! # Files on their own

Files that are expanded one after the other share a workspace: the session of the macro bodies, and the
registry, which remembers what symbols were matched with. Pure bodies leave the session as it is. What
is remembered depends on the files that came before, also on those that failed; but as long as
functions of one identity have one signature, it is what would be found anew (`Workspace.Serves`).
So each file is expanded and reported as if it were the only one. -/

namespace MacroExpansion

variable {σ : Type}

/-- A body leaves the host as it found it. -/
def Implementation.IsPure (implementation : Implementation σ) : Prop :=
  ∀ invocation state,
    ((implementation.body invocation).run.run state).2.session.cancelled = state.session.cancelled ∧
      ((implementation.body invocation).run.run state).2.session.host = state.session.host

/-- A pure body leaves the session as it is. -/
theorem Implementation.IsPure.session_invoke {implementation : Implementation σ}
    (h : implementation.IsPure) (invocation : Invocation) (config : ExpansionConfig)
    (source : Option SourceText) (buffers : Buffers) (session : Session σ) :
    (invoke implementation invocation config source buffers session).session = session := by
  have hbinding := binding_invoke implementation invocation config source buffers session
  have hhost :
      (invoke implementation invocation config source buffers session).session.cancelled =
          session.cancelled ∧
        (invoke implementation invocation config source buffers session).session.host =
          session.host := by
    unfold invoke
    cases session.binding.enter invocation.site with
    | error error => exact ⟨rfl, rfl⟩
    | ok binding => exact h invocation { buffers, session := { session with binding } }
  rcases hleft : (invoke implementation invocation config source buffers session).session with
    ⟨binding, cancelled, host⟩
  rw [hleft] at hbinding hhost
  obtain ⟨hcancelled, hhost⟩ := hhost
  exact congr (congr (congrArg Session.mk hbinding) hcancelled) hhost

/-- Functions of one identity have one signature. -/
def SemanticModel.HasOneSignature (model : SemanticModel) : Prop :=
  ∀ {call call' : Call} {symbol other : MethodSymbol}, model.bindCall call = some symbol →
    model.bindCall call' = some other → symbol.id = other.id →
    MacroSignature.of symbol = MacroSignature.of other

/-- Functions that are told apart by their identities have one signature each. -/
theorem SymbolTable.hasOneSignature_declaring {symbols : List MethodSymbol}
    (hapart : MethodSymbol.ToldApart symbols) : (declaring symbols).model.HasOneSignature := by
  intro call call' symbol other h h' hid
  rw [hapart symbol (mem_of_get?_declaring h) other (mem_of_get?_declaring h') hid]

namespace Registry

variable {registry : Registry σ} {symbol other : MethodSymbol}

/-- Where nothing is remembered, the signature decides. -/
theorem discover_of_empty (h : registry.discovered = []) (symbol : MethodSymbol) :
    (registry.discover symbol).1 = registry.find? (.of symbol) := by
  unfold discover
  rw [h]
  cases registry.find? (.of symbol) <;> simp

/-- Where nothing is remembered at first, it makes no difference that other functions were looked up, if
functions of one identity have one signature. -/
theorem discover_discover_of_empty (h : registry.discovered = [])
    (hsame : symbol.id = other.id → MacroSignature.of symbol = MacroSignature.of other) :
    ((registry.discover symbol).2.discover other).1 = (registry.discover other).1 := by
  rw [discover_discover]
  split
  · rw [discover_of_empty h, discover_of_empty h, hsame ‹_›, Option.or_self]
  · rfl

end Registry

/-- A workspace in which macros come to what they come to at the start. -/
structure Workspace.ServesAs (rules : BindingRules) (workspace start : Workspace σ) : Prop where
  /-- The session is the same. -/
  session : workspace.session = start.session
  /-- The macros have the same implementations. -/
  leads : Registry.LeadsAs rules start.registry workspace.registry

/-- A workspace to start from: looking a macro up makes no difference to others, and what they lead to
is pure. -/
structure Workspace.IsShareable (rules : BindingRules) (start : Workspace σ) : Prop where
  /-- Looking one up makes no difference to the others. -/
  settled {call call' : Call} {symbol other : MethodSymbol} (h : rules.candidate? call = some symbol)
    (h' : rules.candidate? call' = some other) :
    ((start.registry.discover symbol).2.discover other).1 = (start.registry.discover other).1
  /-- What they lead to is pure. -/
  isPure {symbol : MethodSymbol} {implementation : Implementation σ}
    (h : (start.registry.discover symbol).1 = some implementation) : implementation.IsPure

/-- Two progresses of one file that serve as the start does. -/
structure Progress.Parallel (rules : BindingRules) (start : Workspace σ)
    (progress other : Progress σ) : Prop where
  /-- The first one serves as the start does. -/
  serves : progress.toWorkspace.ServesAs rules start
  /-- So does the second one. -/
  serves' : other.toWorkspace.ServesAs rules start
  /-- The same steps were recorded. -/
  trace : other.trace = progress.trace
  /-- The same warnings arose. -/
  warnings : other.warnings = progress.warnings

/-! ## One file -/

/-- Programs that do the same in all workspaces that serve as the start does. -/
def WalkRelation.parallel (rules : BindingRules) (start : Workspace σ) : WalkRelation σ σ :=
  .inStep (Progress.Parallel rules start) (ExpandM.SameStop (Progress.Parallel rules start))

namespace WalkRelation

variable {rules : BindingRules} {start : Workspace σ}

/-- The same warning arises in both workspaces. -/
theorem parallel_warn (records : List DiagnosticRecord) :
    (parallel rules start).Rel (ExpandM.warn records) (ExpandM.warn records) :=
  fun _ _ h => ⟨_, rfl, h.serves, h.serves', h.trace,
    congrArg (fun warnings : Array DiagnosticRecord => warnings ++ records) h.warnings⟩

/-- The same step is recorded in both workspaces. -/
theorem parallel_record (step : ExpansionStep) :
    (parallel rules start).Rel (ExpandM.record step) (ExpandM.record step) :=
  fun _ _ h => ⟨_, rfl, h.serves, h.serves', congrArg (·.push step) h.trace, h.warnings⟩

/-- A macro is found alike in both workspaces. -/
theorem parallel_resolve (hstart : start.IsShareable rules) {call : Call} {symbol : MethodSymbol}
    (hsymbol : rules.candidate? call = some symbol) (site : Site) (source : Option SourceText) :
    (parallel rules start).Rel (ExpandM.resolve symbol site source)
      (ExpandM.resolve symbol site source) := by
  intro progress other h
  have hleads := h.serves.leads.resolve hstart.settled hsymbol site source
  have hleads' := h.serves'.leads.resolve hstart.settled hsymbol site source
  have hfound : (other.registry.resolve symbol site source).1 =
      (progress.registry.resolve symbol site source).1 := by
    rw [Registry.resolve_eq, Registry.resolve_eq, h.serves.leads _ _ hsymbol, h.serves'.leads _ _ hsymbol]
  unfold ExpandM.InStepAt
  rw [ExpandM.runFrom_resolve, ExpandM.runFrom_resolve, hfound]
  cases (progress.registry.resolve symbol site source).1 with
  | error error =>
    exact ⟨_, _, rfl, rfl, ⟨h.serves.session, hleads⟩, ⟨h.serves'.session, hleads'⟩, h.trace, h.warnings⟩
  | ok implementation =>
    exact ⟨_, rfl, ⟨h.serves.session, hleads⟩, ⟨h.serves'.session, hleads'⟩, h.trace, h.warnings⟩

/-- A pure body runs alike in both workspaces. -/
theorem parallel_runBody {implementation : Implementation σ} (hpure : implementation.IsPure)
    (invocation : Invocation) (config : ExpansionConfig) (source : Option SourceText)
    (buffers : Buffers) (buffer : BufferId) :
    (parallel rules start).Rel
      (ExpandM.runBody implementation invocation config source buffers buffer)
      (ExpandM.runBody implementation invocation config source buffers buffer) := by
  intro progress other h
  have hsession := hpure.session_invoke invocation config source buffers start.session
  unfold ExpandM.InStepAt
  rw [ExpandM.runFrom_runBody, ExpandM.runFrom_runBody, h.serves.session, h.serves'.session]
  dsimp only
  rw [hsession]
  cases (invoke implementation invocation config source buffers start.session).outcome with
  | error stop =>
    exact ⟨_, _, rfl, rfl, ⟨rfl, h.serves.leads⟩, ⟨rfl, h.serves'.leads⟩, h.trace, h.warnings⟩
  | ok requested =>
    exact ⟨_, rfl, ⟨rfl, h.serves.leads⟩, ⟨rfl, h.serves'.leads⟩, h.trace, h.warnings⟩

end WalkRelation

open WalkRelation

namespace Expander

variable {expander : Expander} {start : Workspace σ}

/-- A call is expanded alike in all workspaces that serve as the start does. -/
theorem expandCall_parallel (hstart : start.IsShareable expander.rules) {bound : BoundCall}
    (hsymbol : expander.rules.candidate? bound.site.call = some bound.symbol)
    (source : Option SourceText) :
    (parallel expander.rules start).Rel (expander.expandCall source bound)
      (expander.expandCall source bound) := by
  let relation := parallel expander.rules start
  unfold expandCall
  refine relation.bind (parallel_warn _) fun _ progress other h => ?_
  refine (parallel_resolve hstart hsymbol _ _ progress other h).bind ?_
  intro implementation ended ended' hrun _ h'
  -- what is found was registered at the start, and all of that is pure
  have hpure : implementation.IsPure := by
    rw [ExpandM.runFrom_resolve, Registry.resolve_eq, h.serves.leads _ _ hsymbol] at hrun
    cases hfound : (start.registry.discover bound.symbol).1 with
    | none =>
      rw [hfound] at hrun
      cases hrun
    | some found =>
      rw [hfound] at hrun
      cases hrun
      exact hstart.isPure hfound
  refine relation.bind (.require_same _) (fun typeArgs =>
    relation.bind (parallel_runBody hpure _ _ _ _ _) fun output =>
    relation.bind (.require_same _) fun fragments =>
    relation.bind (.require_same _) fun placement => ?_) ended ended' h'
  split
  · exact relation.bind (parallel_record _) fun _ => relation.pure placement
  · exact relation.pure placement

/-- The steps of an expansion are the same in all workspaces that serve as the start does. -/
theorem covers_parallel (hstart : start.IsShareable expander.rules) (file : FileOrigin) :
    (parallel expander.rules start).Covers { expander, file } { expander, file } :=
  covers_inStep rfl rfl
    (fun _ _ h => congrArg Session.cancelled (h.serves'.session.trans h.serves.session.symm))
    (fun _ _ _ _ h => ⟨rfl, h⟩) fun hsymbol => .located_same (expandCall_parallel hstart hsymbol _) _ _

/-- A file is expanded to the same in a workspace that serves as the start does, and leaves one that
does so too. -/
theorem expandWithin_parallel (hstart : start.IsShareable expander.rules) (nesting : Nat)
    (tree : SyntaxTree) {workspace : Workspace σ}
    (h : workspace.ServesAs expander.rules start) :
    (expander.expandWithin nesting tree workspace).1 = (expander.expandWithin nesting tree start).1 ∧
      (expander.expandWithin nesting tree workspace).2.ServesAs expander.rules start := by
  have hitems : (parallel expander.rules start).Rel (itemsProgram (·.walk nesting) expander tree)
      (itemsProgram (·.walk nesting) expander tree) :=
    itemsProgram_sideBySide (expander.covers_parallel hstart _) rfl nesting
  have hstep := hitems { toWorkspace := workspace } { toWorkspace := start }
    ⟨h, ⟨rfl, fun _ _ _ => rfl⟩, rfl, rfl⟩
  unfold ExpandM.InStepAt at hstep
  unfold expandWithin
  rw [expandBy_eq, expandBy_eq]
  rcases hrun : (itemsProgram (·.walk nesting) expander tree).runFrom
    { toWorkspace := workspace } with ⟨stop | items, ended⟩
  all_goals rw [hrun] at hstep
  · obtain ⟨_, ended', hrun', rfl, hended⟩ := hstep
    rw [hrun']
    exact ⟨rfl, hended.serves⟩
  · obtain ⟨ended', hrun', hended⟩ := hstep
    rw [hrun']
    refine ⟨?_, hended.serves⟩
    dsimp only
    rw [hended.trace, hended.warnings]

/-- A file that does not return is not reported. -/
theorem sink_expandFile_of_stop {tree : SyntaxTree} {reporting : ReportingWorkspace σ} {stop : Stop}
    (h : (expander.expandFile tree reporting).1 = .error stop) :
    (expander.expandFile tree reporting).2.sink = reporting.sink := by
  unfold expandFile at h ⊢
  generalize expander.expand tree reporting.toWorkspace = ended at h ⊢
  rcases ended with ⟨(error | payload | -) | expansion, left⟩
  · cases error <;> cases h
  · rfl
  · rfl
  · cases h

/-- A file that is expanded in a workspace that serves as the start does comes to what it comes to
alone, and adds the reports that it makes alone. -/
theorem expandFile_parallel (hstart : start.IsShareable expander.rules) (tree : SyntaxTree)
    {reporting : ReportingWorkspace σ} (h : reporting.toWorkspace.ServesAs expander.rules start) :
    let alone := expander.expandFile tree { toWorkspace := start }
    let ended := expander.expandFile tree reporting
    ended.1 = alone.1 ∧ ended.2.toWorkspace.ServesAs expander.rules start ∧
      ended.2.sink.records = reporting.sink.records ++ alone.2.sink.records := by
  obtain ⟨hresult, hserves⟩ := expandWithin_parallel hstart nestingBound tree h
  change (expander.expand tree reporting.toWorkspace).1 = (expander.expand tree start).1 at hresult
  change (expander.expand tree reporting.toWorkspace).2.ServesAs expander.rules start at hserves
  unfold expandFile
  rcases hrun : expander.expand tree reporting.toWorkspace with ⟨result, left⟩
  rcases hrun' : expander.expand tree start with ⟨result', left'⟩
  rw [hrun, hrun'] at hresult
  rw [hrun] at hserves
  dsimp only at hresult hserves
  subst hresult
  rcases result with (error | payload | -) | expansion
  · cases error with
    | failed failure => exact ⟨rfl, hserves, rfl⟩
    | cancelled => exact ⟨rfl, hserves, (List.append_nil _).symm⟩
  · exact ⟨rfl, hserves, (List.append_nil _).symm⟩
  · exact ⟨rfl, hserves, (List.append_nil _).symm⟩
  · refine ⟨rfl, hserves, ?_⟩
    dsimp only
    rw [DiagnosticSink.records_reportAll, DiagnosticSink.records_reportAll]
    rfl

/-- Files that are expanded in a workspace that serves as the start does come to what they come to
alone, up to the first one that does not return. -/
theorem expandFiles_parallel (hstart : start.IsShareable expander.rules)
    (trees : List SyntaxTree) {reporting : ReportingWorkspace σ}
    (h : reporting.toWorkspace.ServesAs expander.rules start) :
    let alone tree := expander.expandFile tree { toWorkspace := start }
    let ended := expander.expandFiles reporting trees
    ended.1 = trees.mapM (fun tree => (alone tree).1) ∧
      ended.2.sink.records = reporting.sink.records ++
        (trees.takeWhile fun tree => (alone tree).1.isOk).flatMap
          fun tree => (alone tree).2.sink.records := by
  induction trees generalizing reporting with
  | nil => exact ⟨rfl, (List.append_nil _).symm⟩
  | cons tree rest ih =>
    obtain ⟨hresult, hserves, hrecords⟩ := expandFile_parallel hstart tree h
    dsimp only
    rw [List.mapM_cons, List.takeWhile_cons, expandFiles, ← hresult]
    rcases hrun : expander.expandFile tree reporting with ⟨stop | first, left⟩
    · refine ⟨rfl, ?_⟩
      have hsink := sink_expandFile_of_stop (congrArg Prod.fst hrun)
      rw [hrun] at hsink
      exact (congrArg DiagnosticSink.records hsink).trans (List.append_nil _).symm
    · rw [hrun] at hserves hrecords
      obtain ⟨hothers, hreports⟩ := ih hserves
      dsimp only
      rw [hothers]
      refine ⟨rfl, ?_⟩
      rw [hreports, hrecords, List.append_assoc]
      rfl

end Expander

/-! ## Many files -/

/-- A list that comes to results comes to the same ones in any order. -/
theorem except_mapM_of_perm {ε α β : Type} {next : α → Except ε β} {values values' : List α}
    (h : values.Perm values') {results : List β} (hresults : values.mapM next = .ok results) :
    ∃ results', values'.mapM next = .ok results' ∧
      (values.zip results).Perm (values'.zip results') := by
  induction h generalizing results with
  | nil => exact ⟨results, hresults, .refl _⟩
  | cons value _ ih =>
    rw [List.mapM_cons] at hresults
    obtain ⟨first, hfirst, hresults⟩ := except_bind_ok hresults
    obtain ⟨others, hothers, hresults⟩ := except_bind_ok hresults
    cases hresults
    obtain ⟨others', hothers', hperm⟩ := ih hothers
    refine ⟨first :: others', ?_, hperm.cons _⟩
    rw [List.mapM_cons, hfirst, hothers']
    rfl
  | swap value value' rest =>
    rw [List.mapM_cons] at hresults
    obtain ⟨first, hfirst, hresults⟩ := except_bind_ok hresults
    obtain ⟨others, hothers, hresults⟩ := except_bind_ok hresults
    cases hresults
    rw [List.mapM_cons] at hothers
    obtain ⟨second, hsecond, hothers⟩ := except_bind_ok hothers
    obtain ⟨others, hrest, hothers⟩ := except_bind_ok hothers
    cases hothers
    -- all three computations return, in whichever order they are made
    refine ⟨second :: first :: others, ?_, .swap _ _ _⟩
    rw [List.mapM_cons, List.mapM_cons, hfirst, hsecond, hrest]
    rfl
  | trans _ _ ih ih' =>
    obtain ⟨_, hmiddle, hperm⟩ := ih hresults
    obtain ⟨results', hresults', hperm'⟩ := ih' hmiddle
    exact ⟨results', hresults', hperm.trans hperm'⟩

/-- A list that comes to results comes to one for each of its members. -/
theorem except_map_of_mapM {ε α β : Type} {next : α → Except ε β} {values : List α}
    {results : List β} (h : values.mapM next = .ok results) : values.map next = results.map .ok := by
  induction values generalizing results with
  | nil =>
    cases h
    rfl
  | cons value rest ih =>
    rw [List.mapM_cons] at h
    obtain ⟨first, hfirst, h⟩ := except_bind_ok h
    obtain ⟨others, hothers, h⟩ := except_bind_ok h
    cases h
    rw [List.map_cons, List.map_cons, hfirst, ih hothers]

/-- A workspace that remembers nothing can be shared, if functions of one identity have one signature
and the implementations are pure. -/
theorem Workspace.isShareable_of_empty {expander : Expander} {start : Workspace σ}
    (hempty : start.registry.discovered = []) (hmodel : expander.model.HasOneSignature)
    (hpure : ∀ implementation, start.registry.Has implementation → implementation.IsPure) :
    start.IsShareable expander.rules where
  settled h h' := Registry.discover_discover_of_empty hempty
    (hmodel (Option.filter_eq_some_iff.mp h).1 (Option.filter_eq_some_iff.mp h').1)
  isPure h := hpure _ (Registry.has_of_discover h)

/-- Files are independent. In a workspace that remembers no look-up, with pure implementations and a
model in which functions of one identity have one signature, the files of a list come to what each of
them comes to alone, up to the first one that does not return, and the sink receives what each of them
reports alone. In another order the results and the reports are the same, in that order. -/
theorem files_are_independent (expander : Expander) (start : Workspace σ) (sink : DiagnosticSink)
    (hempty : start.registry.discovered = []) (hmodel : expander.model.HasOneSignature)
    (hpure : ∀ implementation, start.registry.Has implementation → implementation.IsPure)
    (trees : List SyntaxTree) :
    let alone (tree : SyntaxTree) := expander.expandFile tree { toWorkspace := start }
    let together (trees : List SyntaxTree) := expander.expandFiles { toWorkspace := start, sink } trees
    (together trees).1 = trees.mapM (fun tree => (alone tree).1) ∧
      (together trees).2.sink.records = sink.records ++
        (trees.takeWhile fun tree => (alone tree).1.isOk).flatMap
          (fun tree => (alone tree).2.sink.records) ∧
      ∀ results, (together trees).1 = .ok results →
        (trees.map fun tree => (alone tree).1) = results.map .ok ∧
          (together trees).2.sink.records =
            sink.records ++ trees.flatMap (fun tree => (alone tree).2.sink.records) ∧
          ∀ trees', trees.Perm trees' → ∃ results', (together trees').1 = .ok results' ∧
            (trees.zip results).Perm (trees'.zip results') ∧
            (together trees).2.sink.records.Perm (together trees').2.sink.records := by
  intro alone together
  have hshared := Workspace.isShareable_of_empty hempty hmodel hpure
  have hfiles (trees : List SyntaxTree) :
      (together trees).1 = trees.mapM (fun tree => (alone tree).1) ∧
        (together trees).2.sink.records = sink.records ++
          (trees.takeWhile fun tree => (alone tree).1.isOk).flatMap
            fun tree => (alone tree).2.sink.records :=
    expander.expandFiles_parallel hshared trees ⟨rfl, fun _ _ _ => rfl⟩
  have hreports {trees : List SyntaxTree} {results : List (Option SyntaxTree)}
      (h : trees.mapM (fun tree => (alone tree).1) = .ok results) :
      (together trees).2.sink.records =
        sink.records ++ trees.flatMap (fun tree => (alone tree).2.sink.records) := by
    rw [(hfiles trees).2, List.takeWhile_eq_self_iff.mpr]
    intro tree htree
    have hmem := List.mem_map_of_mem (f := fun tree => (alone tree).1) htree
    rw [except_map_of_mapM h] at hmem
    obtain ⟨result, -, hresult⟩ := List.mem_map.mp hmem
    rw [← hresult]
    rfl
  obtain ⟨htogether, hrecords⟩ := hfiles trees
  refine ⟨htogether, hrecords, fun results h => ?_⟩
  rw [htogether] at h
  refine ⟨except_map_of_mapM h, hreports h, fun trees' hperm => ?_⟩
  obtain ⟨results', h', hzip⟩ := except_mapM_of_perm hperm h
  refine ⟨results', (hfiles trees').1.trans h', hzip, ?_⟩
  rw [hreports h, hreports h']
  exact (hperm.flatMap_right _).append_left _

/-- A macro that takes a number. -/
def countMacro : MethodSymbol where
  id := ⟨1⟩
  declaringType := "Host"
  name := "Count"
  params := [{ name := "number", type := .int }]
  markers := [.macroFunction]

/-- A file that fails at its second call is reported twice, and the file between goes on. -/
theorem files_are_independent_of_failures :
    let expander : Expander :=
      { model := (SymbolTable.declaring [skipMacro, countMacro]).model
        config := { recordTrace := false } }
    let failing := blockFile [.evaluate (.callOf "Skip" []), .evaluate (.callOf "Count" [])]
    let passing := blockFile [.evaluate (.callOf "Skip" [])]
    let fault := Fault.missingArgument "Host.Count" "number"
    let together := expander.expandFiles { toWorkspace := skipWorkspace } [failing, passing, failing]
    together.1 = .ok [none, some (blockFile [.nothing]), none] ∧
      together.2.sink.records.map (·.message) =
        [(ExpansionError.unlocated fault).text, (ExpansionError.unlocated fault).text] := by
  intro expander failing passing fault together
  have hfailing : (expander.expandWithin 3 failing skipWorkspace).1 =
      .error (.error (.atSpan fault default none)) := by cbv
  have hpassing : (expander.expandWithin 3 passing skipWorkspace).1 =
      .ok ⟨blockFile [.nothing], [], []⟩ := by cbv
  have hexpand {tree : SyntaxTree} {result : Except Stop Expansion}
      (h : (expander.expandWithin 3 tree skipWorkspace).1 = result)
      (hends : result ≠ .error .exhausted) :
      ∃ left, expander.expand tree skipWorkspace = (result, left) := by
    subst h
    exact ⟨_, Expander.expand_eq (show (3 + 1) * (128 + 2) ≤ _ by decide) hends⟩
  have halone : (expander.expandFile failing { toWorkspace := skipWorkspace }).1 = .ok none ∧
      (expander.expandFile failing { toWorkspace := skipWorkspace }).2.sink.records =
        [.ofError (.atSpan fault default none) "file"] := by
    obtain ⟨left, hrun⟩ := hexpand hfailing (by rintro ⟨⟩)
    unfold Expander.expandFile
    rw [hrun]
    exact ⟨rfl, rfl⟩
  have halone' : (expander.expandFile passing { toWorkspace := skipWorkspace }).1 =
        .ok (some (blockFile [.nothing])) ∧
      (expander.expandFile passing { toWorkspace := skipWorkspace }).2.sink.records = [] := by
    obtain ⟨left, hrun⟩ := hexpand hpassing (by rintro ⟨⟩)
    unfold Expander.expandFile
    rw [hrun]
    exact ⟨rfl, rfl⟩
  have hapart : MethodSymbol.ToldApart [skipMacro, countMacro] := by
    unfold MethodSymbol.ToldApart
    decide
  have hpure (implementation : Implementation Unit)
      (h : skipWorkspace.registry.Has implementation) : implementation.IsPure := by
    rcases Registry.has_register h with (⟨_, ⟨⟩⟩ | ⟨_, ⟨⟩⟩) | rfl
    exact fun _ _ => ⟨rfl, rfl⟩
  obtain ⟨hresults, -, hreports⟩ := files_are_independent expander skipWorkspace {} rfl
    (SymbolTable.hasOneSignature_declaring hapart) hpure [failing, passing, failing]
  have hok : together.1 = .ok [none, some (blockFile [.nothing]), none] := by
    refine hresults.trans ?_
    rw [List.mapM_cons, List.mapM_cons, List.mapM_cons, List.mapM_nil, halone.1, halone'.1]
    rfl
  obtain ⟨-, hrecords, -⟩ := hreports _ hok
  refine ⟨hok, (congrArg _ hrecords).trans ?_⟩
  rw [List.flatMap_cons, List.flatMap_cons, List.flatMap_cons, List.flatMap_nil, halone.2, halone'.2]
  rfl

end MacroExpansion
