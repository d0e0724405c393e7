import MacroExpansion.Proofs.CallCount
import MacroExpansion.Proofs.LongerSequence

/-! # Statements that stay one statement

A call that captures nothing and becomes an expression leaves its statement where it is, and does not
go by what follows. If all own calls of a statement are such calls (`Expander.KeepsStatements`), then
one statement comes out of it, the same one wherever it stands: also alone, and behind fewer inserted
runs than before (`FileWalk.splitWalk_single`). Unlike for a part of a longer sequence, this does not
go from the shorter sequence to the longer one only. -/

namespace MacroExpansion

variable {σ : Type} {frame : Progress σ → Progress σ → Prop} {inv : Progress σ → Prop}
  {Q : Call → Prop} {expander : Expander} {file : FileOrigin}

/-- Calls of a kind capture nothing and become expressions, in which all calls are of that kind. -/
structure Expander.KeepsStatements (expander : Expander) (file : FileOrigin)
    (inv : Progress σ → Prop) (Q : Call → Prop) : Prop where
  /-- The kind of a call is told by its path. -/
  byPath : HoldsByPath Q
  capturesNothing {call : Call} {symbol : MethodSymbol} (h : Q call)
    (hsymbol : expander.rules.candidate? call = some symbol) : expander.rules.CapturesNothing symbol
  expandCall {bound : BoundCall} (h : Q bound.site.call)
    (hleads : expander.rules.candidate? bound.site.call = some bound.symbol)
    (hbinds : expander.rules.bind bound.symbol bound.site file.source = .ok (some bound)) :
    (expander.expandCall file.source bound).Keeps inv (fun _ => True) fun placement =>
      ∃ expr, placement = .inPlace expr ∧ ∀ call ∈ expr.calls, Q call

/-- The next call of such a statement is the same wherever the statement stands. -/
theorem Expander.KeepsStatements.firstBound?_mirrors (h : expander.KeepsStatements file inv Q)
    {ignored : Prop} {site site' : Call → Site} {calls : List Call}
    (hsite : ∀ call, (site call).Resembles expander.rules (site' call))
    (hcall : ∀ call, (site call).call = call) (hcalls : ∀ call ∈ calls, Q call) :
    Mirrors ignored
      (Option.Rel fun bound other => bound.Resembles expander.rules file.source other ∧
        Q bound.site.call)
      (expander.firstBound? file.source site calls) (expander.firstBound? file.source site' calls) := by
  refine (Expander.firstBound?_mirrors hsite hcall ?_).mono fun next next' hrel => ?_
  · -- no parameter captures anything
    intro call hmem symbol hsymbol offset param hparam hrole
    rw [Nat.zero_add] at hrole
    exact absurd hrole (h.capturesNothing (hcalls call hmem) hsymbol offset param hparam)
  · cases hrel with
    | none => exact .none
    | some hbound =>
      obtain ⟨hresembles, call, hmem, hplace⟩ := hbound
      refine .some ⟨hresembles, ?_⟩
      rw [hplace, hcall]
      exact hcalls call hmem

namespace FileWalk

variable {walkRun walkRun' : SplitWalk σ} {walkNested : SequenceWalk σ} {setting other : Setting}

/-- One statement comes out of it, behind any statements and in front of any others. -/
theorem settleSplit_single (hsteps : expander.KeepsFrame file frame)
    (hkeeps : expander.KeepsStatements file inv Q)
    (hframe : ∀ progress progress', frame progress progress' → inv progress)
    (hnested : walkNested.Repeats expander.rules frame) (h : setting.Widens expander.rules other)
    (done done' rest rest' : List Stmt) (allowed : Nat) {stmt : Stmt}
    (hstmt : ∀ call ∈ stmt.ownCalls, Q call) :
    ExpandM.Simulates frame True
      (Flow.Related fun last last' => ∃ stmt, last = Split.mk (done ++ [stmt]) rest ∧
        last' = Split.mk (done' ++ [stmt]) rest')
      (settleSplit { expander, file } walkRun walkNested setting allowed ⟨done, stmt :: rest⟩)
      (settleSplit { expander, file } walkRun' walkNested other allowed ⟨done', stmt :: rest'⟩) := by
  refine settleSplit_simulates (fun stmt => ∀ call ∈ stmt.ownCalls, Q call)
    (fun bound other => bound.Resembles expander.rules file.source other ∧ Q bound.site.call)
    (fun _ _ hbound => hbound.1.site.call) h.depth (fun _ => True.intro) (fun stmt hstmt => ?_)
    (fun stmt _ => ?_) ?_ allowed hstmt
  · exact .require (hkeeps.firstBound?_mirrors (h.resembles done done' rest rest' stmt file.path)
      (fun _ => rfl) hstmt)
  · exact (settled_repeats hnested h done done' rest rest' stmt).mono (fun _ => True.intro)
      fun _ _ => id
  · rintro stmt bound bound' settle settle' hstmt ⟨hbound, hkind⟩ hsettle
    have hexpanded := (hsteps.expandCall hbound).and_keeps hframe
      (hkeeps.expandCall hkind hbound.leads hbound.binds)
    refine .bind ((hexpanded.located _ _).mono False.elim fun _ _ => id) ?_
    rintro placement _ ⟨rfl, expr, rfl, hexpr⟩
    simp only [placeSplit, Setting.stmt_cursor, hbound.site.call]
    cases hreplaced : stmt.replaceCall? bound.site.call expr with
    | none => exact .of_ignored True.intro _
    | some stmt' =>
      exact hsettle stmt' (Stmt.ownCalls_of_replaceCall? hkeeps.byPath hstmt hexpr hreplaced)

/-- A walk of the statement alone, or behind fewer inserted runs, comes to the same statement. -/
theorem splitWalk_single (hsteps : expander.KeepsFrame file frame)
    (hkeeps : expander.KeepsStatements file inv Q)
    (hframe : ∀ progress progress', frame progress progress' → inv progress)
    (h : setting.Widens expander.rules other) (nesting : Nat) (done done' rest rest' : List Stmt)
    {stmt : Stmt} (hstmt : ∀ call ∈ stmt.ownCalls, Q call) :
    ExpandM.Simulates frame True
      (Flow.Related fun last last' => ∃ stmt, last = Split.mk (done ++ [stmt]) rest ∧
        last' = Split.mk (done' ++ [stmt]) rest')
      (splitWalk { expander, file } nesting setting rest.length ⟨done, stmt :: rest⟩)
      (splitWalk { expander, file } nesting other rest'.length ⟨done', stmt :: rest'⟩) := by
  cases nesting with
  | zero => exact .throw _
  | succ nesting =>
    have hnested := (extends_splitWalk hsteps nesting).onSequence
    rw [splitWalk_of_lt _ _ _ _ (Nat.lt_succ_self _), splitWalk_of_lt _ _ _ _ (Nat.lt_succ_self _)]
    refine .bind (hsteps.poll.mono False.elim fun _ _ => id) fun _ _ _ => ?_
    refine .followedBy (settleSplit_single hsteps hkeeps hframe hnested h done done' rest rest' _
      hstmt) ?_
    rintro _ _ ⟨stmt, rfl, rfl⟩
    rw [splitWalk_of_le _ _ _ _ (Nat.le_refl _), splitWalk_of_le _ _ _ _ (Nat.le_refl _)]
    exact .pure (.proceed ⟨stmt, rfl, rfl⟩)

end FileWalk

end MacroExpansion
