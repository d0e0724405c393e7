import MacroExpansion.Proofs.CallCount
import MacroExpansion.Proofs.CallOutcome
import MacroExpansion.Proofs.Fixpoint

/-! # Code without calls of macros

Where macros write plain code, which has no calls of macros in it, every expansion takes a macro call
out of its statement and brings none in. A statement that has no more macro calls than the limit
allows, and whose bodies have no more either, stays so (`Stmt.Fits.of_replaceCall?`). -/

namespace MacroExpansion

/-! ## Calls that count -/

namespace BindingRules

/-- The call leads to a macro. -/
def isMacroCall (rules : BindingRules) (call : Call) : Bool :=
  (rules.candidate? call).isSome

/-- The call leads to a macro that captures statements after the call. -/
def isCapturingCall (rules : BindingRules) (call : Call) : Bool :=
  (rules.candidate? call).any fun symbol => symbol.params.any (·.isCapture)

variable {rules : BindingRules}

/-- A call that is a candidate for expansion leads to a macro. -/
theorem isMacroCall_of_candidate? {call : Call} {symbol : MethodSymbol}
    (h : rules.candidate? call = some symbol) : rules.isMacroCall call = true := by
  rw [isMacroCall, h]
  rfl

/-- Where no call leads to a macro there are no macro calls to count. -/
theorem countP_isMacroCall_eq_zero {calls : List Call}
    (h : ∀ call ∈ calls, rules.candidate? call = none) : calls.countP rules.isMacroCall = 0 := by
  refine List.countP_eq_zero.mpr fun call hcall hleads => ?_
  rw [isMacroCall, h call hcall] at hleads
  cases hleads

/-- Calls of one path lead to one macro. -/
theorem candidate?_eq (hmodel : rules.model.ByName) {call call' : Call}
    (h : call.callee = call'.callee) : rules.candidate? call = rules.candidate? call' := by
  rw [candidate?, candidate?, hmodel.bindCall h]

/-- Whether a call leads to a macro is told by its head. -/
theorem countsByHead_isMacroCall (hmodel : rules.model.ByName) : CountsByHead rules.isMacroCall :=
  fun _ _ h => congrArg Option.isSome (candidate?_eq hmodel (Prod.mk.inj h).1)

/-- Whether a call captures statements is told by its head. -/
theorem countsByHead_isCapturingCall (hmodel : rules.model.ByName) :
    CountsByHead rules.isCapturingCall :=
  fun _ _ h => congrArg (Option.any _) (candidate?_eq hmodel (Prod.mk.inj h).1)

/-- A list without macro calls has no capturing ones either. -/
theorem countP_isCapturingCall_eq_zero {calls : List Call} (h : calls.countP rules.isMacroCall = 0) :
    calls.countP rules.isCapturingCall = 0 := by
  refine List.countP_eq_zero.mpr fun call hcall hcaptures => ?_
  refine List.countP_eq_zero.mp h call hcall ?_
  unfold isMacroCall
  unfold isCapturingCall at hcaptures
  cases hcandidate : rules.candidate? call with
  | none =>
    rw [hcandidate] at hcaptures
    cases hcaptures
  | some symbol => rfl

end BindingRules

namespace Stmt

/-- The number of own calls that lead to macros. -/
def macroCalls (rules : BindingRules) (stmt : Stmt) : Nat :=
  stmt.ownCalls.countP rules.isMacroCall

/-- The number of own calls that capture statements. -/
def capturingCalls (rules : BindingRules) (stmt : Stmt) : Nat :=
  stmt.ownCalls.countP rules.isCapturingCall

/-- A statement behind so many inserted runs has no more macro calls than the limit allows, and the
runs that its capturing calls insert are not too deep. So has every statement in its bodies, which
stands behind these runs as well. -/
inductive Fits (rules : BindingRules) (limit : Nat) : (depth : Nat) → Stmt → Prop where
  /-- The statement fits when it and its bodies do. -/
  | intro {depth : Nat} {stmt : Stmt} (hcalls : stmt.macroCalls rules ≤ limit)
      (hdepth : 0 < stmt.macroCalls rules → depth + stmt.capturingCalls rules ≤ limit)
      (hbodies : ∀ slot content, Slot.content? slot stmt = some content →
        ∀ inner ∈ content.statements, Fits rules limit (depth + stmt.capturingCalls rules) inner) :
      Fits rules limit depth stmt

/-- A statement without calls of macros. -/
def IsPlain (rules : BindingRules) (stmt : Stmt) : Prop :=
  stmt.AllCalls fun call => rules.candidate? call = none

variable {rules : BindingRules} {limit depth : Nat} {stmt : Stmt}

/-- What fits behind some runs fits behind fewer. -/
theorem Fits.of_le {depth' : Nat} (h : stmt.Fits rules limit depth) (hle : depth' ≤ depth) :
    stmt.Fits rules limit depth' := by
  induction h generalizing depth' with
  | intro hcalls hdepth hbodies ih =>
    refine .intro hcalls (fun hpos => ?_) fun slot content hcontent inner hinner => ?_
    · have hfits := hdepth hpos
      omega
    · exact ih slot content hcontent inner hinner (Nat.add_le_add_right hle _)

/-- A statement that fits has no more macro calls than the limit allows. -/
theorem Fits.macroCalls_le (h : stmt.Fits rules limit depth) : stmt.macroCalls rules ≤ limit := by
  cases h with
  | intro hcalls _ _ => exact hcalls

/-- An empty statement is plain. -/
theorem isPlain_empty (span : Span) : (Stmt.empty span).IsPlain rules := by
  intro stmt hstmt call hcall
  cases hstmt with
  | self => cases hcall
  | lambda hlambda => cases hlambda

/-- A plain statement has no macro calls to count. -/
theorem IsPlain.macroCalls_eq (h : stmt.IsPlain rules) : stmt.macroCalls rules = 0 :=
  BindingRules.countP_isMacroCall_eq_zero (h stmt (.self stmt))

/-- A plain statement fits everywhere. -/
theorem Fits.of_isPlain (h : stmt.IsPlain rules) (limit depth : Nat) :
    stmt.Fits rules limit depth := by
  induction hheight : stmt.height using Nat.strongRecOn generalizing stmt depth with
  | ind height ih =>
    have hnone := h.macroCalls_eq
    refine .intro (by omega) (fun hpos => by omega) fun slot content hcontent inner hinner => ?_
    have hlt := Slot.height_content_lt hcontent
    have hle := height_le_stmtsHeight hinner
    refine ih inner.height (by omega) (fun stmt' hstmt' => ?_) _ rfl
    exact h stmt' (.of_content hcontent hinner hstmt')

/-- Plain code in place of a macro call takes that call out of the count. The statement still fits,
also behind further runs as far as the call has made room for them. -/
theorem Fits.of_replaceCall? (hmodel : rules.model.ByName) {stmt' : Stmt} {target : Call} {expr : Expr}
    (h : stmt.Fits rules limit depth) (htarget : rules.isMacroCall target = true)
    (hplain : (Stmt.ofExpr expr).IsPlain rules) (hreplaced : stmt.replaceCall? target expr = some stmt') :
    stmt'.macroCalls rules < stmt.macroCalls rules ∧
      (stmt'.capturingCalls rules + [target].countP rules.isCapturingCall ≤
        stmt.capturingCalls rules) ∧
      ∀ depth', depth' + stmt'.capturingCalls rules ≤ depth + stmt.capturingCalls rules →
        stmt'.Fits rules limit depth' := by
  have hmacros := countP_ownCalls_replaceCall? (BindingRules.countsByHead_isMacroCall hmodel) hreplaced
  have hcaptures :=
    countP_ownCalls_replaceCall? (BindingRules.countsByHead_isCapturingCall hmodel) hreplaced
  have hexpr : expr.calls.countP rules.isMacroCall = 0 := hplain.macroCalls_eq
  have hexpr' := BindingRules.countP_isCapturingCall_eq_zero hexpr
  have hsplit : (target :: target.inner).countP rules.isCapturingCall =
      [target].countP rules.isCapturingCall + target.inner.countP rules.isCapturingCall := by
    rw [← List.singleton_append, List.countP_append]
  rw [List.countP_cons, if_pos htarget] at hmacros
  have hfewer : stmt'.macroCalls rules < stmt.macroCalls rules := by
    unfold macroCalls
    omega
  cases h with
  | intro hcalls hdepth hbodies =>
    refine ⟨hfewer, ?_, fun depth' hle => .intro (by omega) (fun _ => ?_) ?_⟩
    · unfold capturingCalls
      omega
    · have hfits := hdepth (by omega)
      omega
    · intro slot content hcontent inner hinner
      rcases content?_replaceCall? hreplaced hcontent with ⟨slot', hold⟩ | ⟨lambda, hlambda, rfl⟩
      · exact (hbodies slot' content hold inner hinner).of_le hle
      · -- the body of a lambda in the new code
        exact .of_isPlain (fun stmt hstmt => hplain stmt (.lambda hlambda hinner hstmt)) _ _

end Stmt

/-! ## Plain output -/

/-- A fragment without calls of macros that is no function. -/
def Fragment.IsPlain (rules : BindingRules) : Fragment → Prop
  | .expr e => (Stmt.ofExpr e).IsPlain rules
  | .stmt s => s.IsPlain rules
  | .function _ => False

/-- A macro that never writes a call of a macro or a function, through its quotes or through the call
binding. -/
def Implementation.WritesPlain {σ : Type} (rules : BindingRules) (implementation : Implementation σ) :
    Prop :=
  ∀ invocation config source session, ∀ requested,
    (invoke implementation invocation config source (Buffers.create {}).2 session).outcome =
      .ok requested →
    (∀ fragment ∈ requested, fragment.IsPlain rules) ∧
      ∀ buffer, ∀ fragment ∈ (invoke implementation invocation config source (Buffers.create {}).2
        session).buffers.fragments buffer, fragment.IsPlain rules

/-- What is placed is the output of a macro as it is, or spliced over what its call captured. -/
theorem BoundCall.place_eq {bound : BoundCall} {fragments : List Fragment} {placement : Placement}
    (h : bound.place fragments = .ok placement) :
    ∃ output, Placement.ofFragments bound.symbol bound.site fragments = .ok output ∧
      placement = if bound.captured = 0 then output else output.overCaptured bound.site := by
  unfold place at h
  cases houtput : Placement.ofFragments bound.symbol bound.site fragments with
  | error fault =>
    rw [houtput] at h
    cases h
  | ok output =>
    rw [houtput] at h
    exact ⟨output, rfl, (Except.ok.inj h).symm⟩

namespace BoundCall

variable {σ : Type} {expander : Expander} {source : Option SourceText} {bound : BoundCall}
  {progress : Progress σ} {implementation : Implementation σ} {registry : Registry σ}
  {invoked : Invoked σ}

/-- Output comes through one of the channels. -/
theorem output_eq {written requested fragments : List Fragment}
    (h : bound.output written requested = .ok fragments) : fragments = requested ++ written := by
  unfold output at h
  by_cases hrequested : requested.isEmpty = true
  · rw [if_pos hrequested] at h
    rw [List.isEmpty_iff.mp hrequested, List.nil_append, Except.ok.inj h]
  · rw [if_neg hrequested] at h
    by_cases hwritten : written.isEmpty = true
    · rw [if_pos hwritten] at h
      rw [List.isEmpty_iff.mp hwritten, List.append_nil, Except.ok.inj h]
    · rw [if_neg hwritten] at h
      cases h

/-- What a macro gives as its output is plain when it writes nothing else. -/
theorem isPlain_output {rules : BindingRules} (hplain : implementation.WritesPlain rules)
    (hbuffers : bound.buffers = (Buffers.create {}).2)
    (hruns : expander.Runs source bound progress implementation registry invoked)
    {requested fragments : List Fragment} (houtcome : invoked.outcome = .ok requested)
    (houtput : bound.output (invoked.buffers.fragments bound.buffer) requested = .ok fragments) :
    ∀ fragment ∈ fragments, fragment.IsPlain rules := by
  obtain ⟨typeArgs, -, hinvoked⟩ := hruns.invoked
  rw [hbuffers] at hinvoked
  rw [← hinvoked] at houtcome
  obtain ⟨hrequested, hwritten⟩ := hplain _ _ _ _ requested houtcome
  rw [hinvoked] at hwritten
  rw [output_eq houtput]
  exact List.forall_mem_append.mpr ⟨hrequested, hwritten bound.buffer⟩

end BoundCall

/-- Output without calls of macros: statements and runs of them, or code for the call itself. -/
inductive Placement.IsPlain (rules : BindingRules) : Placement → Prop where
  /-- Nothing. -/
  | empty : IsPlain rules .empty
  /-- Code for the call. -/
  | inPlace {expr : Expr} (h : (Stmt.ofExpr expr).IsPlain rules) : IsPlain rules (.inPlace expr)
  /-- A statement. -/
  | statement {stmt : Stmt} (h : stmt.IsPlain rules) : IsPlain rules (.statement stmt)
  /-- A run of statements. -/
  | splice {run : List Stmt} (h : ∀ stmt ∈ run, stmt.IsPlain rules) : IsPlain rules (.splice run)

/-- What going through a list gives comes from its members. -/
theorem exists_of_mem_mapM {α β : Type} {next : α → Option β} {values : List α} {results : List β}
    (h : values.mapM next = some results) {result : β} (hmem : result ∈ results) :
    ∃ value ∈ values, next value = some result := by
  induction values generalizing results with
  | nil =>
    cases h
    cases hmem
  | cons value rest ih =>
    rw [List.mapM_cons] at h
    obtain ⟨first, hfirst, h⟩ := Option.bind_eq_some_iff.mp h
    obtain ⟨others, hothers, h⟩ := Option.bind_eq_some_iff.mp h
    cases h
    rcases List.mem_cons.mp hmem with rfl | hmem
    · exact ⟨value, List.mem_cons_self, hfirst⟩
    · obtain ⟨other, hother, hnext⟩ := ih hothers hmem
      exact ⟨other, List.mem_cons_of_mem value hother, hnext⟩

/-- Plain fragments are plain output. -/
theorem Placement.isPlain_ofFragments {rules : BindingRules} {symbol : MethodSymbol} {site : Site}
    {fragments : List Fragment} (hplain : ∀ fragment ∈ fragments, fragment.IsPlain rules)
    {placement : Placement} (h : ofFragments symbol site fragments = .ok placement) :
    placement.IsPlain rules := by
  unfold ofFragments at h
  split at h
  · split at h
    · cases h
    · split at h
      · cases h
        exact .empty
      · cases h
  · cases h
    exact .inPlace (hplain _ List.mem_cons_self)
  · cases h
    exact .statement (hplain _ List.mem_cons_self)
  · exact (hplain _ List.mem_cons_self).elim
  · split at h
    · rename_i run hrun
      cases h
      -- each statement of the run is a fragment, as it is or evaluated
      refine .splice fun stmt hstmt => ?_
      obtain ⟨fragment, hfragment, hstmt⟩ := exists_of_mem_mapM hrun hstmt
      have hfragmentPlain := hplain fragment hfragment
      cases fragment with
      | expr e =>
        cases hstmt
        exact hfragmentPlain
      | stmt s =>
        cases hstmt
        exact hfragmentPlain
      | function decl => cases hstmt
    · cases h

end MacroExpansion
