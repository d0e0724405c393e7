import MacroExpansion.Proofs.MacroRoles
import MacroExpansion.Proofs.Unchanged

/-! # Replacing the function

A macro that replaces the function ends the walk of its body. The function that comes in its place has the
expansions made so far, and is walked again from its start. In a function without parameters nothing of
this is seen in the end: its statements are settled as if the calls that replace the function were not
there, every other macro is invoked as often as without them, and what they make of the header is
composed. -/

namespace MacroExpansion

variable {σ : Type}

/-! ## Statements that replace the function -/

/-- The call of a macro that replaces the function, if the statement is nothing but such a call. -/
def Stmt.replacingCall? (roles : MacroRoles) (rules : BindingRules) : Stmt → Option Call
  | .expr (.call call) _ => if roles.isReplacing rules call then some call else none
  | _ => none

/-- A statement whose calls are as the roles of their macros have it: it is a call of a macro that
replaces the function, or all calls in it are ones of ordinary macros that capture nothing. -/
inductive Stmt.PlaysRole (roles : MacroRoles) (rules : BindingRules) (registry : Registry σ)
    (stmt : Stmt) : Prop where
  /-- The function is replaced by its call. -/
  | replacing {call : Call} {symbol : MethodSymbol} (hcall : stmt.replacingCall? roles rules = some call)
      (hsymbol : rules.candidate? call = some symbol) (hknown : roles.Knows rules registry symbol)
  /-- It stays in the function. -/
  | ordinary (h : stmt.IsOrdinary rules (roles.IsOrdinary rules registry))

namespace MacroRoles

/-- The statements that do not replace the function. -/
def remaining (roles : MacroRoles) (rules : BindingRules) (statements : List Stmt) : List Stmt :=
  statements.filter fun stmt => (stmt.replacingCall? roles rules).isNone

/-- The calls of the statements that replace the function. -/
def replacingCalls (roles : MacroRoles) (rules : BindingRules) (statements : List Stmt) : List Call :=
  statements.filterMap (Stmt.replacingCall? roles rules)

/-- Calls in sequence make one header of another. -/
inductive Compose (roles : MacroRoles) : List Call → FunctionHeader → FunctionHeader → Prop where
  /-- No call changes a header. -/
  | nil (header : FunctionHeader) : Compose roles [] header header
  /-- The first call, then the others. -/
  | cons {call : Call} {calls : List Call} {first middle last : FunctionHeader}
      (h : roles.changes call first middle) (hrest : Compose roles calls middle last) :
      Compose roles (call :: calls) first last

end MacroRoles

section

variable {roles : MacroRoles} {rules : BindingRules} {registry : Registry σ} {stmt : Stmt}

/-- A statement that is no such call stays. -/
theorem MacroRoles.remaining_cons_of_none (h : stmt.replacingCall? roles rules = none)
    (rest : List Stmt) :
    roles.remaining rules (stmt :: rest) = stmt :: roles.remaining rules rest :=
  List.filter_cons_of_pos (Option.isNone_iff_eq_none.mpr h)

/-- A statement that is such a call does not stay. -/
theorem MacroRoles.remaining_cons_of_some {call : Call}
    (h : stmt.replacingCall? roles rules = some call) (rest : List Stmt) :
    roles.remaining rules (stmt :: rest) = roles.remaining rules rest := by
  refine List.filter_cons_of_neg ?_
  rw [h]
  exact Bool.false_ne_true

/-- A statement that is no such call adds none. -/
theorem MacroRoles.replacingCalls_cons_of_none (h : stmt.replacingCall? roles rules = none)
    (rest : List Stmt) :
    roles.replacingCalls rules (stmt :: rest) = roles.replacingCalls rules rest :=
  List.filterMap_cons_none h

/-- A statement that is such a call adds its call. -/
theorem MacroRoles.replacingCalls_cons_of_some {call : Call}
    (h : stmt.replacingCall? roles rules = some call) (rest : List Stmt) :
    roles.replacingCalls rules (stmt :: rest) = call :: roles.replacingCalls rules rest :=
  List.filterMap_cons_some h

/-- Such a statement is a call and nothing else. -/
theorem Stmt.eq_of_replacingCall? {call : Call} (h : stmt.replacingCall? roles rules = some call) :
    roles.isReplacing rules call = true ∧ ∃ span, stmt = .expr (.call call) span := by
  unfold replacingCall? at h
  split at h
  · split at h
    · cases h
      exact ⟨‹_›, _, rfl⟩
    · cases h
  · cases h

/-- The calls of ordinary macros replace no function. -/
theorem Stmt.IsOrdinary.replacingCall?_eq (h : stmt.IsOrdinary rules (roles.IsOrdinary rules registry)) :
    stmt.replacingCall? roles rules = none := by
  refine Option.eq_none_iff_forall_ne_some.mpr fun call hcall => ?_
  obtain ⟨hreplacing, span, rfl⟩ := eq_of_replacingCall? hcall
  obtain ⟨symbol, hsymbol, hreplaces⟩ := MacroRoles.exists_of_isReplacing hreplacing
  obtain ⟨⟨hordinary, -⟩, -⟩ := h _ (.self _) call List.mem_cons_self symbol hsymbol
  rw [hordinary] at hreplaces
  cases hreplaces

end

/-! ## Functions that are settled in part -/

/-- Where the statements of a function are walked. -/
def FunctionDecl.setting (decl : FunctionDecl) : Setting :=
  ⟨.ofFunction decl, 0, decl.body.span⟩

namespace FileWalk

/-- Goes on once the body of a function is walked: with the function as it reads then, or with the one
that replaces it. -/
def resume (walk : FileWalk σ) (nesting allowed : Nat) (decl : FunctionDecl) :
    Flow Split → ExpandM σ FunctionDecl
  | .proceed last => return decl.withStatements last.statements
  | .replaceFunction replacement =>
      match allowed with
      | allowed + 1 => walk.expandFunction (walk.walk nesting) allowed replacement
      | 0 =>
          ExpandM.fail
            (walk.fault (.replacementLimit decl.name walk.expander.config.maxDepth) decl.span)

/-- Expands a function whose statements are settled in part. -/
def expandFrom (walk : FileWalk σ) (nesting allowed : Nat) (decl : FunctionDecl) (split : Split) :
    ExpandM σ FunctionDecl :=
  walk.splitWalk nesting decl.setting 0 split >>= walk.resume nesting allowed decl

variable {expander : Expander} {file : FileOrigin} {nesting allowed : Nat} {decl : FunctionDecl}

/-- A function is expanded from its first statement on. -/
theorem expandFunction_eq (expander : Expander) (file : FileOrigin) (nesting allowed : Nat)
    (decl : FunctionDecl) :
    expandFunction (σ := σ) { expander, file } (walk { expander, file } nesting) allowed decl =
      expandFrom { expander, file } nesting allowed decl ⟨[], decl.body.statements⟩ := by
  have hblock : walkBlock (walk (σ := σ) { expander, file } nesting) (.ofFunction decl) decl.body =
      splitWalk { expander, file } nesting decl.setting 0 ⟨[], decl.body.statements⟩ >>=
        (·.followedBy fun last =>
          pure (.proceed { decl.body with statements := last.statements })) := by
    unfold walkBlock
    rw [expander.walk_whole]
    unfold SplitWalk.onSequence
    rw [Nat.sub_self, List.take_zero, List.drop_zero, Flow.bind_followedBy_assoc]
    rfl
  unfold expandFunction expandFrom
  rw [hblock, bind_assoc]
  congr 1
  funext flow
  cases flow with
  | proceed last => rfl
  | replaceFunction replacement => cases allowed <;> rfl

/-- First some of the statements to come are settled, then the others. -/
theorem expandFrom_in_parts (file : FileWalk σ) (nesting allowed : Nat) (decl : FunctionDecl)
    (tail : Nat) (split : Split) :
    file.expandFrom (nesting + 1) allowed decl split =
      file.splitWalk (nesting + 1) decl.setting tail split >>= fun flow =>
        flow.followedBy (file.splitWalk (nesting + 1) decl.setting 0) >>=
          file.resume (nesting + 1) allowed decl := by
  unfold expandFrom
  rw [splitWalk_in_parts file nesting decl.setting (Nat.zero_le tail) split, bind_assoc]

end FileWalk

/-! ## Settled statements -/

/-- In plain code no call is found. -/
theorem FileWalk.next_of_isPlain {expander : Expander} {file : FileOrigin} {stmt : Stmt}
    (h : stmt.IsPlain expander.rules) (site : Call → Site) {inv : Progress σ → Prop}
    {stops : Stop → Prop} {found : BoundCall → Prop} :
    (FileWalk.next { expander, file } stmt site).Keeps inv stops fun next =>
      ∀ bound, next = some bound → found bound := by
  dsimp only
  rw [Expander.firstBound?_of_no_candidate (h stmt (.self stmt))]
  refine .pure ?_
  rintro _ ⟨⟩

/-- An expansion spares plain code, if the host lets it go on. -/
theorem Expander.spares_isPlain (expander : Expander) (file : FileOrigin) (start : Progress σ) :
    FileWalk.Spares { expander, file } start (fun _ => True) fun _ _ block =>
      ∀ stmt ∈ block.statements, stmt.IsPlain expander.rules where
  exhausted _ := True.intro
  poll _ := .checkCancelled True.intro
  next {_ _ done _ stmt} h :=
    FileWalk.next_of_isPlain (h stmt (List.mem_append_right done List.mem_cons_self)) _
  nested {_ _ done _ stmt _ _} h hcontent _ hinner :=
    (h stmt (List.mem_append_right done List.mem_cons_self)).of_content hcontent hinner

/-- A statement with enough others behind it belongs to the first part. -/
theorem mem_of_append_eq_append_cons {α : Type} {first second before after : List α} {value : α}
    (h : first ++ second = before ++ value :: after) (hlength : second.length ≤ after.length) :
    value ∈ first := by
  rcases List.append_eq_append_iff.mp h with ⟨middle, -, hsecond⟩ | ⟨middle, hfirst, hafter⟩
  · rw [hsecond, List.length_append, List.length_cons] at hlength
    omega
  · cases middle with
    | nil =>
      rw [← show value :: after = second from hafter, List.length_cons] at hlength
      omega
    | cons other middle =>
      obtain ⟨rfl, -⟩ := List.cons.inj hafter
      rw [hfirst]
      exact List.mem_append_right before List.mem_cons_self

namespace FileWalk

variable {expander : Expander} {file : FileOrigin} {nesting allowed : Nat} {decl : FunctionDecl}

/-- Statements that are plain code already are walked again without a change. -/
theorem splitWalk_of_isPlain {done : List Stmt} (hdone : ∀ stmt ∈ done, stmt.IsPlain expander.rules)
    (rest : List Stmt) (setting : Setting) (start : Progress σ) :
    (splitWalk { expander, file } (nesting + 1) setting rest.length ⟨[], done ++ rest⟩).Keeps
      (· = start) (fun _ => True) (Flow.Proceeds (· = ⟨done, rest⟩)) := by
  have hspares := expander.spares_isPlain file start
  have hlength : (done ++ rest).length - rest.length = done.length := by
    rw [List.length_append, Nat.add_sub_cancel]
  unfold splitWalk
  refine (walkSplit_unchanged hspares.poll rest.length _ ⟨[], done ++ rest⟩
    fun before stmt after hstatements hafter => ?_).mono fun flow hflow => ?_
  · have hstmt := hdone stmt (mem_of_append_eq_append_cons hstatements hafter)
    exact ⟨next_of_isPlain hstmt _, fun hcontent =>
      returns_splitWalk hspares _ fun inner hinner => hstmt.of_content hcontent hinner⟩
  · rwa [hlength, Nat.min_self, Split.advance, List.take_left, List.drop_left, List.nil_append]
      at hflow

/-! ## The call that replaces the function -/

variable {roles : MacroRoles} {start : Registry σ} {call : Call} {symbol : MethodSymbol} {span : Span}
  {done rest : List Stmt} {other : Progress (Recording σ)}

/-- A call of a macro that replaces the function is the next one to expand. -/
theorem next_replacing {site : Call → Site} (hsymbol : expander.rules.candidate? call = some symbol)
    (hnoQuotes : ∀ decl, (site call).function = some decl → decl.params = [])
    {inv : Progress (Recording σ) → Prop} :
    (ExpandM.require (expander.firstBound? file.source site
      (Stmt.expr (.call call) span).ownCalls)).Keeps inv (fun _ => True) fun next =>
        ∃ bound, next = some bound ∧
          expander.rules.bind symbol (site call) file.source = .ok (some bound) := by
  rcases expander.firstBound?_cons file.source site call call.inner with
    ⟨hnone, -⟩ | ⟨found, hfound, ⟨error, -, hfirst⟩ | ⟨bound, hbind, hfirst⟩⟩
  · -- without parameters around it the call cannot forward a quote
    have hforwards := BindingRules.forwards_of_bind_none (hnone symbol hsymbol)
    rw [BindingRules.forwards_eq_false hnoQuotes] at hforwards
    cases hforwards
  · rw [show (Stmt.expr (.call call) span).ownCalls = call :: call.inner from rfl, hfirst]
    exact .throw True.intro
  · rw [show (Stmt.expr (.call call) span).ownCalls = call :: call.inner from rfl, hfirst]
    rw [hsymbol] at hfound
    cases hfound
    exact .pure ⟨bound, rfl, hbind⟩

/-- The statement of such a call is settled by replacing the function. What replaces it has the
statements before the call as they are settled, and those behind it as they are. -/
theorem settleSplit_replacing {walkRun : SplitWalk (Recording σ)}
    {walkNested : SequenceWalk (Recording σ)}
    (hsymbol : expander.rules.candidate? call = some symbol)
    (hreplaces : roles.replaces symbol.id = true) (hknown : roles.Knows expander.rules start symbol)
    (hparams : decl.params = []) (hgoesOn : other.session.cancelled = false) (allowed : Nat) :
    (settleSplit { expander, file } walkRun walkNested decl.setting allowed
      ⟨done, .expr (.call call) span :: rest⟩).Keeps
        (·.Beside roles expander.rules start other) (fun _ => True) fun flow =>
          ∃ header, roles.changes call decl.header header ∧
            flow = .replaceFunction ((decl.withHeader header).withStatements (done ++ rest)) := by
  have hshows := Cursor.Shows.of_split decl.setting ⟨done, .expr (.call call) span :: rest⟩
  have hfunction : (decl.setting.cursor ⟨done, .expr (.call call) span :: rest⟩).function? =
      some (decl.withStatements (done ++ .expr (.call call) span :: rest)) := hshows.function?
  unfold settleSplit
  simp only [Setting.stmt_cursor]
  refine (next_replacing hsymbol fun around haround => ?_).bind ?_
  · obtain rfl := Option.some.inj (hfunction.symm.trans haround)
    exact hparams
  rintro _ ⟨bound, rfl, hbind⟩
  cases allowed with
  | zero => exact .throw True.intro
  | succ allowed =>
    dsimp only
    cases decide (decl.setting.depth ≤ expander.config.maxDepth) with
    | false => exact .throw True.intro
    | true =>
      refine .bind (Expander.keeps_expandCall (fun _ _ _ _ => True.intro)
        (fun progress ended placement hbeside houtcome =>
          (houtcome.replaces hbind hsymbol hreplaces hknown hfunction hbeside hgoesOn).symm) _) ?_
      rintro _ ⟨header, hchanges, rfl⟩
      -- the macro writes the function around its call, without the statement at its index
      have hindex : ((decl.setting.cursor ⟨done, .expr (.call call) span :: rest⟩).site file.path
          call).index = done.length := hshows.blockIndex
      have herased : (done ++ .expr (.call call) span :: rest).eraseIdx done.length =
          done ++ rest := by
        rw [List.eraseIdx_append_of_length_le (Nat.le_refl _), Nat.sub_self, List.eraseIdx_cons_zero]
      refine .pure ⟨header, hchanges, congrArg Flow.replaceFunction ?_⟩
      rw [hindex]
      exact congrArg (decl.withHeader header).withStatements herased

/-- A walk that comes to a call of such a macro ends there, if the host lets it go on until then. -/
theorem splitWalk_replacing (hsymbol : expander.rules.candidate? call = some symbol)
    (hreplaces : roles.replaces symbol.id = true) (hknown : roles.Knows expander.rules start symbol)
    (hparams : decl.params = []) :
    (splitWalk { expander, file } (nesting + 1) decl.setting 0
      ⟨done, .expr (.call call) span :: rest⟩).Keeps
        (·.Beside roles expander.rules start other) (fun _ => True) fun flow =>
          ∃ header, roles.changes call decl.header header ∧
            flow = .replaceFunction ((decl.withHeader header).withStatements (done ++ rest)) := by
  unfold splitWalk
  rw [show (Split.mk done (.expr (.call call) span :: rest)).todo.length - 0 = rest.length + 1 from rfl,
    walkSplit_of_lt (Nat.zero_lt_succ _)]
  cases hgoesOn : other.session.cancelled with
  | true =>
    -- the host has stopped this expansion as well
    refine .bind (P := fun _ => False) (fun progress hbeside => ?_) fun _ hfalse => hfalse.elim
    rw [ExpandM.runFrom_checkCancelled, if_pos (hbeside.cancelled hgoesOn)]
    exact True.intro
  | false =>
    refine .bind (.checkCancelled True.intro) fun _ _ => ?_
    refine (settleSplit_replacing hsymbol hreplaces hknown hparams hgoesOn _).bind ?_
    rintro _ ⟨header, hchanges, rfl⟩
    exact .pure ⟨header, hchanges, rfl⟩

end FileWalk

/-! ## With and without the calls -/

/-- What comes of a function that is replaced by some calls: it has a header that the calls make of its
own, and the statements that a walk without these calls comes to. -/
def FunctionDecl.BecomesBy (roles : MacroRoles) (calls : List Call) (decl result : FunctionDecl)
    (flow : Flow Split) : Prop :=
  ∃ header settled, roles.Compose calls decl.header header ∧
    result = (decl.withHeader header).withStatements settled ∧ flow = .proceed ⟨settled, []⟩

/-- Nothing is left to expand in plain code, and in a function without parameters only there. -/
theorem Stmt.isExpanded_iff_isPlain {rules : BindingRules} {decl : FunctionDecl}
    (hparams : decl.params = []) {stmt : Stmt} :
    stmt.IsExpanded rules (some decl) ↔ stmt.IsPlain rules := by
  constructor
  · intro h nested hnested call hcall
    refine Option.eq_none_iff_forall_ne_some.mpr fun symbol hsymbol => ?_
    obtain ⟨around, haround, index, name, -, -, hambient⟩ :=
      h nested hnested call hcall symbol hsymbol
    rw [BindingRules.isAmbientQuote, ← Option.some.inj haround, hparams] at hambient
    cases hambient
  · intro h nested hnested call hcall symbol hsymbol
    rw [h nested hnested call hcall] at hsymbol
    cases hsymbol

namespace FileWalk

variable {expander : Expander} {file : FileOrigin} {nesting allowed : Nat} {decl : FunctionDecl}
  {roles : MacroRoles} {start : Registry σ} {done rest : List Stmt} {setting : Setting}

/-- A setting of statements outside of functions with parameters. -/
theorem alike_setting (hparams : decl.params = []) (hdepth : setting.depth = 0)
    (hscope : setting.scope.HasNoQuotes) : decl.setting.Alike setting where
  depth := hdepth
  noQuotes := by
    rintro _ ⟨⟩
    exact hparams
  noQuotes' := hscope

/-- An ordinary statement is settled alike in the function and elsewhere, and becomes plain code. -/
theorem splitWalk_ordinary (hmodel : expander.rules.model.ByName) (hdepth : setting.depth = 0)
    (hscope : setting.scope.HasNoQuotes) (hparams : decl.params = []) {stmt : Stmt}
    (hstmt : stmt.IsOrdinary expander.rules (roles.IsOrdinary expander.rules start))
    (hdone : ∀ stmt ∈ done, stmt.IsPlain expander.rules) (rest rest' : List Stmt) :
    ExpandM.Simulates (Progress.Beside roles expander.rules start) True
      (fun flow flow' => ∃ settled, (∀ stmt ∈ done ++ settled, stmt.IsPlain expander.rules) ∧
        flow = .proceed ⟨done ++ settled, rest⟩ ∧ flow' = .proceed ⟨done ++ settled, rest'⟩)
      (splitWalk { expander, file } (nesting + 1) decl.setting rest.length ⟨done, stmt :: rest⟩)
      (splitWalk { expander, file } (nesting + 1) setting rest'.length ⟨done, stmt :: rest'⟩) := by
  have hsettled := settlesAlike_splitWalk hmodel (expander.expandsAlike_beside file roles start)
    (nesting + 1) decl.setting setting ⟨done, rest⟩ ⟨done, rest'⟩ [stmt]
    (alike_setting hparams hdepth hscope) (List.forall_mem_singleton.mpr hstmt)
  have hcompleted := splitWalk_completes (σ := Recording σ) expander file hmodel (nesting + 1)
    decl.setting rest.length ⟨done, stmt :: rest⟩ fun stmt hmem =>
      (Stmt.isExpanded_iff_isPlain hparams).mpr (hdone stmt hmem)
  refine (hsettled.and_ensures hcompleted).mono id ?_
  rintro _ _ ⟨⟨_, _, rfl, rfl, settled, -, rfl, rfl⟩, hexpanded⟩
  exact ⟨settled, fun stmt hmem =>
    (Stmt.isExpanded_iff_isPlain hparams).mp (hexpanded _ rfl stmt hmem), rfl, rfl⟩

/-- A function that is replaced on the way is walked as if the calls that replace it were not there. -/
theorem expandFrom_simulates (hmodel : expander.rules.model.ByName) (hdepth : setting.depth = 0)
    (hscope : setting.scope.HasNoQuotes) (nesting allowed : Nat) (hparams : decl.params = [])
    {todo : List Stmt} (hdone : ∀ stmt ∈ done, stmt.IsPlain expander.rules)
    (htodo : ∀ stmt ∈ todo, stmt.PlaysRole roles expander.rules start) :
    ExpandM.Simulates (Progress.Beside roles expander.rules start) True
      (decl.BecomesBy roles (roles.replacingCalls expander.rules todo))
      (expandFrom { expander, file } nesting allowed decl ⟨done, todo⟩)
      (splitWalk { expander, file } nesting setting 0
        ⟨done, roles.remaining expander.rules todo⟩) := by
  obtain _ | nesting := nesting
  · exact fun _ _ _ => .inl True.intro
  induction todo generalizing done allowed decl with
  | nil =>
    change ExpandM.Simulates _ _ _ (pure (decl.withStatements (done ++ [])))
      (pure (Flow.proceed (Split.mk done [])))
    rw [List.append_nil]
    exact .pure ⟨decl.header, done, .nil _, rfl, rfl⟩
  | cons stmt rest ih =>
    obtain ⟨hstmt, hrest⟩ := List.forall_mem_cons.mp htodo
    cases hstmt with
    | ordinary hordinary =>
      have hnone := hordinary.replacingCall?_eq
      rw [MacroRoles.replacingCalls_cons_of_none hnone, MacroRoles.remaining_cons_of_none hnone,
        expandFrom_in_parts _ nesting allowed decl rest.length,
        splitWalk_in_parts _ nesting setting
          (Nat.zero_le (roles.remaining expander.rules rest).length)]
      refine (splitWalk_ordinary hmodel hdepth hscope hparams hordinary hdone rest _).bind ?_
      rintro _ _ ⟨settled, hsettled, rfl, rfl⟩
      exact ih allowed hparams hsettled hrest
    | @replacing call symbol hcall hsymbol hknown =>
      obtain ⟨hreplacing, span, rfl⟩ := Stmt.eq_of_replacingCall? hcall
      have hreplaces : roles.replaces symbol.id = true :=
        (MacroRoles.isReplacing_eq hsymbol).symm.trans hreplacing
      rw [MacroRoles.replacingCalls_cons_of_some hcall, MacroRoles.remaining_cons_of_some hcall]
      refine .of_keeps (fun other => splitWalk_replacing hsymbol hreplaces hknown hparams) ?_
      rintro _ ⟨header, hchanges, rfl⟩
      cases allowed with
      | zero => exact fun _ _ _ => .inl True.intro
      | succ allowed =>
        -- what was settled before the call is walked once more, without a change
        let replaced := (decl.withHeader header).withStatements (done ++ rest)
        have hresume : resume (σ := Recording σ) { expander, file } (nesting + 1) (allowed + 1) decl
            (.replaceFunction replaced) =
              expandFrom { expander, file } (nesting + 1) allowed replaced ⟨[], done ++ rest⟩ :=
          expandFunction_eq expander file (nesting + 1) allowed replaced
        rw [hresume, expandFrom_in_parts _ nesting allowed replaced rest.length]
        refine .of_keeps (fun other =>
          .of_unchanged (splitWalk_of_isPlain hdone rest replaced.setting)) ?_
        rintro _ ⟨_, rfl, rfl⟩
        have hreplaced : replaced.params = [] := hparams
        refine (ih allowed hreplaced hdone hrest).mono id ?_
        rintro result flow ⟨last, settled, hcompose, rfl, rfl⟩
        exact ⟨last, settled, .cons hchanges hcompose, rfl, rfl⟩

end FileWalk

/-- The function without the statements that replace it. -/
def FunctionDecl.withoutReplacing (roles : MacroRoles) (rules : BindingRules) (decl : FunctionDecl) :
    FunctionDecl :=
  decl.withStatements (roles.remaining rules decl.body.statements)

/-- What comes of a function, with a record of what was invoked, next to what comes of the function
without the statements that replace it. -/
structure FunctionDecl.KeepsExpansions (roles : MacroRoles) (rules : BindingRules)
    (decl result result' : FunctionDecl) (invocations invocations' : List (String × Invocation)) :
    Prop where
  /-- The header is what the calls make of that of the function, one after the other. -/
  header : roles.Compose (roles.replacingCalls rules decl.body.statements) decl.header result.header
  /-- Nothing but the header differs. -/
  result : result = result'.withHeader result.header
  /-- The other macros are invoked for the same calls, and as often. -/
  calls : roles.ordinaryCalls rules invocations = roles.ordinaryCalls rules invocations'

namespace Expander

variable {expander : Expander} {roles : MacroRoles} {nesting : Nat} {decl : FunctionDecl}

/-- What comes of a function that is replaced on the way, in expansions beside each other. -/
theorem keepsExpansions_of_beside (hmodel : expander.rules.model.ByName) {file : FileOrigin}
    {allowed : Nat} {start : Registry σ} (hparams : decl.params = [])
    (hbody : ∀ stmt ∈ decl.body.statements, stmt.PlaysRole roles expander.rules start)
    {progress other ended : Progress (Recording σ)} {result : FunctionDecl}
    (hbeside : progress.Beside roles expander.rules start other)
    (h : (FileWalk.expandFunction { expander, file } (FileWalk.walk { expander, file } nesting) allowed
      decl).runFrom progress = (.ok result, ended)) :
    ∃ result' ended', (FileWalk.expandFunction { expander, file }
        (FileWalk.walk { expander, file } nesting) allowed
        (decl.withoutReplacing roles expander.rules)).runFrom other = (.ok result', ended') ∧
      decl.KeepsExpansions roles expander.rules result result' ended.invocations
        ended'.invocations := by
  have hscope : (decl.withoutReplacing roles expander.rules).setting.scope.HasNoQuotes := by
    rintro _ ⟨⟩
    exact hparams
  have hsimulated : ExpandM.Simulates _ _ _
      (FileWalk.expandFrom { expander, file } nesting allowed decl ⟨[], decl.body.statements⟩) _ :=
    FileWalk.expandFrom_simulates hmodel rfl hscope nesting allowed hparams (List.forall_mem_nil _)
      hbody
  have hcome := hsimulated progress other hbeside
  rw [FileWalk.expandFunction_eq] at h ⊢
  rw [h] at hcome
  obtain ⟨_, ended', hrun, ⟨header, settled, hcompose, rfl, rfl⟩, hended⟩ := hcome
  refine ⟨decl.withStatements settled, ended', ?_, hcompose, rfl, hended.calls.symm⟩
  unfold FileWalk.expandFrom
  rw [show (decl.withoutReplacing roles expander.rules).body.statements =
    roles.remaining expander.rules decl.body.statements from rfl, ExpandM.runFrom_bind_of_ok hrun]
  change (Except.ok (decl.withStatements (settled ++ [])), ended') = _
  rw [List.append_nil]

/-- A file of one function is expanded when the function is. -/
theorem itemsProgram_function (expander : Expander) (nesting : Nat) (path : String)
    (source : Option String) (decl : FunctionDecl) :
    itemsProgram (σ := σ) (·.walk nesting) expander ⟨path, source, [.function decl]⟩ =
      FileWalk.expandFunction { expander, file := ⟨path, source⟩ }
        (FileWalk.walk { expander, file := ⟨path, source⟩ } nesting) expander.config.maxDepth decl >>=
          fun decl => pure [.function decl] := by
  unfold itemsProgram
  rw [List.mapM_cons, List.mapM_nil, FileWalk.expandItem]
  simp only [bind_assoc, pure_bind]

end Expander

/-- Replacing a function neither repeats nor loses expansions. Take a function without parameters, some
of whose statements are calls of macros that write the function around them under another header and
without the statement of the call, while the calls in all others are ones of macros that go by their call
alone, capture nothing and write plain code. If it is expanded, so is the function without these
statements; both come to the same function, except that the calls made a header of that of the function,
one after the other, and all other macros are invoked for the same calls in the same order. So it is for
a function wherever it stands, and for a file of one function. -/
theorem function_replacement_keeps_expansions (expander : Expander)
    (hmodel : expander.rules.model.ByName) (roles : MacroRoles) (nesting : Nat) (decl : FunctionDecl)
    (hparams : decl.params = []) :
    (∀ file allowed (progress : Progress σ) result ended,
      (∀ stmt ∈ decl.body.statements, stmt.PlaysRole roles expander.rules progress.registry) →
      (FileWalk.expandFunction { expander, file } (FileWalk.walk { expander, file } nesting) allowed
        decl).runFrom progress.recorded = (.ok result, ended) →
      ∃ result' ended', (FileWalk.expandFunction { expander, file }
          (FileWalk.walk { expander, file } nesting) allowed
          (decl.withoutReplacing roles expander.rules)).runFrom progress.recorded =
            (.ok result', ended') ∧
        decl.KeepsExpansions roles expander.rules result result' ended.invocations
          ended'.invocations) ∧
    ∀ path source (workspace : Workspace σ) expansion,
      let file (decl : FunctionDecl) : SyntaxTree := ⟨path, source, [.function decl]⟩
      let invocations (decl : FunctionDecl) : List (String × Invocation) :=
        (expander.expandWithin nesting (file decl) workspace.recorded).2.session.host.invocations
      let without := decl.withoutReplacing roles expander.rules
      (∀ stmt ∈ decl.body.statements, stmt.PlaysRole roles expander.rules workspace.registry) →
      (expander.expandWithin nesting (file decl) workspace).1 = .ok expansion →
      ∃ result result' expansion', expansion.tree = file result ∧
        (expander.expandWithin nesting (file without) workspace).1 = .ok expansion' ∧
        expansion'.tree = file result' ∧
        decl.KeepsExpansions roles expander.rules result result' (invocations decl)
          (invocations without) := by
  constructor
  · intro file allowed progress result ended hbody hrun
    exact Expander.keepsExpansions_of_beside hmodel hparams hbody
      (.refl roles expander.rules progress []) hrun
  · intro path source workspace expansion file invocations without hbody h
    obtain ⟨later, -, hrecorded⟩ := expander.expandWithin_recorded nesting (file decl) workspace []
    obtain ⟨later', -, hrecorded'⟩ :=
      expander.expandWithin_recorded nesting (file without) workspace []
    rw [h] at hrecorded
    obtain ⟨_, ended, hrun, rfl, hleft⟩ := Expander.expandBy_ok_iff.mp hrecorded
    rw [Expander.itemsProgram_function] at hrun
    obtain ⟨result, _, hresult, ⟨⟩⟩ := ExpandM.bind_ok hrun
    obtain ⟨result', ended', hresult', hkeeps⟩ := Expander.keepsExpansions_of_beside hmodel hparams
      hbody (.refl roles expander.rules { toWorkspace := workspace } []) hresult
    have hrun' : (Expander.itemsProgram (·.walk nesting) expander (file without)).runFrom
        { toWorkspace := workspace.recorded } = (.ok [.function result'], ended') := by
      rw [Expander.itemsProgram_function]
      exact ExpandM.runFrom_bind_of_ok hresult'
    have hwithout : expander.expandWithin nesting (file without) workspace.recorded = _ :=
      Expander.expandBy_ok_iff.mpr ⟨_, _, hrun', rfl, rfl⟩
    refine ⟨result, result', _, rfl, (congrArg Prod.fst (hrecorded'.symm.trans hwithout)), rfl, ?_⟩
    have hinvocations : invocations decl = ended.invocations :=
      congrArg (·.session.host.invocations) ((congrArg Prod.snd hrecorded).trans hleft)
    have hinvocations' : invocations without = ended'.invocations :=
      congrArg (·.2.session.host.invocations) hwithout
    rw [hinvocations, hinvocations']
    exact hkeeps

/-! ### A function that is renamed between other calls -/

/-- A macro that writes one fragment through its quote. -/
def writingOne (name : String) (write : Quote → Except String Fragment) : Implementation Unit where
  name
  body invocation := do
    let quote ← BodyM.require invocation.quote
    let fragment ← BodyM.require (write quote)
    BodyM.emit quote fragment

/-- A macro that stands for a statement. -/
def noteMacro : MethodSymbol :=
  { id := ⟨0⟩, declaringType := "Host", name := "Note", params := [.quote "quote"] }

/-- A macro that renames the function. -/
def renameMacro : MethodSymbol :=
  { id := ⟨1⟩, declaringType := "Host", name := "Rename", params := [.quote "quote"] }

/-- The statement that the first macro stands for. -/
def noted : Stmt :=
  .evaluate (.ofName "noted")

/-- The header with another name. -/
def FunctionHeader.renamed (header : FunctionHeader) : FunctionHeader :=
  { header with name := header.name ++ "Renamed" }

/-- The function around a quote with another name, without the statement of the call. -/
def renamedFunction (quote : Quote) : Except String Fragment :=
  match quote.site.function with
  | some decl =>
      .ok (.function ((decl.withHeader decl.header.renamed).withStatements
        (decl.body.statements.eraseIdx quote.site.index)))
  | none => .error "not in a function"

/-- The implementation of the first macro. -/
def noteImplementation : Implementation Unit :=
  writingOne noteMacro.qualifiedName fun _ => .ok (.stmt noted)

/-- The implementation of the second macro. -/
def renameImplementation : Implementation Unit :=
  writingOne renameMacro.qualifiedName renamedFunction

/-- Expands calls of these macros. -/
def renameExpander : Expander where
  model := (SymbolTable.declaring [noteMacro, renameMacro]).model

/-- A workspace with these macros. -/
def renameWorkspace : Workspace Unit where
  session := { host := () }
  registry := (({} : Registry Unit).register (.of noteMacro) noteImplementation).register
    (.of renameMacro) renameImplementation

/-- The second macro replaces the function. -/
def renameRoles : MacroRoles where
  replaces id := id == renameMacro.id
  changes _ first last := last = first.renamed

/-- A function in which both are called. -/
def renameFunction : FunctionDecl :=
  .plain "Main" [] .void
    [.evaluate (.callOf "Note" []), .evaluate (.callOf "Rename" []), .evaluate (.callOf "Note" []),
      .evaluate (.ofName "work")]

/-- The first quote is one of the arguments. -/
theorem Invocation.mem_args_of_quote {invocation : Invocation} {quote : Quote}
    (h : invocation.quote = .ok quote) : .quote quote ∈ invocation.args := by
  unfold Invocation.quote at h
  cases hfirst : invocation.quotes.head? with
  | none =>
    rw [hfirst] at h
    cases h
  | some first =>
    rw [hfirst] at h
    cases h
    obtain ⟨arg, harg, hquote⟩ := List.mem_filterMap.mp (List.mem_of_head? hfirst)
    cases arg with
    | quote => exact Option.some.inj hquote ▸ harg
    | _ => cases hquote

/-- Such a macro writes its fragment, or comes to no result. -/
theorem invoke_writingOne {name : String} {write : Quote → Except String Fragment}
    {invocation : Invocation} {config : ExpansionConfig} {source : Option SourceText}
    {buffers : Buffers} {session : Session Unit} {requested : List Fragment}
    (h : (invoke (writingOne name write) invocation config source buffers session).outcome =
      .ok requested) :
    requested = [] ∧ ∃ quote fragment, .quote quote ∈ invocation.args ∧ write quote = .ok fragment ∧
      (invoke (writingOne name write) invocation config source buffers session).buffers =
        quote.emit fragment buffers := by
  have hidle := active_eq_none_of_invoke h
  unfold invoke at h ⊢
  simp only [CallBinding.enter_of_inactive hidle, writingOne] at h ⊢
  cases hquote : invocation.quote with
  | error text =>
    rw [hquote] at h
    cases h
  | ok quote =>
    rw [hquote] at h
    cases hwrite : write quote with
    | error text =>
      simp only [BodyM.require, pure_bind, hwrite] at h
      cases h
    | ok fragment =>
      simp only [BodyM.require, pure_bind, hwrite] at h ⊢
      cases h
      exact ⟨rfl, quote, fragment, Invocation.mem_args_of_quote hquote, hwrite, rfl⟩

/-- The statement that is noted is plain, whatever macros there are. -/
theorem isPlain_noted (rules : BindingRules) : noted.IsPlain rules := by
  intro stmt hstmt call hcall
  cases hstmt with
  | self => cases hcall
  | lambda hlambda => cases hlambda

/-- What a buffer holds after a write is what was written, or was there before. -/
theorem Buffers.mem_fragments_push {buffers : Buffers} {id buffer : BufferId}
    {fragment written : Fragment} (h : fragment ∈ (buffers.push id written).fragments buffer) :
    fragment = written ∨ fragment ∈ buffers.fragments buffer := by
  by_cases hid : id = buffer
  · subst hid
    by_cases hindex : id.index < buffers.contents.length
    · rw [fragments_push_self buffers id written hindex] at h
      exact (List.mem_append.mp h).symm.imp_left List.mem_singleton.mp
    · -- there is no such buffer to write to
      rw [push, List.modify_eq_self (Nat.le_of_not_lt hindex)] at h
      exact .inr h
  · rw [fragments_push_of_ne buffers written hid] at h
    exact .inr h

/-- The first macro is an ordinary one. -/
theorem serves_noteImplementation :
    renameRoles.Serves renameExpander.rules noteMacro.id noteImplementation := by
  refine ⟨fun invocation config source session requested houtcome => ?_,
    Implementation.goesByCall_of_writesOnly (fun invocation => ?_)
      fun invocation site _ hcall => ?_⟩
  · obtain ⟨rfl, quote, fragment, -, ⟨⟩, hbuffers⟩ := invoke_writingOne houtcome
    refine ⟨List.forall_mem_nil _, fun buffer fragment hfragment => ?_⟩
    change fragment ∈ (invoke (writingOne _ _) _ _ _ _ _).buffers.fragments buffer at hfragment
    rw [hbuffers] at hfragment
    rcases Buffers.mem_fragments_push hfragment with rfl | hfragment
    · exact isPlain_noted renameExpander.rules
    · have hempty : ({} : Buffers).fragments buffer = [] := rfl
      rw [Buffers.fragments_create, hempty] at hfragment
      cases hfragment
  · exact (BodyM.WritesOnly.require _).bind fun quote =>
      (BodyM.WritesOnly.require _).bind fun fragment => .emit _ _
  · unfold noteImplementation writingOne
    dsimp only
    rw [Invocation.quote_seenAt hcall]
    cases invocation.quote <;> rfl

/-- The second macro replaces the function. -/
theorem serves_renameImplementation :
    renameRoles.Serves renameExpander.rules renameMacro.id renameImplementation := by
  intro invocation function hfunction hwrites config source session requested invoked houtcome
  obtain ⟨rfl, quote, fragment, hquote, hwrite, hbuffers⟩ := invoke_writingOne houtcome
  obtain ⟨hsite, hbuffer⟩ := hwrites quote hquote
  unfold renamedFunction at hwrite
  rw [hsite, hfunction] at hwrite
  cases hwrite
  refine ⟨function.header.renamed, rfl, ?_⟩
  change [] ++ (invoke (writingOne _ _) _ _ _ _ _).buffers.fragments _ = _
  rw [hbuffers, Quote.emit, hbuffer]
  rfl

/-- Every implementation does what its macro has to do. -/
theorem knows_renameWorkspace {symbol : MethodSymbol} (h : symbol ∈ [noteMacro, renameMacro]) :
    renameRoles.Knows renameExpander.rules renameWorkspace.registry symbol := by
  intro implementation hfound
  simp only [List.mem_cons, List.not_mem_nil, or_false] at h
  rcases h with rfl | rfl
  · cases hfound
    exact serves_noteImplementation
  · cases hfound
    exact serves_renameImplementation

/-- Neither macro captures anything. -/
theorem capturesNothing_note : renameExpander.rules.CapturesNothing noteMacro := by
  intro index param hparam
  cases index with
  | zero =>
    cases hparam
    decide
  | succ index => cases hparam

/-- Calls of the first macro are those of an ordinary one. -/
theorem isOrdinary_note :
    (Stmt.evaluate (.callOf "Note" [])).IsOrdinary renameExpander.rules
      (renameRoles.IsOrdinary renameExpander.rules renameWorkspace.registry) := by
  intro stmt hstmt call hcall symbol hsymbol
  cases hstmt with
  | self =>
    cases hcall with
    | head =>
      have hnote : renameExpander.rules.candidate? (Call.plain "Note" []) = some noteMacro := by cbv
      rw [hnote] at hsymbol
      cases hsymbol
      exact ⟨⟨rfl, knows_renameWorkspace List.mem_cons_self⟩, capturesNothing_note⟩
    | tail _ hcall => cases hcall
  | lambda hlambda => cases hlambda

/-- The statements of the function play their roles. -/
theorem playsRole_renameFunction :
    ∀ stmt ∈ renameFunction.body.statements,
      stmt.PlaysRole renameRoles renameExpander.rules renameWorkspace.registry := by
  have hrename : renameExpander.rules.candidate? (.plain "Rename" []) = some renameMacro := by cbv
  have hcall : (Stmt.evaluate (.callOf "Rename" [])).replacingCall? renameRoles renameExpander.rules =
      some (.plain "Rename" []) := by cbv
  have hwork : (Stmt.evaluate (.ofName "work")).IsPlain renameExpander.rules := by
    intro stmt hstmt call hcall
    cases hstmt with
    | self => cases hcall
    | lambda hlambda => cases hlambda
  intro stmt hstmt
  simp only [renameFunction, FunctionDecl.plain, Block.of, List.mem_cons, List.not_mem_nil, or_false]
    at hstmt
  rcases hstmt with rfl | rfl | rfl | rfl
  · exact .ordinary isOrdinary_note
  · exact .replacing hcall hrename (knows_renameWorkspace (List.mem_cons_of_mem _ List.mem_cons_self))
  · exact .ordinary isOrdinary_note
  · exact .ordinary hwork.isOrdinary

/-- The renamed function has what both calls of the other macro stand for, which is invoked for them
once each. -/
theorem function_replacement_keeps_expansions_rename :
    let file (decl : FunctionDecl) : SyntaxTree := ⟨"file", none, [.function decl]⟩
    let invocations (decl : FunctionDecl) : List (String × Invocation) :=
      (renameExpander.expandWithin 3 (file decl) renameWorkspace.recorded).2.session.host.invocations
    ∃ expansion result,
      (renameExpander.expandWithin 3 (file renameFunction) renameWorkspace).1 = .ok expansion ∧
      expansion.tree = file result ∧ result.name = "MainRenamed" ∧
      result.body.statements = [noted, noted, .evaluate (.ofName "work")] ∧
      renameRoles.ordinaryCalls renameExpander.rules (invocations renameFunction) =
        [("Host.Note", .plain "Note" []), ("Host.Note", .plain "Note" [])] := by
  intro file invocations
  have htree : (renameExpander.expandWithin 3 (file renameFunction) renameWorkspace).1.map (·.tree) =
      .ok (file (.plain "MainRenamed" [] .void [noted, noted, .evaluate (.ofName "work")])) := by
    cbv
  let without := renameFunction.withoutReplacing renameRoles renameExpander.rules
  have hwithout : renameRoles.ordinaryCalls renameExpander.rules (invocations without) =
      [("Host.Note", .plain "Note" []), ("Host.Note", .plain "Note" [])] := by
    subst without invocations file
    cbv
  rcases hrun : (renameExpander.expandWithin 3 (file renameFunction) renameWorkspace).1 with
    stop | expansion
  all_goals rw [hrun] at htree
  · cases htree
  obtain ⟨-, hfile⟩ := function_replacement_keeps_expansions (σ := Unit) renameExpander
    (SymbolTable.byName_model _) renameRoles 3 renameFunction rfl
  obtain ⟨result, _, _, hresult, -, -, hkeeps⟩ :=
    hfile "file" none renameWorkspace expansion playsRole_renameFunction hrun
  have hrenamed := hresult.symm.trans (Except.ok.inj htree)
  cases hrenamed
  exact ⟨expansion, _, rfl, hresult, rfl, rfl, hkeeps.calls.trans hwithout⟩

end MacroExpansion
