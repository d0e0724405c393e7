import MacroExpansion.Proofs.BodyPlaces
import MacroExpansion.Proofs.StatementCopies

/-! # Repeated statements

In any body of a file, a call of `Repeat` multiplies the statement behind it, and each call inside the
statement is expanded once for every copy. If the statement is a block that repeats another statement,
the copies of that one multiply (`RepeatStmt.nested`, `Expander.toldAlone_of_nested`, by induction on
the nesting). A block comes to what its statements come to (`Expander.yields_of_block`). -/

namespace MacroExpansion

variable {σ : Type} {expander : Expander} {file : FileOrigin} {nesting : Nat} {start : Workspace σ}
  {firstId : Nat} {setting other : Setting} {statements : List Stmt} {yield : Yield}

open StandardMacros

/-! ## Blocks -/

/-- Every scope resembles itself. -/
theorem Scope.Resembles.refl {rules : BindingRules} (hmodel : rules.model.ByName) (scope : Scope) :
    scope.Resembles rules scope := by
  refine ⟨rfl, ?_⟩
  cases scope.function with
  | none => exact .none
  | some context =>
    refine .some fun body body' => ?_
    exact (BindingRules.isAmbientQuote_body hmodel context.decl body').trans
      (BindingRules.isAmbientQuote_body hmodel context.decl body).symm

/-- A block surrounds its statements with the member that is around the block. -/
theorem Setting.inside_block_resembles {rules : BindingRules} (hmodel : rules.model.ByName)
    (setting : Setting) (content : Block) :
    ((setting.cursor ⟨[], [.block content]⟩).inside .block).Resembles rules setting.scope := by
  have hheld : Slot.content? .block (setting.cursor ⟨[], [.block content]⟩).stmt = some content := by
    rw [Setting.stmt_cursor]
    rfl
  refine ⟨(Cursor.memberName_inside hheld).symm, ?_⟩
  change Option.Rel _ (setting.scope.function.map _) setting.scope.function
  cases setting.scope.function with
  | none => exact .none
  | some context =>
    refine .some fun body body' => ?_
    exact (BindingRules.isAmbientQuote_body hmodel context.decl body').trans
      (BindingRules.isAmbientQuote_body hmodel context.decl body).symm

/-- What statements come to depends on the member around them only. -/
theorem Expander.Yields.of_resembles
    (h : expander.Yields file nesting start setting statements yield)
    (hlocal : expander.rules.HasLocalMacros start.registry)
    (hwidens : setting.Widens expander.rules other) :
    expander.Yields file nesting start other statements yield := by
  obtain ⟨ended, hrun, hadds⟩ := h.runFrom_part hlocal hwidens (.refl expander.rules start) [] []
  rw [List.append_nil] at hrun
  exact ⟨ended, hrun, hadds.trace, hadds.warnings⟩

/-- A block that comes to something is a block of what its statements come to. -/
theorem Expander.yields_of_block (h : expander.HasStandardMacros start.registry firstId)
    {span : Span} (hyields : expander.Yields file nesting start setting
      [.block ⟨statements, span⟩] yield) :
    ∃ inner, expander.Yields file nesting start setting statements inner ∧
      yield = { inner with statements := [.block ⟨inner.statements, span⟩] } := by
  obtain ⟨ended, hrun, htrace, hwarnings⟩ := hyields
  cases nesting with
  | zero => cases hrun
  | succ nesting =>
    rw [FileWalk.splitWalk_of_lt _ _ _ _ (Nat.zero_lt_succ _)] at hrun
    obtain ⟨_, _, hpoll, hrun⟩ := ExpandM.bind_ok hrun
    obtain rfl := ExpandM.eq_of_checkCancelled hpoll
    obtain ⟨flow, middle, hsettled, hbehind⟩ := ExpandM.bind_ok hrun
    -- a block has no calls of its own, so its statements are walked at once
    rw [FileWalk.runFrom_settleSplit_of_none rfl] at hsettled
    obtain ⟨stmt, _, hslots, hsettled⟩ := ExpandM.bind_ok hsettled
    obtain ⟨walked, _, hwalked, hslots⟩ := ExpandM.bind_ok hslots
    obtain ⟨inner, _, hinner, hwalked⟩ := ExpandM.bind_ok hwalked
    cases inner with
    | replaceFunction decl =>
      cases hwalked
      cases hslots
      cases hsettled
      cases hbehind
    | proceed last =>
      rw [Nat.sub_self] at hinner
      obtain ⟨-, hlength⟩ := FileWalk.splitWalk_advances _ nesting _ _ _ _ _ _ hinner last rfl
      obtain ⟨done, todo⟩ := last
      obtain rfl : todo = [] := List.eq_nil_of_length_eq_zero (Nat.le_zero.mp hlength)
      cases hwalked
      cases hslots
      cases hsettled
      -- behind the block nothing is left
      have hnone : ([] : List Stmt).length ≤ 0 := Nat.le_refl 0
      rw [Flow.proceed_followedBy, FileWalk.splitWalk_of_le _ _ _ _ hnone] at hbehind
      obtain ⟨hflow, rfl⟩ := Prod.mk.inj hbehind
      obtain ⟨hstatements, -⟩ := Split.mk.inj (Flow.proceed.inj (Except.ok.inj hflow))
      rw [Setting.stmt_cursor, Cursor.stmt_withStmt _ _ Nat.one_pos] at hstatements
      have hscope := setting.inside_block_resembles h.byName ⟨statements, span⟩
      have hinner : expander.Yields file nesting start ⟨_, setting.depth, span⟩ statements
          ⟨done, middle.trace.toList, middle.warnings.toList⟩ := ⟨_, hinner, rfl, rfl⟩
      refine ⟨_, (hinner.mono (Nat.le_succ nesting)).of_resembles h.hasLocalMacros ⟨hscope, Nat.le_refl _⟩,
        Yield.ext ?_ htrace.symm hwarnings.symm⟩
      rw [← hstatements, Split.statements, List.append_nil]
      rfl

/-! ## Nested repeats -/

/-- A statement that calls `Repeat` by a constant count. -/
structure RepeatStmt where
  /-- The count. -/
  count : Int64
  /-- The call. -/
  call : Call
  /-- Where the statement is written. -/
  span : Span
  /-- Where the block is written that the statement begins. -/
  blockSpan : Span

namespace RepeatStmt

/-- The statement itself. -/
def stmt (first : RepeatStmt) : Stmt :=
  .expr (.call first.call) first.span

/-- How often the next statement is written. -/
def times (first : RepeatStmt) : Nat :=
  first.count.toInt.toNat

/-- A statement within blocks that repeat it, outermost first. -/
def nested : List RepeatStmt → Stmt → Stmt
  | [], s => s
  | first :: rest, s => .block ⟨[first.stmt, nested rest s], first.blockSpan⟩

/-- The copies of a statement within the copies of the blocks around it. -/
def copies : List RepeatStmt → Stmt → Stmt
  | [], s => s
  | first :: rest, s => .block ⟨List.replicate first.times (copies rest s), first.blockSpan⟩

/-- What a repeated statement comes to if one copy of it comes to `single`. -/
def repeats (expander : Expander) (id : SymbolId) (first : RepeatStmt) (s : Stmt) (single : Yield) :
    Yield :=
  repeatYield expander id first.call first.count s ++ .times first.times single

/-- What the repeated statement comes to within its blocks if one copy of it comes to `single`. -/
def nestedYield (expander : Expander) (id : SymbolId) (s : Stmt) (single : Yield) :
    List RepeatStmt → Yield
  | [] => single
  | first :: rest =>
      let inner := first.repeats expander id (nested rest s) (nestedYield expander id s single rest)
      { inner with statements := [.block ⟨inner.statements, first.blockSpan⟩] }

/-- Copies multiply from block to block. -/
theorem statements_nestedYield (expander : Expander) (id : SymbolId) (s : Stmt) {single : Yield}
    {s' : Stmt}
    (hsingle : single.statements = [s']) (repeated : List RepeatStmt) :
    (nestedYield expander id s single repeated).statements = [copies repeated s'] := by
  induction repeated with
  | nil => exact hsingle
  | cons first rest ih =>
    have hcopies : (first.repeats expander id (nested rest s)
        (nestedYield expander id s single rest)).statements =
          List.replicate first.times (copies rest s') :=
      Yield.statements_times ih first.times
    rw [nestedYield, copies, hcopies]

end RepeatStmt

/-- Nothing comes of nothing. -/
theorem Expander.yields_nil_of_yields
    (h : expander.Yields file nesting start setting statements yield) (other : Setting) :
    expander.Yields file nesting start other [] {} := by
  obtain ⟨_, hrun, -⟩ := h
  cases nesting with
  | zero => cases hrun
  | succ nesting =>
    have hnone : ([] : List Stmt).length ≤ 0 := Nat.le_refl 0
    refine ⟨{ toWorkspace := start }, ?_, rfl, rfl⟩
    rw [FileWalk.splitWalk_of_le _ _ _ _ hnone]
    rfl

/-- Blocks around a statement add no calls of their own to it. -/
theorem RepeatStmt.ownCalls_nested {Q : Call → Prop} {s : Stmt} (hs : ∀ call ∈ s.ownCalls, Q call)
    (repeated : List RepeatStmt) : ∀ call ∈ (nested repeated s).ownCalls, Q call := by
  cases repeated with
  | nil => exact hs
  | cons first rest => exact fun call hmem => absurd hmem List.not_mem_nil

/-- A call of `Repeat` alone before a statement comes to copies of what the statement comes to. -/
theorem Expander.yields_repeated (h : expander.HasStandardMacros start.registry firstId)
    {first : RepeatStmt} {s : Stmt} (hcall : RepeatsBy expander.rules ⟨firstId + 2⟩ first.count first.call)
    (hcount : 0 ≤ first.count) (hs : ∀ call ∈ s.ownCalls, expander.AvoidsRepeat firstId call)
    (hyields : expander.Yields file nesting start setting [first.stmt, s] yield) :
    ∃ single, (0 < first.count → expander.Yields file nesting start setting [s] single) ∧
      yield = first.repeats expander ⟨firstId + 2⟩ s single := by
  let settingOf : List Stmt → Setting := fun _ => setting
  have halike (xs ys : List Stmt) : (settingOf xs).scope.Resembles expander.rules (settingOf ys).scope :=
    .refl h.byName _
  have hdepth (xs : List Stmt) : (settingOf xs).depth = setting.depth := rfl
  have hnil : expander.Yields file nesting start (settingOf []) [] {} := yields_nil_of_yields hyields _
  obtain ⟨single, s', last, -, hsingle, hlast, hwhole⟩ :=
    yields_repeat h halike hdepth hcall hnil hcount hs hyields
  obtain rfl := hlast.unique hnil
  exact ⟨single, hsingle, by rw [hwhole, Yield.append_nil]; rfl⟩

/-- A statement whose calls keep it alone comes to one statement. -/
theorem Expander.exists_statement_of_yields (h : expander.HasStandardMacros start.registry firstId)
    {s : Stmt} (hs : ∀ call ∈ s.ownCalls, expander.AvoidsRepeat firstId call)
    (hyields : expander.Yields file nesting start setting [s] yield) :
    ∃ s', yield.statements = [s'] := by
  obtain ⟨ended, hrun, -⟩ := id hyields
  change (FileWalk.splitWalk _ nesting setting ([] : List Stmt).length _).runFrom _ = _ at hrun
  have hwidens : setting.Widens expander.rules setting := ⟨.refl h.byName _, Nat.le_refl _⟩
  obtain ⟨single, s', hsingle, hs', -⟩ :=
    yields_of_copy h hwidens hs (.refl expander.rules start) hrun
  obtain rfl := hyields.unique hsingle
  exact ⟨s', hs'⟩

/-- What a statement comes to within its blocks is told by what it comes to alone, unless it is not
written at all. -/
def Expander.ToldAlone (expander : Expander) (file : FileOrigin) (nesting : Nat) (start : Workspace σ)
    (setting : Setting) (id : SymbolId) (s : Stmt) (repeated : List RepeatStmt) (yield : Yield) : Prop :=
  ∃ single s', single.statements = [s'] ∧
    ((∀ each ∈ repeated, 0 < each.count) → expander.Yields file nesting start setting [s] single) ∧
    yield = RepeatStmt.nestedYield expander id s single repeated

/-- What is told of one copy is told of all copies. -/
theorem Expander.exists_single_of_copies {id : SymbolId} {s : Stmt} {first : RepeatStmt}
    {rest : List RepeatStmt} {copy : Yield}
    (h : 0 < first.count → expander.ToldAlone file nesting start setting id s rest copy) :
    ∃ single s', single.statements = [s'] ∧
      ((∀ each ∈ first :: rest, 0 < each.count) →
        expander.Yields file nesting start setting [s] single) ∧
      first.repeats expander id (RepeatStmt.nested rest s) copy =
        first.repeats expander id (RepeatStmt.nested rest s)
          (RepeatStmt.nestedYield expander id s single rest) := by
  by_cases hpos : 0 < first.count
  · obtain ⟨single, s', hs', halone, rfl⟩ := h hpos
    exact ⟨single, s', hs', fun hall => halone (List.forall_mem_cons.mp hall).2, rfl⟩
  · -- without a copy it does not matter what the statement comes to
    have hzero : first.times = 0 := by
      have hle := Int64.le_iff_toInt_le.mp (Int64.not_lt.mp hpos)
      rw [Int64.toInt_zero] at hle
      exact Int.toNat_eq_zero.mpr hle
    refine ⟨{ statements := [s] }, s, rfl, fun hall => absurd (hall first List.mem_cons_self) hpos, ?_⟩
    simp only [RepeatStmt.repeats, hzero, Yield.times]

/-- Within its blocks a repeated statement comes to the copies of what it comes to alone. -/
theorem Expander.toldAlone_of_nested (h : expander.HasStandardMacros start.registry firstId)
    {repeated : List RepeatStmt} {s : Stmt}
    (hcalls : ∀ each ∈ repeated, RepeatsBy expander.rules ⟨firstId + 2⟩ each.count each.call)
    (hcounts : ∀ each ∈ repeated, 0 ≤ each.count)
    (hs : ∀ call ∈ s.ownCalls, expander.AvoidsRepeat firstId call)
    (hyields : expander.Yields file nesting start setting [RepeatStmt.nested repeated s] yield) :
    expander.ToldAlone file nesting start setting ⟨firstId + 2⟩ s repeated yield := by
  induction repeated generalizing yield with
  | nil =>
    obtain ⟨s', hs'⟩ := exists_statement_of_yields h hs hyields
    exact ⟨yield, s', hs', fun _ => hyields, rfl⟩
  | cons first rest ih =>
    obtain ⟨hcall, hrest⟩ := List.forall_mem_cons.mp hcalls
    obtain ⟨hcount, hcounts⟩ := List.forall_mem_cons.mp hcounts
    obtain ⟨inner, hinner, rfl⟩ := yields_of_block h hyields
    obtain ⟨single, hsingle, rfl⟩ :=
      yields_repeated h hcall hcount (RepeatStmt.ownCalls_nested hs rest) hinner
    obtain ⟨innermost, s', hs', halone, hsame⟩ :=
      exists_single_of_copies fun hpos => ih hrest hcounts (hsingle hpos)
    exact ⟨innermost, s', hs', halone, by rw [hsame]; rfl⟩

/-! ## Files -/

/-- The standard macros are the only ones in a table with no other macros, once they are registered. -/
theorem Expander.hasStandardMacros_declaring {symbols : List MethodSymbol}
    (hmodel : expander.model = (SymbolTable.declaring symbols).model)
    (hmarkers : expander.markers = .stored)
    (hmacros : ∀ symbol ∈ symbols, expander.rules.isMacroFunction symbol = true →
      symbol ∈ (StandardMacros.all (σ := σ) firstId).map Prod.fst)
    (hregistry : start.registry = StandardMacros.registerAll firstId {}) :
    expander.HasStandardMacros start.registry firstId where
  byName := by
    change expander.model.ByName
    rw [hmodel]
    exact SymbolTable.byName_model _
  markers := hmarkers
  only {call symbol} hsymbol := by
    obtain ⟨hbinds, hmacro⟩ := Option.filter_eq_some_iff.mp hsymbol
    have hfound : (SymbolTable.declaring symbols).model.bindCall call = some symbol := hmodel ▸ hbinds
    obtain ⟨⟨_, body⟩, hmem, rfl⟩ :=
      List.mem_map.mp (hmacros symbol (SymbolTable.mem_of_get?_declaring hfound) hmacro)
    exact ⟨body, hmem⟩
  leads {symbol body} hmem := by
    rw [hregistry]
    simp only [StandardMacros.all, List.mem_cons, Prod.mk.injEq, List.not_mem_nil, or_false] at hmem
    rcases hmem with ⟨rfl, rfl⟩ | ⟨rfl, rfl⟩ | ⟨rfl, rfl⟩ | ⟨rfl, rfl⟩ <;> rfl

/-- `Repeat` multiplies its statement. In any body, with the standard macros alone, a call of it and the
statement behind it come to so many copies of what the statement comes to alone, between what is before
and what is behind, and each call inside the statement is expanded once for every copy. Blocks that
repeat multiply the copies in them. A negative count is an invocation error at the call. -/
theorem repeat_multiplies_statement (place : BodyPlace)
    (h : expander.HasStandardMacros start.registry firstId) {first : RepeatStmt}
    {repeated : List RepeatStmt} {s : Stmt} {pre post : List Stmt} {before : Expansion}
    (hcalls : ∀ each ∈ first :: repeated, RepeatsBy expander.rules ⟨firstId + 2⟩ each.count each.call)
    (hbefore : (expander.expandWithin nesting (place.tree pre) start).1 = .ok before) :
    let body := pre ++ [first.stmt, RepeatStmt.nested repeated s] ++ post
    (∀ expansion, (∀ each ∈ first :: repeated, 0 ≤ each.count) →
      (∀ call ∈ s.ownCalls, expander.AvoidsRepeat firstId call) →
      (expander.expandWithin nesting (place.tree body) start).1 = .ok expansion →
      ∃ (around : Surroundings) (ahead single behind : Yield) (s' : Stmt),
        place.Alike around.place ∧ single.statements = [s'] ∧ before = around.expansion ahead ∧
        ((∀ each ∈ first :: repeated, 0 < each.count) →
          (expander.expandWithin nesting (place.tree [s]) start).1 = .ok (around.expansion single)) ∧
        (expander.expandWithin nesting (place.tree post) start).1 = .ok (around.expansion behind) ∧
        expansion.tree = around.place.tree (ahead.statements ++
          List.replicate first.times (RepeatStmt.copies repeated s') ++ behind.statements) ∧
        expansion = around.expansion (ahead ++
          first.repeats expander ⟨firstId + 2⟩ (RepeatStmt.nested repeated s)
            (RepeatStmt.nestedYield expander ⟨firstId + 2⟩ s single repeated) ++ behind)) ∧
    (first.count < 0 → 1 ≤ expander.config.maxDepth → start.session.binding.active = none →
      start.session.cancelled = false →
      (expander.expandWithin nesting (place.tree body) start).1 =
          .error (.error (.atSpan (negativeCount ⟨firstId + 2⟩ first.count) first.call.span
            place.file.source)) ∧
        (negativeCount ⟨firstId + 2⟩ first.count).kind = .invocation) := by
  intro body
  obtain ⟨hcall, hrepeated⟩ := List.forall_mem_cons.mp hcalls
  obtain ⟨around, hsurrounds⟩ := Expander.exists_surroundings h.hasLocalMacros hbefore
  obtain ⟨ahead, hahead, rfl⟩ := hsurrounds.exists_yield h hbefore
  have halike (xs ys : List Stmt) :
      (place.setting xs).scope.Resembles expander.rules (place.setting ys).scope :=
    place.holder.scope_resembles h.byName _ _
  have hdepth (xs : List Stmt) : (place.setting xs).depth = 0 := rfl
  have hbody : body = pre ++ first.stmt :: RepeatStmt.nested repeated s :: post := by
    simp [body]
  refine ⟨fun expansion hcounts hs hexpansion => ?_, fun hnegative hlimit hidle hgoesOn => ⟨?_, rfl⟩⟩
  · obtain ⟨hcount, hcounts⟩ := List.forall_mem_cons.mp hcounts
    obtain ⟨whole, hwhole, rfl⟩ := hsurrounds.exists_yield h hexpansion
    rw [hbody] at hwhole
    obtain ⟨outer, _, behind, -, houter, hbehind, rfl⟩ := Expander.yields_repeat h halike hdepth hcall
      hahead hcount (RepeatStmt.ownCalls_nested hs repeated) hwhole
    -- what a copy comes to is told by what the innermost statement comes to
    obtain ⟨single, s', hs', halone, hsame⟩ := Expander.exists_single_of_copies fun hpos =>
      Expander.toldAlone_of_nested h hrepeated hcounts hs (houter hpos)
    have hcopies : (first.repeats expander ⟨firstId + 2⟩ (RepeatStmt.nested repeated s)
        (RepeatStmt.nestedYield expander ⟨firstId + 2⟩ s single repeated)).statements =
          List.replicate first.times (RepeatStmt.copies repeated s') :=
      Yield.statements_times (RepeatStmt.statements_nestedYield _ _ _ hs' repeated) first.times
    have hwhole : ahead ++ repeatYield expander ⟨firstId + 2⟩ first.call first.count
          (RepeatStmt.nested repeated s) ++ .times first.count.toInt.toNat outer ++ behind =
        ahead ++ first.repeats expander ⟨firstId + 2⟩ (RepeatStmt.nested repeated s)
          (RepeatStmt.nestedYield expander ⟨firstId + 2⟩ s single repeated) ++ behind := by
      rw [← hsame, Yield.append_assoc ahead]
      rfl
    rw [hwhole]
    refine ⟨around, ahead, single, behind, s', hsurrounds.alike, hs', rfl, fun hall => ?_,
      hsurrounds.expands hbehind, ?_, rfl⟩
    · exact hsurrounds.expands ((halone hall).of_resembles h.hasLocalMacros
        ⟨halike _ _, Nat.le_refl _⟩)
    · rw [Surroundings.expansion, Yield.statements_append, Yield.statements_append, hcopies]
  · rw [hbody]
    exact hsurrounds.stops (Expander.refuses_repeat h halike hdepth hcall hahead hnegative hlimit
      (Nat.zero_le _) hidle hgoesOn)

/-- A script. -/
def repeatPlace : BodyPlace where
  file := { path := "file", text := none }
  before := []
  holder := .script
  span := default
  behind := []

/-- The statement `Repeat(count);`. -/
def repeatBy (count : Int64) : RepeatStmt :=
  ⟨count, .plain "Repeat" [.ofInt count], default, default⟩

/-- Nothing else is in the script. -/
theorem place_eq_of_alike {around : BodyPlace} (h : repeatPlace.Alike around) : around = repeatPlace := by
  obtain ⟨file, before, holder, span, behind⟩ := around
  obtain ⟨rfl, hbefore, hholder, rfl, hbehind⟩ := h
  obtain rfl : before = [] := List.eq_nil_of_length_eq_zero hbefore
  obtain rfl : behind = [] := List.eq_nil_of_length_eq_zero hbehind
  cases hholder
  rfl

/-- A script of its own tells its statements. -/
theorem statements_of_tree_eq {xs ys : List Stmt} (h : repeatPlace.tree xs = repeatPlace.tree ys) :
    xs = ys := by
  have hitems : repeatPlace.items xs = repeatPlace.items ys := congrArg SyntaxTree.items h
  exact (Block.mk.inj (Item.statements.inj (List.singleton_inj.mp hitems))).1

/-- In `Repeat(2); { Repeat(3); Log(Here()); }` the copies of the inner statement are six. -/
theorem repeat_multiplies_statement_nested :
    let log (place : Expr) : Stmt := .evaluate (.callOf "Log" [place])
    let body := [(repeatBy 2).stmt, RepeatStmt.nested [repeatBy 3] (log (.callOf "Here" []))]
    ∃ expansion : Expansion,
      (scriptExpander.expandWithin 5 (repeatPlace.tree body) scriptWorkspace).1 = .ok expansion ∧
      expansion.tree = repeatPlace.tree
        (List.replicate 2 (.blockOf (List.replicate 3 (log (.ofString "file:0"))))) ∧
      expansion.trace.length = 9 := by
  intro log body
  have hstandard : scriptExpander.HasStandardMacros scriptWorkspace.registry 0 := by
    have hmodel : scriptExpander.model = (SymbolTable.declaring scriptMacros).model := rfl
    refine Expander.hasStandardMacros_declaring hmodel rfl (fun symbol hsymbol _ => ?_) rfl
    fin_cases hsymbol <;> simp [StandardMacros.all]
  have hcalls : ∀ each ∈ [repeatBy 2, repeatBy 3],
      RepeatsBy scriptExpander.rules ⟨2⟩ each.count each.call := by
    intro each heach
    fin_cases heach <;> exact ⟨by cbv, rfl, _, rfl, rfl⟩
  have hs : ∀ call ∈ (log (.callOf "Here" [])).ownCalls, scriptExpander.AvoidsRepeat 0 call := by
    intro call hcall hleads
    -- `Log` is no macro, and `Here` is another one
    have hlog : scriptExpander.rules.candidate? (.plain "Log" [.callOf "Here" []]) = none := by cbv
    have hhere : scriptExpander.rules.candidate? (.plain "Here" []) = some (here ⟨1⟩) := by cbv
    fin_cases hcall
    · cases hlog.symm.trans hleads
    · cases hhere.symm.trans hleads
  have hwhole : (scriptExpander.expandWithin 5 (repeatPlace.tree body) scriptWorkspace).1.map
      (·.trace.length) = .ok 9 := by
    unfold body log
    cbv
  have halone : (scriptExpander.expandWithin 5 (repeatPlace.tree [log (.callOf "Here" [])])
      scriptWorkspace).1.map (·.tree) = .ok (repeatPlace.tree [log (.ofString "file:0")]) := by
    unfold log
    cbv
  have hnothing : (scriptExpander.expandWithin 5 (repeatPlace.tree []) scriptWorkspace).1 =
      .ok { tree := repeatPlace.tree [], trace := [], warnings := [] } := by
    cbv
  cases hexpansion : (scriptExpander.expandWithin 5 (repeatPlace.tree body) scriptWorkspace).1 with
  | error stop =>
    rw [hexpansion] at hwhole
    cases hwhole
  | ok expansion =>
    obtain ⟨around, ahead, single, behind, s', halike, hs', hahead, hsingle, hbehind, htree, -⟩ :=
      (repeat_multiplies_statement repeatPlace hstandard hcalls hnothing).1 expansion (by decide) hs
        hexpansion
    have hplace := place_eq_of_alike halike
    -- nothing else is before or behind, and the copies are those of the statement alone
    have hstatements {yield : Yield} {statements : List Stmt}
        (h : (around.expansion yield).tree = repeatPlace.tree statements) :
        yield.statements = statements := by
      rw [Surroundings.expansion, hplace] at h
      exact statements_of_tree_eq h
    rw [hsingle (by decide)] at halone
    rw [hnothing] at hbehind
    have hcopy : [s'] = [log (.ofString "file:0")] :=
      hs'.symm.trans (hstatements (Except.ok.inj halone))
    have hahead := hstatements (congrArg Expansion.tree hahead).symm
    have hbehind := hstatements (congrArg Expansion.tree (Except.ok.inj hbehind)).symm
    rw [hexpansion] at hwhole
    refine ⟨expansion, rfl, ?_, Except.ok.inj hwhole⟩
    rw [htree, hplace, hahead, hbehind, List.singleton_inj.mp hcopy]
    rfl

end MacroExpansion
