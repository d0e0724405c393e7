import MacroExpansion.Proofs.LocalMacros
import MacroExpansion.Proofs.SettlingAlike

/-! # Parts of longer sequences

A sequence can be walked alone or as a part of a longer one, behind other statements and in front of
others. A call then stands at a place with more around it, in a member of the same name
(`Site.Extends`). It is bound alike, except that a capture which fails for want of statements may
succeed in the longer sequence. So where the walk alone comes to a result, the longer sequence is walked
in the same way and the statements around the part stay as they are; with nothing behind the part, it
also ends with the same errors (`FileWalk.extends_splitWalk`). The longer sequence may also be behind
fewer inserted runs: then it may get further.

What the two walks may differ in besides is left open: a frame relates the progresses that they start
from, and has to be kept by the steps that depend on the progress (`Expander.KeepsFrame`). -/

namespace MacroExpansion

/-- The same call of the same statement at two places: in members of one name, and where calls forward
the same quotes. -/
structure Site.Resembles (rules : BindingRules) (site other : Site) : Prop where
  file : other.file = site.file
  call : other.call = site.call
  statement : other.statement = site.statement
  member : other.enclosing.memberName = site.enclosing.memberName
  inFunction : other.function.isSome = site.function.isSome
  forwards (symbol : MethodSymbol) :
    rules.forwardsAmbientQuote symbol other = rules.forwardsAmbientQuote symbol site

/-- The same place in a longer sequence, in which other statements follow the ones that follow the
call. -/
structure Site.Extends (rules : BindingRules) (ahead behind : List Stmt) (site other : Site) : Prop
    extends site.Resembles rules other where
  following : site.following = ahead
  following' : other.following = ahead ++ behind

namespace Site.Resembles

variable {rules : BindingRules} {site other : Site}

/-- It makes no difference which of two places that resemble each other is named first. -/
theorem symm (h : site.Resembles rules other) : other.Resembles rules site :=
  ⟨h.file.symm, h.call.symm, h.statement.symm, h.member.symm, h.inFunction.symm,
    fun symbol => (h.forwards symbol).symm⟩

/-- What is around a place does not change what it looks like. -/
theorem looksLike (h : site.Resembles rules other) : other.LooksLike site :=
  ⟨h.file, h.call, h.member⟩

end Site.Resembles

/-- A bound call at another place. -/
def BoundCall.seenAt (site : Site) (bound : BoundCall) : BoundCall :=
  { bound with site, args := bound.args.map (·.seenAt site) }

namespace BoundCall

variable {bound : BoundCall} {site : Site}

/-- The type arguments are those of the call. -/
theorem resolveTypeArgs_seenAt (h : site.call = bound.site.call) (metadata : TypeMetadata)
    (source : Option SourceText) :
    resolveTypeArgs (bound.seenAt site).symbol (bound.seenAt site).site metadata source =
      resolveTypeArgs bound.symbol bound.site metadata source := by
  unfold resolveTypeArgs
  rw [show (bound.seenAt site).site.call = bound.site.call from h]
  rfl

/-- Faults are reported at the call. -/
theorem atCall_seenAt {α : Type} (h : site.call = bound.site.call) (source : Option SourceText)
    (result : Except Fault α) :
    (bound.seenAt site).atCall source result = bound.atCall source result := by
  unfold atCall
  rw [show (bound.seenAt site).site.call = bound.site.call from h]

end BoundCall

/-- The same call, bound at two places. -/
structure BoundCall.Resembles (rules : BindingRules) (source : Option SourceText)
    (bound other : BoundCall) : Prop where
  site : bound.site.Resembles rules other.site
  seen : other = bound.seenAt other.site
  leads : rules.candidate? bound.site.call = some bound.symbol
  binds : rules.bind bound.symbol bound.site source = .ok (some bound)
  binds' : rules.bind other.symbol other.site source = .ok (some other)

/-! ## Binding -/

namespace BindingRules

variable {rules : BindingRules} {symbol : MethodSymbol} {ahead behind : List Stmt}
  {site other : Site} {source : Option SourceText}

/-- A captured statement is the same, unless there is none in the shorter sequence. -/
theorem capture_mirrors (h : site.Extends rules ahead behind other) (param : ParameterSymbol)
    (captured : Nat) :
    Mirrors (behind ≠ []) (fun arg arg' => arg' = arg.seenAt other)
      (capture symbol param site captured source) (capture symbol param other captured source) := by
  unfold capture Site.following?
  rw [h.following, h.following', h.call]
  cases hnext : ahead[captured]? with
  | none =>
    -- the longer sequence may have a statement to capture here
    by_cases hbehind : behind = []
    · rw [hbehind, List.append_nil, hnext]
      exact .error _
    · exact .ignored hbehind _ _
  | some next =>
    rw [List.getElem?_append_left (List.getElem?_eq_some_iff.mp hnext).1, hnext]
    cases param.type
    case block =>
      cases next
      case block => exact .ok rfl
      all_goals exact .error _
    all_goals exact .ok rfl

/-- An argument of the call is the same at every place of the call. -/
theorem supplied_mirrors {ignored : Prop} (hcall : other.call = site.call) (index : Nat)
    (param : ParameterSymbol) :
    Mirrors ignored (fun arg arg' => arg' = arg.seenAt other)
      (rules.supplied symbol index param site source)
      (rules.supplied symbol index param other source) := by
  unfold supplied
  rw [hcall]
  split
  · split
    all_goals exact .ok rfl
  · split
    · exact .error _
    · exact .ok rfl

/-- What is captured for the parameters from a position on is the same at two places. -/
def CapturesAlike (rules : BindingRules) (symbol : MethodSymbol) (source : Option SourceText)
    (ignored : Prop) (site other : Site) (params : List ParameterSymbol) (index : Nat) : Prop :=
  ∀ offset param, params[offset]? = some param →
    rules.role symbol (index + offset) param = .capture →
    ∀ captured, Mirrors ignored (fun arg arg' => arg' = arg.seenAt other)
      (capture symbol param site captured source) (capture symbol param other captured source)

/-- The parameters of a call are bound alike where what they capture is the same. -/
theorem bindParams_mirrors {ignored : Prop} {root : Quote} (hcall : other.call = root.site.call)
    (params : List ParameterSymbol) (index captured : Nat)
    (hcapture : CapturesAlike rules symbol source ignored root.site other params index) :
    Mirrors ignored (fun bound bound' => bound' = (bound.1.map (·.seenAt other), bound.2))
      (rules.bindParams symbol root source params index captured)
      (rules.bindParams symbol { root with site := other } source params index captured) := by
  induction params generalizing index captured with
  | nil => exact .ok rfl
  | cons param rest ih =>
    have hothers : CapturesAlike rules symbol source ignored root.site other rest (index + 1) := by
      intro offset param hparam hrole
      rw [Nat.add_assoc, Nat.add_comm 1] at hrole
      exact hcapture (offset + 1) param hparam hrole
    -- whatever the first parameter receives, the others are bound alike behind it
    have onward {taken : Nat} (arg : Argument) :
        Mirrors ignored (fun bound bound' => bound' = (bound.1.map (·.seenAt other), bound.2))
          (rules.bindParams symbol root source rest (index + 1) taken >>=
            fun others => pure (arg :: others.1, others.2))
          (rules.bindParams symbol { root with site := other } source rest (index + 1) taken >>=
            fun others => pure (arg.seenAt other :: others.1, others.2)) := by
      refine (ih _ _ hothers).bind ?_
      rintro ⟨args, last⟩ _ rfl
      exact .ok rfl
    unfold bindParams
    cases hrole : rules.role symbol index param with
    | quote => exact onward (.quote (root.withSequence index))
    | default value => exact onward (.constant value)
    | capture =>
      simp only [pure_bind]
      refine (hcapture 0 param rfl hrole captured).bind ?_
      rintro arg _ rfl
      exact onward arg
    | argument =>
      simp only [pure_bind]
      refine (supplied_mirrors hcall index param).bind ?_
      rintro arg _ rfl
      exact onward arg

/-- Where the function around has no parameters, no call forwards a quote. -/
theorem forwards_eq_false (h : ∀ decl, site.function = some decl → decl.params = []) :
    rules.forwardsAmbientQuote symbol site = false := by
  refine Bool.eq_false_iff.mpr fun hforwards => ?_
  obtain ⟨decl, hdecl, index, name, -, -, hambient⟩ := forwardsAmbientQuote_iff.mp hforwards
  rw [isAmbientQuote, h decl hdecl] at hambient
  cases hambient

/-- The parameters that received nothing are the same at every place. -/
theorem placeholders_seenAt (params : List ParameterSymbol) (args : List Argument) (site : Site) :
    ((params.zip (args.map (·.seenAt site))).filter fun (_, arg) => arg == .missing).map
        (fun (param, _) => param.name) =
      ((params.zip args).filter fun (_, arg) => arg == .missing).map fun (param, _) => param.name := by
  have hmissing (arg : Argument) : (arg.seenAt site == .missing) = (arg == .missing) := by
    cases arg <;> rfl
  rw [List.zip_map_right, List.filter_map, List.map_map]
  exact congrArg (List.map fun pair : ParameterSymbol × Argument => pair.1.name)
    (List.filter_congr fun pair _ => hmissing pair.2)

/-- A call that forwards no quote is bound alike where what it captures is the same. -/
theorem bind_mirrors {ignored : Prop} (hcall : other.call = site.call)
    (hforwards : rules.forwardsAmbientQuote symbol site = false)
    (hforwards' : rules.forwardsAmbientQuote symbol other = false)
    (hcapture : CapturesAlike rules symbol source ignored site other symbol.params 0) :
    Mirrors ignored (fun next next' => ∃ bound, next = some bound ∧ bound.site = site ∧
        next' = some (bound.seenAt other))
      (rules.bind symbol site source) (rules.bind symbol other source) := by
  unfold bind
  rw [hforwards, hforwards']
  let root := Quote.of site (Buffers.create {}).1
  have hparams : Mirrors ignored (fun bound bound' => bound' = (bound.1.map (·.seenAt other), bound.2))
      (rules.bindParams symbol root source symbol.params 0 0)
      (rules.bindParams symbol { root with site := other } source symbol.params 0 0) :=
    bindParams_mirrors hcall symbol.params 0 0 hcapture
  refine hparams.bind ?_
  rintro ⟨args, captured⟩ _ rfl
  refine .ok ⟨_, rfl, rfl, ?_⟩
  simp only [placeholders_seenAt]
  rfl

/-- A bound call is already seen at its place. -/
theorem seenAt_of_bind {bound : BoundCall} (h : rules.bind symbol site source = .ok (some bound)) :
    bound.seenAt bound.site = bound := by
  have hown : ∀ arg ∈ bound.args, arg.seenAt bound.site = id arg := by
    intro arg harg
    cases arg with
    | quote quote =>
      have hsite : quote.site = bound.site := (quote_of_bind h harg).1
      rw [Argument.seenAt, ← hsite]
      rfl
    | _ => rfl
  rw [BoundCall.seenAt, List.map_congr_left hown, List.map_id]

/-- The same call forwards the same quotes in functions with the same quotes. -/
theorem forwards_congr (hcall : other.call = site.call)
    (hfunctions : Option.Rel
      (fun decl decl' => rules.isAmbientQuote decl' = rules.isAmbientQuote decl)
      site.function other.function) :
    rules.forwardsAmbientQuote symbol other = rules.forwardsAmbientQuote symbol site := by
  unfold forwardsAmbientQuote
  rw [hcall]
  generalize site.function = decl at hfunctions ⊢
  generalize other.function = decl' at hfunctions ⊢
  cases hfunctions with
  | none => rfl
  | some hambient => simp only [hambient]

/-- A call is bound alike at places that resemble each other, where what it captures is the same. -/
theorem bind_resembles {ignored : Prop} (h : site.Resembles rules other)
    (hcapture : CapturesAlike rules symbol source ignored site other symbol.params 0) :
    Mirrors ignored (Option.Rel fun bound bound' => bound.site = site ∧ bound' = bound.seenAt other)
      (rules.bind symbol site source) (rules.bind symbol other source) := by
  have hforwards' := h.forwards symbol
  cases hforwards : rules.forwardsAmbientQuote symbol site with
  | true =>
    unfold bind
    rw [hforwards', hforwards]
    exact .ok .none
  | false =>
    refine (bind_mirrors h.call hforwards (hforwards'.trans hforwards) hcapture).mono ?_
    rintro _ _ ⟨bound, rfl, hsite, rfl⟩
    exact .some ⟨hsite, rfl⟩

end BindingRules

/-- A bound call resembles itself from the other place as well. -/
theorem BoundCall.Resembles.symm {rules : BindingRules} {source : Option SourceText}
    {bound other : BoundCall} (h : bound.Resembles rules source other) :
    other.Resembles rules source bound := by
  refine ⟨h.site.symm, ?_, ?_, h.binds', h.binds⟩
  · have hown := BindingRules.seenAt_of_bind h.binds
    rw [h.seen]
    have htwice (arg : Argument) :
        (arg.seenAt other.site).seenAt bound.site = arg.seenAt bound.site := by
      cases arg <;> rfl
    simp only [seenAt, List.map_map, Function.comp_def, htwice] at hown ⊢
    exact hown.symm
  · rw [h.site.call, h.leads, h.seen]
    rfl

/-- The first call to expand is the same at places that resemble each other, where what calls capture
is the same. -/
theorem Expander.firstBound?_mirrors {expander : Expander} {source : Option SourceText}
    {ignored : Prop} {site site' : Call → Site}
    (h : ∀ call, (site call).Resembles expander.rules (site' call))
    (hcall : ∀ call, (site call).call = call) {calls : List Call}
    (hcapture : ∀ call ∈ calls, ∀ symbol, expander.rules.candidate? call = some symbol →
      expander.rules.CapturesAlike symbol source ignored (site call) (site' call) symbol.params 0) :
    Mirrors ignored
      (Option.Rel fun bound other => bound.Resembles expander.rules source other ∧
        ∃ call ∈ calls, bound.site = site call)
      (expander.firstBound? source site calls) (expander.firstBound? source site' calls) := by
  induction calls with
  | nil => exact .ok .none
  | cons call rest ih =>
    obtain ⟨hfirst, hothers⟩ := List.forall_mem_cons.mp hcapture
    -- a call that is not to be expanded leaves the search to those behind it
    have hrest : Mirrors ignored
        (Option.Rel fun bound other => bound.Resembles expander.rules source other ∧
          ∃ found ∈ call :: rest, bound.site = site found)
        (expander.firstBound? source site rest) (expander.firstBound? source site' rest) := by
      refine (ih hothers).mono fun next next' hrel => ?_
      cases hrel with
      | none => exact .none
      | some hbound =>
        obtain ⟨hresembles, found, hmem, hsite⟩ := hbound
        exact .some ⟨hresembles, found, List.mem_cons_of_mem call hmem, hsite⟩
    unfold firstBound?
    cases hsymbol : expander.rules.candidate? call with
    | none => exact hrest
    | some symbol =>
      have hmirrors := BindingRules.bind_resembles (h call) (hfirst symbol hsymbol)
      dsimp only
      generalize hbind : expander.rules.bind symbol (site call) source = binding at hmirrors ⊢
      generalize hbind' : expander.rules.bind symbol (site' call) source = binding' at hmirrors ⊢
      cases hmirrors with
      | error error => exact .error error
      | ignored hignored error second => exact .ignored hignored error _
      | ok hrel =>
        cases hrel with
        | none => exact hrest
        | some hbound =>
          rename_i bound other
          obtain ⟨hsite, hother⟩ := hbound
          obtain ⟨hsymbol', -, -⟩ := BindingRules.bind_some hbind
          have hseen : other = bound.seenAt other.site := by rw [hother]; rfl
          refine .ok (.some ⟨⟨?_, hseen, ?_, ?_, ?_⟩, call, List.mem_cons_self, hsite⟩)
          · rw [hsite, hother]
            exact h call
          · rw [hsite, hcall, hsymbol, hsymbol']
          · rw [hsite, hsymbol', hbind]
          · rw [hother]
            exact (hsymbol' ▸ hbind').trans (by rw [hother])

/-! ## Places in a longer sequence -/

/-- A parted sequence as a part of a longer one. -/
def Split.within (split : Split) (front behind : List Stmt) : Split :=
  ⟨front ++ split.done, split.todo ++ behind⟩

/-- A sequence with nothing before it and behind it is itself. -/
@[simp] theorem Split.within_nil (split : Split) : split.within [] [] = split := by
  rw [within, List.append_nil, List.nil_append]

/-- Two scopes in members of one name, in functions with the same quotes or outside of functions. -/
structure Scope.Resembles (rules : BindingRules) (scope other : Scope) : Prop where
  member : other.memberName = scope.memberName
  quotes : Option.Rel (fun context context' => ∀ body body',
      rules.isAmbientQuote { context'.decl with body := body' } =
        rules.isAmbientQuote { context.decl with body })
    scope.function other.function

/-- Another block with a scope that resembles the one of the first, behind as many inserted runs or
fewer. -/
structure Setting.Widens (rules : BindingRules) (setting wider : Setting) : Prop where
  scope : setting.scope.Resembles rules wider.scope
  depth : wider.depth ≤ setting.depth

namespace Setting.Widens

variable {rules : BindingRules} {setting wider : Setting}

/-- A wider setting is wider at the next depth, too. -/
theorem deeper (h : setting.Widens rules wider) : setting.deeper.Widens rules wider.deeper :=
  ⟨h.scope, Nat.succ_le_succ h.depth⟩

/-- The calls of a statement stand at places that resemble each other. -/
theorem resembles (h : setting.Widens rules wider) (done done' rest rest' : List Stmt) (stmt : Stmt)
    (path : String) (call : Call) :
    ((setting.cursor ⟨done, stmt :: rest⟩).site path call).Resembles rules
      ((wider.cursor ⟨done', stmt :: rest'⟩).site path call) := by
  -- which names are quotes does not depend on the code in the functions
  have hfunctions : Option.Rel (fun decl decl' => rules.isAmbientQuote decl' = rules.isAmbientQuote decl)
      ((setting.cursor ⟨done, stmt :: rest⟩).site path call).function
      ((wider.cursor ⟨done', stmt :: rest'⟩).site path call).function := by
    have hquotes := h.scope.quotes
    change Option.Rel _ (setting.scope.function.map _) (wider.scope.function.map _)
    generalize setting.scope.function = context at hquotes ⊢
    generalize wider.scope.function = context' at hquotes ⊢
    cases hquotes with
    | none => exact .none
    | some hambient => exact .some (hambient _ _)
  refine ⟨rfl, rfl, ?_, ?_, ?_, fun symbol => BindingRules.forwards_congr rfl hfunctions⟩
  · change (wider.cursor ⟨done', stmt :: rest'⟩).stmt = (setting.cursor ⟨done, stmt :: rest⟩).stmt
    rw [Setting.stmt_cursor, Setting.stmt_cursor]
  · change (wider.cursor ⟨done', stmt :: rest'⟩).enclosing.memberName =
      (setting.cursor ⟨done, stmt :: rest⟩).enclosing.memberName
    rw [Cursor.memberName_enclosing, Cursor.memberName_enclosing]
    exact h.scope.member
  · generalize ((setting.cursor ⟨done, stmt :: rest⟩).site path call).function = decl at hfunctions ⊢
    generalize ((wider.cursor ⟨done', stmt :: rest'⟩).site path call).function = decl' at hfunctions ⊢
    cases hfunctions <;> rfl

/-- A call of the next statement stands at a place of the longer sequence. -/
theorem site (h : setting.Widens rules wider) (front behind done rest : List Stmt) (stmt : Stmt)
    (path : String) (call : Call) :
    ((setting.cursor ⟨done, stmt :: rest⟩).site path call).Extends rules rest behind
      ((wider.cursor ((Split.mk done (stmt :: rest)).within front behind)).site path call) where
  toResembles := h.resembles done (front ++ done) rest (rest ++ behind) stmt path call
  following := (Cursor.Shows.of_split setting ⟨done, stmt :: rest⟩).following path call
  following' := (Cursor.Shows.of_split wider
    ((Split.mk done (stmt :: rest)).within front behind)).following path call

/-- What surrounds nested statements is alike. -/
theorem inside (h : setting.Widens rules wider) (done done' rest rest' : List Stmt) {stmt : Stmt}
    {slot : Slot} {content : Block} (hcontent : slot.content? stmt = some content) :
    ((setting.cursor ⟨done, stmt :: rest⟩).inside slot).Resembles rules
      ((wider.cursor ⟨done', stmt :: rest'⟩).inside slot) where
  member := by
    have hheld (setting : Setting) (done rest : List Stmt) :
        slot.content? (setting.cursor ⟨done, stmt :: rest⟩).stmt = some content := by
      rw [Setting.stmt_cursor]
      exact hcontent
    rw [Cursor.memberName_inside (hheld _ _ _), Cursor.memberName_inside (hheld _ _ _)]
    change (if slot.isLambda then _ else wider.scope.memberName) =
      if slot.isLambda then _ else setting.scope.memberName
    rw [h.scope.member]
  quotes := by
    have hquotes := h.scope.quotes
    change Option.Rel _ (setting.scope.function.map _) (wider.scope.function.map _)
    generalize setting.scope.function = context at hquotes ⊢
    generalize wider.scope.function = context' at hquotes ⊢
    cases hquotes with
    | none => exact .none
    | some hambient => exact .some hambient

end Setting.Widens

/-! ## Walking -/

section

variable {σ : Type} {frame : Progress σ → Progress σ → Prop}

/-- The steps of an expansion that depend on the progress keep a frame, and come to the same. -/
structure Expander.KeepsFrame (expander : Expander) (file : FileOrigin)
    (frame : Progress σ → Progress σ → Prop) : Prop where
  /-- The host is asked whether to go on. -/
  poll : ExpandM.Simulates frame False Eq ExpandM.checkCancelled ExpandM.checkCancelled
  /-- A call is expanded. -/
  expandCall {bound other : BoundCall} (h : bound.Resembles expander.rules file.source other) :
    ExpandM.Simulates frame False Eq (expander.expandCall file.source bound)
      (expander.expandCall file.source other)

/-- A frame may be looked at from the other side. -/
theorem Expander.KeepsFrame.symm {expander : Expander} {file : FileOrigin}
    (h : expander.KeepsFrame file frame) :
    expander.KeepsFrame file fun progress other => frame other progress where
  poll := h.poll.symm.mono id fun _ _ => Eq.symm
  expandCall hbound := (h.expandCall hbound.symm).symm.mono id fun _ _ => Eq.symm

/-- Whole sequences are walked alike from progresses in the frame, in scopes that resemble each
other. -/
def SequenceWalk.Repeats (rules : BindingRules) (frame : Progress σ → Progress σ → Prop)
    (walk : SequenceWalk σ) : Prop :=
  ∀ scope other depth depth' span statements, Scope.Resembles rules scope other → depth' ≤ depth →
    ExpandM.Simulates frame (depth' ≠ depth) (Flow.Related Eq)
      (walk scope depth span statements 0 statements.length)
      (walk other depth' span statements 0 statements.length)

/-- A longer sequence is walked like its part. -/
def SplitWalk.Extends (rules : BindingRules) (frame : Progress σ → Progress σ → Prop)
    (walk : SplitWalk σ) : Prop :=
  ∀ setting wider tail split front behind, Setting.Widens rules setting wider →
    ExpandM.Simulates frame (behind ≠ [] ∨ wider.depth ≠ setting.depth)
      (Flow.Related fun last last' => last' = last.within front behind)
      (walk setting tail split) (walk wider (tail + behind.length) (split.within front behind))

/-- A sequence that is a part of itself is walked alike. -/
theorem SplitWalk.Extends.onSequence {rules : BindingRules} {walk : SplitWalk σ}
    (h : walk.Extends rules frame) : walk.onSequence.Repeats rules frame := by
  intro scope other depth depth' span statements hscope hdepth
  have hpart := h ⟨scope, depth, span⟩ ⟨other, depth', span⟩ (statements.length - statements.length)
    ⟨statements.take 0, statements.drop 0⟩ [] [] ⟨hscope, hdepth⟩
  rw [Split.within_nil] at hpart
  refine .followedBy (hpart.mono (fun hignored => hignored.resolve_left fun h => h rfl)
    fun _ _ => id) ?_
  rintro last _ rfl
  rw [last.within_nil]
  exact .pure (.proceed rfl)

end

namespace FileWalk

variable {σ : Type} {frame : Progress σ → Progress σ → Prop} {expander : Expander}
  {file : FileOrigin} {walkRun : SplitWalk σ} {walkNested : SequenceWalk σ} {setting wider : Setting}

/-- The slots of a statement are walked alike, whatever is before and behind it. -/
theorem walkSlots_repeats (hnested : walkNested.Repeats expander.rules frame)
    (h : setting.Widens expander.rules wider) (done done' rest rest' : List Stmt) (slots : List Slot)
    (stmt : Stmt) :
    ExpandM.Simulates frame (wider.depth ≠ setting.depth) (Flow.Related Eq)
      (walkSlots walkNested (setting.cursor ⟨done, stmt :: rest⟩) slots)
      (walkSlots walkNested (wider.cursor ⟨done', stmt :: rest'⟩) slots) := by
  induction slots generalizing stmt with
  | nil =>
    unfold walkSlots
    rw [Setting.stmt_cursor, Setting.stmt_cursor]
    exact .pure (.proceed rfl)
  | cons slot slots ih =>
    unfold walkSlots
    rw [Setting.stmt_cursor, Setting.stmt_cursor]
    cases hcontent : slot.content? stmt with
    | none => exact ih stmt
    | some content =>
      dsimp only
      refine (hnested _ _ setting.depth wider.depth _ _ (h.inside done done' rest rest' hcontent)
        h.depth).followedBy ?_
      rintro walked _ rfl
      simp only [Setting.withStmt_cursor]
      exact ih _

/-- A statement without calls to expand is settled alike. -/
theorem settled_repeats (hnested : walkNested.Repeats expander.rules frame)
    (h : setting.Widens expander.rules wider) (done done' rest rest' : List Stmt) (stmt : Stmt) :
    ExpandM.Simulates frame (wider.depth ≠ setting.depth)
      (Flow.Related fun last last' => ∃ stmt, last = Split.mk (done ++ [stmt]) rest ∧
        last' = Split.mk (done' ++ [stmt]) rest')
      (walkSlots walkNested (setting.cursor ⟨done, stmt :: rest⟩) (Slot.all stmt) >>=
        (·.followedBy fun stmt => pure (.proceed (Split.mk (done ++ [stmt]) rest))))
      (walkSlots walkNested (wider.cursor ⟨done', stmt :: rest'⟩) (Slot.all stmt) >>=
        (·.followedBy fun stmt => pure (.proceed (Split.mk (done' ++ [stmt]) rest')))) := by
  refine (walkSlots_repeats hnested h done done' rest rest' _ stmt).followedBy ?_
  rintro stmt _ rfl
  exact .pure (.proceed ⟨stmt, rfl, rfl⟩)

/-- The next call is found in the longer sequence too, and what it captures is part of the shorter
one. -/
theorem next_extends (h : setting.Widens expander.rules wider) (front behind done rest : List Stmt)
    (stmt : Stmt) :
    ExpandM.Simulates frame (behind ≠ [] ∨ wider.depth ≠ setting.depth)
      (Option.Rel fun bound other => bound.Resembles expander.rules file.source other ∧
        bound.captured ≤ rest.length)
      (ExpandM.require (expander.firstBound? file.source
        ((setting.cursor ⟨done, stmt :: rest⟩).site file.path) stmt.ownCalls))
      (ExpandM.require (expander.firstBound? file.source
        ((wider.cursor ⟨front ++ done, stmt :: (rest ++ behind)⟩).site file.path)
          stmt.ownCalls)) := by
  have hsite := h.site front behind done rest stmt file.path
  refine .require ((Expander.firstBound?_mirrors (fun call => (hsite call).toResembles)
    (fun _ => rfl) fun call _ symbol _ _ param _ _ captured =>
      (BindingRules.capture_mirrors (hsite call) param captured).weaken .inl).mono ?_)
  intro next next' hrel
  cases hrel with
  | none => exact .none
  | some hbound =>
    obtain ⟨hresembles, call, -, hplace⟩ := hbound
    obtain ⟨-, -, hcaptured⟩ := BindingRules.bind_some hresembles.binds
    rw [hplace, (hsite call).following] at hcaptured
    exact .some ⟨hresembles, hcaptured⟩

/-- An output takes the place of the same statements in the longer sequence. -/
theorem placeSplit_extends (hrun : walkRun.Extends expander.rules frame)
    (h : setting.Widens expander.rules wider) (front behind done rest : List Stmt) {stmt : Stmt}
    {bound other : BoundCall} (hbound : bound.Resembles expander.rules file.source other)
    (hcaptured : bound.captured ≤ rest.length) {settle settle' : Split → ExpandM σ (Flow Split)}
    (hsettle : ∀ stmt, ExpandM.Simulates frame (behind ≠ [] ∨ wider.depth ≠ setting.depth)
      (Flow.Related fun last last' => last' = last.within front behind)
      (settle ⟨done, stmt :: rest⟩) (settle' ⟨front ++ done, stmt :: (rest ++ behind)⟩))
    (placement : Placement) :
    ExpandM.Simulates frame (behind ≠ [] ∨ wider.depth ≠ setting.depth)
      (Flow.Related fun last last' => last' = last.within front behind)
      (placeSplit { expander, file } walkRun settle setting ⟨done, stmt :: rest⟩ bound placement)
      (placeSplit { expander, file } walkRun settle' wider
        ⟨front ++ done, stmt :: (rest ++ behind)⟩ other placement) := by
  cases placement with
  | empty =>
    simp only [placeSplit, Setting.stmt_cursor]
    exact hsettle _
  | statement stmt => exact hsettle stmt
  | function decl => exact .pure (.replaceFunction decl)
  | inPlace expr =>
    simp only [placeSplit, Setting.stmt_cursor, hbound.site.call]
    cases stmt.replaceCall? bound.site.call expr with
    | none => exact .throw _
    | some stmt => exact hsettle stmt
  | splice run =>
    have hrest : (rest ++ behind).drop other.captured = rest.drop bound.captured ++ behind := by
      rw [hbound.seen]
      exact List.drop_append_of_le_length hcaptured
    have hinserted := hrun setting.deeper wider.deeper (rest.drop bound.captured).length
      ⟨done, run ++ rest.drop bound.captured⟩ front behind h.deeper
    simp only [placeSplit, Split.insert, List.drop_succ_cons, hrest, List.length_append]
    rw [Split.within, List.append_assoc] at hinserted
    refine hinserted.mono ?_ fun _ _ => id
    exact Or.imp_right fun hne heq => hne (congrArg (· + 1) heq)

/-- Settling the next statement leaves the same of the longer sequence. -/
theorem settleSplit_extends (hsteps : expander.KeepsFrame file frame)
    (hrun : walkRun.Extends expander.rules frame) (h : setting.Widens expander.rules wider)
    (front behind done rest : List Stmt) (allowed : Nat) (stmt : Stmt) :
    ExpandM.Simulates frame (behind ≠ [] ∨ wider.depth ≠ setting.depth)
      (Flow.Related fun last last' => last' = last.within front behind)
      (settleSplit { expander, file } walkRun walkRun.onSequence setting allowed
        ⟨done, stmt :: rest⟩)
      (settleSplit { expander, file } walkRun walkRun.onSequence wider allowed
        ⟨front ++ done, stmt :: (rest ++ behind)⟩) := by
  -- the longer sequence is behind fewer runs, and may get further
  refine settleSplit_simulates (fun _ => True)
    (fun bound other => bound.Resembles expander.rules file.source other ∧
      bound.captured ≤ rest.length)
    (fun _ _ hbound => hbound.1.site.call) h.depth .inr
    (fun stmt _ => next_extends h front behind done rest stmt) (fun stmt _ => ?_) ?_ allowed True.intro
  · refine (settled_repeats hrun.onSequence h done (front ++ done) rest (rest ++ behind) stmt).mono
      .inr fun _ _ hrel => hrel.mono ?_
    rintro _ _ ⟨stmt, rfl, rfl⟩
    rw [Split.within, List.append_assoc]
  · rintro stmt bound other settle settle' - ⟨hbound, hcaptured⟩ hsettle
    refine .bind (((hsteps.expandCall hbound).located _ _).mono False.elim fun _ _ => id) ?_
    rintro placement _ rfl
    exact placeSplit_extends hrun h front behind done rest hbound hcaptured
      (fun stmt => hsettle stmt True.intro) placement

/-- The statements of the part are settled in the same steps. -/
theorem walkSplit_extends (hsteps : expander.KeepsFrame file frame)
    (hrun : walkRun.Extends expander.rules frame) (h : setting.Widens expander.rules wider)
    (front behind : List Stmt) (tail steps : Nat) (split : Split) :
    ExpandM.Simulates frame (behind ≠ [] ∨ wider.depth ≠ setting.depth)
      (Flow.Related fun last last' => last' = last.within front behind)
      (walkSplit { expander, file } walkRun walkRun.onSequence setting tail steps split)
      (walkSplit { expander, file } walkRun walkRun.onSequence wider (tail + behind.length) steps
        (split.within front behind)) := by
  induction steps generalizing split with
  | zero => exact .pure (.proceed rfl)
  | succ steps ih =>
    obtain ⟨done, todo⟩ := split
    unfold walkSplit
    by_cases hlt : tail < todo.length
    · rw [if_pos hlt, if_pos (by simp only [Split.within, List.length_append]; omega)]
      cases todo with
      | nil => exact absurd hlt (Nat.not_lt_zero tail)
      | cons stmt rest =>
        refine .bind (hsteps.poll.mono False.elim fun _ _ => id) fun _ _ _ => ?_
        refine .followedBy (settleSplit_extends hsteps hrun h front behind done rest _ stmt) ?_
        rintro middle _ rfl
        exact ih middle
    · rw [if_neg hlt, if_neg (by simp only [Split.within, List.length_append]; omega)]
      exact .pure (.proceed rfl)

/-- A longer sequence is walked like its part. -/
theorem extends_splitWalk (hsteps : expander.KeepsFrame file frame) (nesting : Nat) :
    (splitWalk { expander, file } nesting).Extends expander.rules frame := by
  induction nesting with
  | zero => exact fun _ _ _ _ _ _ _ => .throw _
  | succ nesting ih =>
    intro setting wider tail split front behind h
    have hlength : (split.within front behind).todo.length - (tail + behind.length) =
        split.todo.length - tail := by
      simp only [Split.within, List.length_append]
      omega
    unfold splitWalk
    rw [hlength]
    exact walkSplit_extends hsteps ih h front behind tail _ split

end FileWalk

end MacroExpansion
