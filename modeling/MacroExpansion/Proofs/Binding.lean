import MacroExpansion.Walk.Statements

/-! # Bound calls

What is known of a call that was bound: it stands at the site it was bound at, it captured nothing
but statements that follow it, and it is the first of its statement that has to be expanded. A call
that was left unbound forwards an ambient quote. -/

namespace MacroExpansion

/-- Two parts come to a value when the first one does and the second one does from there. -/
theorem except_bind_ok {ε α β : Type} {first : Except ε α} {next : α → Except ε β} {result : β}
    (h : (first >>= next) = .ok result) :
    ∃ value, first = .ok value ∧ next value = .ok result := by
  cases first with
  | error error => cases h
  | ok value => exact ⟨value, rfl, h⟩

/-- A changed value comes from a value. -/
theorem except_map_ok {ε α β : Type} {value : Except ε α} {change : α → β} {result : β} :
    value.map change = .ok result ↔ ∃ first, value = .ok first ∧ change first = result := by
  cases value <;> simp [Except.map]

namespace BindingRules

variable {rules : BindingRules} {symbol : MethodSymbol} {site : Site} {source : Option SourceText}

/-! ## Captures -/

/-- Only a statement that follows the call can be captured. -/
theorem lt_following_of_capture {param : ParameterSymbol} {captured : Nat} {arg : Argument}
    (h : capture symbol param site captured source = .ok arg) :
    captured < site.following.length := by
  unfold capture Site.following? at h
  cases hn : site.following[captured]? with
  | none =>
    rw [hn] at h
    cases h
  | some next => exact (List.getElem?_eq_some_iff.mp hn).1

/-- Only capture parameters capture. -/
theorem isCapture_of_role {index : Nat} {param : ParameterSymbol}
    (h : rules.role symbol index param = .capture) : param.isCapture = true := by
  unfold role at h
  unfold ParameterSymbol.isCapture
  by_cases hquote : rules.isQuoteParameter symbol index = true
  · rw [if_pos hquote] at h
    cases h
  · rw [if_neg hquote] at h
    cases hdefault : param.default with
    | none =>
      rw [hdefault] at h
      cases h
    | some value =>
      rw [hdefault] at h
      by_cases hcapture : param.type.isCapture = true
      · rw [hcapture]
        rfl
      · simp [hcapture] at h

/-! ## Parameters -/

/-- What one parameter receives, with the number of statements that are captured after it. -/
def bindParam (rules : BindingRules) (symbol : MethodSymbol) (root : Quote)
    (source : Option SourceText) (param : ParameterSymbol) (index captured : Nat) :
    Except ExpansionError (Argument × Nat) :=
  match rules.role symbol index param with
  | .quote => .ok (.quote (root.withSequence index), captured)
  | .capture => (capture symbol param root.site captured source).map (·, captured + 1)
  | .default value => .ok (.constant value, captured)
  | .argument => (rules.supplied symbol index param root.site source).map (·, captured)

/-- Parameters are bound one by one. -/
theorem bindParams_cons (root : Quote) (param : ParameterSymbol) (rest : List ParameterSymbol)
    (index captured : Nat) :
    rules.bindParams symbol root source (param :: rest) index captured = (do
      let first ← rules.bindParam symbol root source param index captured
      let others ← rules.bindParams symbol root source rest (index + 1) first.2
      return (first.1 :: others.1, others.2)) := by
  rw [bindParams]
  unfold bindParam
  cases rules.role symbol index param with
  | quote => rfl
  | capture => cases capture symbol param root.site captured source <;> rfl
  | default value => rfl
  | argument => cases rules.supplied symbol index param root.site source <;> rfl

/-- Parameters are bound one after the other, each behind what the ones before it captured. -/
theorem bindParams_cons_ok {root : Quote} {param : ParameterSymbol} {rest : List ParameterSymbol}
    {index captured last : Nat} {args : List Argument} :
    rules.bindParams symbol root source (param :: rest) index captured = .ok (args, last) ↔
      ∃ arg taken others, rules.bindParam symbol root source param index captured = .ok (arg, taken) ∧
        rules.bindParams symbol root source rest (index + 1) taken = .ok (others, last) ∧
        args = arg :: others := by
  rw [bindParams_cons]
  constructor
  · intro h
    obtain ⟨⟨arg, taken⟩, hfirst, h⟩ := except_bind_ok h
    obtain ⟨⟨others, _⟩, hrest, h⟩ := except_bind_ok h
    cases h
    exact ⟨arg, taken, others, hfirst, hrest, rfl⟩
  · rintro ⟨arg, taken, others, hfirst, hrest, rfl⟩
    rw [hfirst]
    change (rules.bindParams symbol root source rest (index + 1) taken >>= _) = _
    rw [hrest]
    rfl

/-- A parameter captures one more statement, or it captures nothing. -/
theorem captured_of_bindParam {root : Quote} {param : ParameterSymbol} {index captured taken : Nat}
    {arg : Argument} (h : rules.bindParam symbol root source param index captured = .ok (arg, taken)) :
    taken = captured ∨ rules.role symbol index param = .capture ∧
      captured < root.site.following.length ∧ taken = captured + 1 := by
  unfold bindParam at h
  cases hrole : rules.role symbol index param with
  | quote =>
    rw [hrole] at h
    cases h
    exact .inl rfl
  | default value =>
    rw [hrole] at h
    cases h
    exact .inl rfl
  | capture =>
    rw [hrole] at h
    obtain ⟨captive, hcapture, h⟩ := except_map_ok.mp h
    cases h
    exact .inr ⟨rfl, lt_following_of_capture hcapture, rfl⟩
  | argument =>
    rw [hrole] at h
    obtain ⟨given, -, h⟩ := except_map_ok.mp h
    cases h
    exact .inl rfl

/-- Every parameter receives one argument. -/
theorem length_of_bindParams {root : Quote} {params : List ParameterSymbol}
    {index captured last : Nat} {args : List Argument}
    (h : rules.bindParams symbol root source params index captured = .ok (args, last)) :
    args.length = params.length := by
  induction params generalizing index captured args with
  | nil =>
    cases h
    rfl
  | cons param rest ih =>
    obtain ⟨arg, taken, others, -, hrest, rfl⟩ := bindParams_cons_ok.mp h
    rw [List.length_cons, List.length_cons, ih hrest]

/-- The parameters of a call capture no more statements than follow it. -/
theorem bindParams_captured_le {root : Quote} {params : List ParameterSymbol} {index captured : Nat}
    {args : List Argument} {last : Nat} (hle : captured ≤ root.site.following.length)
    (h : rules.bindParams symbol root source params index captured = .ok (args, last)) :
    last ≤ root.site.following.length := by
  induction params generalizing index captured args with
  | nil =>
    cases h
    exact hle
  | cons param rest ih =>
    obtain ⟨arg, taken, others, hfirst, hrest, rfl⟩ := bindParams_cons_ok.mp h
    -- only a capture takes a further statement, and there is one to take
    rcases captured_of_bindParam hfirst with rfl | ⟨-, hlt, rfl⟩
    · exact ih hle hrest
    · exact ih hlt hrest

/-- Parameters that capture nothing leave the count of captured statements as it is. -/
theorem bindParams_captured_eq {root : Quote} {params : List ParameterSymbol} {index captured : Nat}
    {args : List Argument} {last : Nat}
    (hnone : ∀ offset param, params[offset]? = some param →
      rules.role symbol (index + offset) param ≠ .capture)
    (h : rules.bindParams symbol root source params index captured = .ok (args, last)) :
    last = captured := by
  induction params generalizing index captured args with
  | nil =>
    cases h
    rfl
  | cons param rest ih =>
    obtain ⟨arg, taken, others, hfirst, hrest, rfl⟩ := bindParams_cons_ok.mp h
    rcases captured_of_bindParam hfirst with rfl | ⟨hcapture, -, -⟩
    · refine ih (fun offset other hother => ?_) hrest
      have hrole := hnone (offset + 1) other hother
      rwa [Nat.add_comm offset, ← Nat.add_assoc] at hrole
    · exact absurd hcapture (hnone 0 param rfl)

/-- The quotes that parameters receive differ in nothing but their sequence numbers. -/
theorem quote_of_bindParam {root quote : Quote} {param : ParameterSymbol} {index captured taken : Nat}
    (h : rules.bindParam symbol root source param index captured = .ok (.quote quote, taken)) :
    quote = root.withSequence index := by
  unfold bindParam at h
  cases hrole : rules.role symbol index param with
  | quote =>
    rw [hrole] at h
    cases h
    rfl
  | default value =>
    rw [hrole] at h
    cases h
  | capture =>
    rw [hrole] at h
    obtain ⟨arg, hcapture, h⟩ := except_map_ok.mp h
    obtain rfl : arg = .quote quote := congrArg Prod.fst h
    -- what is captured is a statement
    unfold capture at hcapture
    repeat' split at hcapture
    all_goals cases hcapture
  | argument =>
    rw [hrole] at h
    obtain ⟨arg, hsupplied, h⟩ := except_map_ok.mp h
    obtain rfl : arg = .quote quote := congrArg Prod.fst h
    unfold supplied at hsupplied
    repeat' split at hsupplied
    all_goals cases hsupplied

/-- The quotes that are handed out are those of the call, each with a number of its own. -/
theorem quote_of_bindParams {root quote : Quote} {params : List ParameterSymbol}
    {index captured last : Nat} {args : List Argument}
    (h : rules.bindParams symbol root source params index captured = .ok (args, last))
    (hquote : .quote quote ∈ args) : ∃ sequence, quote = root.withSequence sequence := by
  induction params generalizing index captured args with
  | nil =>
    cases h
    cases hquote
  | cons param rest ih =>
    obtain ⟨arg, taken, others, hfirst, hrest, rfl⟩ := bindParams_cons_ok.mp h
    rcases List.mem_cons.mp hquote with rfl | hquote
    · exact ⟨index, quote_of_bindParam hfirst⟩
    · exact ih hrest hquote

/-! ## Bound and unbound calls -/

/-- The call of a symbol at a site, with what its parameters received. -/
def boundWith (symbol : MethodSymbol) (site : Site) (args : List Argument) (captured : Nat) :
    BoundCall where
  symbol
  site
  args
  buffers := (Buffers.create {}).2
  buffer := (Buffers.create {}).1
  captured
  placeholders :=
    ((symbol.params.zip args).filter fun (_, arg) => arg == .missing).map fun (param, _) => param.name

/-- A call that forwards no ambient quote is bound with what its parameters receive. -/
theorem bind_eq (rules : BindingRules) (symbol : MethodSymbol) (site : Site)
    (source : Option SourceText) :
    rules.bind symbol site source =
      if rules.forwardsAmbientQuote symbol site then .ok none
      else (rules.bindParams symbol (Quote.of site (Buffers.create {}).1) source symbol.params 0 0).map
        fun params => some (boundWith symbol site params.1 params.2) := by
  unfold bind boundWith
  generalize Buffers.create {} = created
  obtain ⟨buffer, buffers⟩ := created
  cases rules.forwardsAmbientQuote symbol site with
  | true => rfl
  | false =>
    simp only [Bool.false_eq_true, if_false]
    cases rules.bindParams symbol (Quote.of site buffer) source symbol.params 0 0 <;> rfl

/-- A bound call keeps what its parameters received. -/
theorem eq_boundWith_of_bind {bound : BoundCall}
    (h : rules.bind symbol site source = .ok (some bound)) :
    bound = boundWith symbol site bound.args bound.captured := by
  rw [bind_eq] at h
  split at h
  · cases h
  · obtain ⟨params, -, h⟩ := except_map_ok.mp h
    cases h
    rfl

/-- A call is bound when it forwards no ambient quote and its parameters are bound. -/
theorem bind_some_cases {bound : BoundCall} (h : rules.bind symbol site source = .ok (some bound)) :
    rules.forwardsAmbientQuote symbol site = false ∧ bound.symbol = symbol ∧ bound.site = site ∧
      bound.buffers = (Buffers.create {}).2 ∧
      rules.bindParams symbol (Quote.of site (Buffers.create {}).1) source symbol.params 0 0 =
        .ok (bound.args, bound.captured) := by
  unfold bind at h
  cases hf : rules.forwardsAmbientQuote symbol site with
  | true =>
    rw [hf] at h
    cases h
  | false =>
    rw [hf] at h
    obtain ⟨⟨args, captured⟩, hparams, h⟩ := except_bind_ok h
    cases h
    exact ⟨rfl, rfl, rfl, rfl, hparams⟩

/-- A bound call is the call of the symbol at the site, and the statements it captured follow it. -/
theorem bind_some {bound : BoundCall} (h : rules.bind symbol site source = .ok (some bound)) :
    bound.symbol = symbol ∧ bound.site = site ∧ bound.captured ≤ site.following.length := by
  obtain ⟨-, hsymbol, hsite, -, hparams⟩ := bind_some_cases h
  exact ⟨hsymbol, hsite, bindParams_captured_le (Nat.zero_le _) hparams⟩

/-- The quotes of a bound call are made for its place and write to its buffer. -/
theorem quote_of_bind {bound : BoundCall} (h : rules.bind symbol site source = .ok (some bound))
    {quote : Quote} (hquote : .quote quote ∈ bound.args) :
    quote.site = bound.site ∧ quote.buffer = bound.buffer := by
  obtain ⟨-, -, -, -, hparams⟩ := bind_some_cases h
  obtain ⟨sequence, rfl⟩ := quote_of_bindParams hparams hquote
  rw [eq_boundWith_of_bind h]
  exact ⟨rfl, rfl⟩

/-- No parameter of the function is bound by a statement that follows the call. -/
def CapturesNothing (rules : BindingRules) (symbol : MethodSymbol) : Prop :=
  ∀ index param, symbol.params[index]? = some param → rules.role symbol index param ≠ .capture

/-- A call captures nothing when no parameter of its macro does. -/
theorem CapturesNothing.captured_eq {bound : BoundCall} (hnone : rules.CapturesNothing symbol)
    (h : rules.bind symbol site source = .ok (some bound)) : bound.captured = 0 := by
  obtain ⟨-, -, -, -, hparams⟩ := bind_some_cases h
  refine bindParams_captured_eq (fun offset param hparam => ?_) hparams
  rw [Nat.zero_add]
  exact hnone offset param hparam

/-- A call captures something only when its macro has a parameter for it. -/
theorem captures_of_bind {bound : BoundCall} (h : rules.bind symbol site source = .ok (some bound))
    (hcaptured : bound.captured ≠ 0) : symbol.params.any (·.isCapture) = true := by
  by_cases hany : symbol.params.any (·.isCapture) = true
  · exact hany
  · refine absurd (CapturesNothing.captured_eq (fun index param hparam hrole => ?_) h) hcaptured
    exact hany (List.any_eq_true.mpr ⟨param, List.mem_of_getElem? hparam, isCapture_of_role hrole⟩)

/-- A call is left unbound only when it forwards an ambient quote. -/
theorem forwards_of_bind_none (h : rules.bind symbol site source = .ok none) :
    rules.forwardsAmbientQuote symbol site = true := by
  unfold bind at h
  cases hf : rules.forwardsAmbientQuote symbol site with
  | true => rfl
  | false =>
    rw [hf] at h
    obtain ⟨⟨args, captured⟩, -, h⟩ := except_bind_ok h
    cases h

end BindingRules

namespace Expander

variable {expander : Expander} {source : Option SourceText} {site : Call → Site}

/-- The search passes over a call that leads to no macro or is left as code, and ends at any other
one: with an error, or with the bound call. -/
theorem firstBound?_cons (expander : Expander) (source : Option SourceText) (site : Call → Site)
    (call : Call) (rest : List Call) :
    ((∀ symbol, expander.rules.candidate? call = some symbol →
        expander.rules.bind symbol (site call) source = .ok none) ∧
      expander.firstBound? source site (call :: rest) = expander.firstBound? source site rest) ∨
    ∃ symbol, expander.rules.candidate? call = some symbol ∧
      ((∃ error, expander.rules.bind symbol (site call) source = .error error ∧
          expander.firstBound? source site (call :: rest) = .error error) ∨
        ∃ bound, expander.rules.bind symbol (site call) source = .ok (some bound) ∧
          expander.firstBound? source site (call :: rest) = .ok (some bound)) := by
  rw [firstBound?]
  cases hc : expander.rules.candidate? call with
  | none => exact .inl ⟨fun _ h => (nomatch h), rfl⟩
  | some symbol =>
    simp only
    cases hb : expander.rules.bind symbol (site call) source with
    | error error => exact .inr ⟨symbol, rfl, .inl ⟨error, hb, rfl⟩⟩
    | ok binding =>
      cases binding with
      | some bound => exact .inr ⟨symbol, rfl, .inr ⟨bound, hb, rfl⟩⟩
      | none =>
        refine .inl ⟨fun other hother => ?_, rfl⟩
        rw [← Option.some.inj hother]
        exact hb

/-- The first call that has to be expanded is one of the calls, bound at its site. -/
theorem firstBound?_some {calls : List Call} {bound : BoundCall}
    (h : expander.firstBound? source site calls = .ok (some bound)) :
    ∃ call ∈ calls, ∃ symbol, expander.rules.candidate? call = some symbol ∧
      expander.rules.bind symbol (site call) source = .ok (some bound) := by
  induction calls with
  | nil => cases h
  | cons call rest ih =>
    rcases expander.firstBound?_cons source site call rest with
      ⟨-, hrest⟩ | ⟨symbol, hc, ⟨error, -, hfirst⟩ | ⟨first, hb, hfirst⟩⟩
    · rw [hrest] at h
      obtain ⟨found, hmem, hfound⟩ := ih h
      exact ⟨found, List.mem_cons_of_mem call hmem, hfound⟩
    · rw [hfirst] at h
      cases h
    · rw [hfirst] at h
      cases h
      exact ⟨call, List.mem_cons_self, symbol, hc, hb⟩

/-- A call that is found leads to its macro, and its arguments are bound. -/
theorem binds_of_firstBound?_some {calls : List Call} {bound : BoundCall}
    (hsite : ∀ call, (site call).call = call)
    (h : expander.firstBound? source site calls = .ok (some bound)) :
    expander.rules.candidate? bound.site.call = some bound.symbol ∧
      expander.rules.bind bound.symbol bound.site source = .ok (some bound) := by
  obtain ⟨call, -, symbol, hleads, hbind⟩ := firstBound?_some h
  obtain ⟨hsymbol, hbound, -⟩ := BindingRules.bind_some hbind
  rw [hbound, hsymbol, hsite]
  exact ⟨hleads, hbind⟩

/-- When every call of a macro can be bound, the search for the first one does not fail. -/
theorem firstBound?_ok {calls : List Call}
    (h : ∀ call ∈ calls, ∀ symbol error, expander.rules.candidate? call = some symbol →
      expander.rules.bind symbol (site call) source ≠ .error error) :
    ∃ next, expander.firstBound? source site calls = .ok next := by
  induction calls with
  | nil => exact ⟨none, rfl⟩
  | cons call rest ih =>
    rcases expander.firstBound?_cons source site call rest with
      ⟨-, hrest⟩ | ⟨symbol, hc, ⟨error, hb, -⟩ | ⟨first, -, hfirst⟩⟩
    · rw [hrest]
      exact ih fun other hmem => h other (List.mem_cons_of_mem call hmem)
    · exact absurd hb (h call List.mem_cons_self symbol error hc)
    · exact ⟨_, hfirst⟩

/-- Calls that lead to no macro need not be expanded. -/
theorem firstBound?_of_no_candidate {calls : List Call}
    (h : ∀ call ∈ calls, expander.rules.candidate? call = none) :
    expander.firstBound? source site calls = .ok none := by
  induction calls with
  | nil => rfl
  | cons call rest ih =>
    rw [firstBound?, h call List.mem_cons_self]
    exact ih fun other hmem => h other (List.mem_cons_of_mem call hmem)

/-- When no call has to be expanded, every call of a macro forwards an ambient quote. -/
theorem firstBound?_none {calls : List Call}
    (h : expander.firstBound? source site calls = .ok none) :
    ∀ call ∈ calls, ∀ symbol, expander.rules.candidate? call = some symbol →
      expander.rules.forwardsAmbientQuote symbol (site call) = true := by
  induction calls with
  | nil => exact fun _ hmem => nomatch hmem
  | cons first rest ih =>
    intro call hmem symbol hcall
    rcases expander.firstBound?_cons source site first rest with
      ⟨hnone, hrest⟩ | ⟨other, -, ⟨error, -, hfirst⟩ | ⟨bound, -, hfirst⟩⟩
    · rw [hrest] at h
      rcases List.mem_cons.mp hmem with rfl | hmem
      · exact BindingRules.forwards_of_bind_none (hnone symbol hcall)
      · exact ih h call hmem symbol hcall
    · rw [hfirst] at h
      cases h
    · rw [hfirst] at h
      cases h

/-- The search for the next call depends on nothing but how calls are bound. -/
theorem firstBound?_congr {expander' : Expander} (h : expander'.rules = expander.rules)
    (calls : List Call) :
    expander'.firstBound? source site calls = expander.firstBound? source site calls := by
  induction calls with
  | nil => rfl
  | cons call rest ih =>
    unfold firstBound?
    rw [h, ih]

end Expander

end MacroExpansion
