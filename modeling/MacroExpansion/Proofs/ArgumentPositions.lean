import MacroExpansion.Proofs.CallOutcome
import MacroExpansion.Tree.Build

/-! # Arguments by position

Every parameter of a macro receives one argument, which depends on the parameter, on its position and
on the site of the call, and on nothing that other parameters received but the number of those that
capture. `BindingRules.Receives` lists what a parameter receives, and `BindingRules.Lacks` why it
receives nothing; `arguments_are_bound_by_position` says that binding hands out the first, one argument
per parameter, and fails with the second at the first parameter that there is nothing for. -/

namespace MacroExpansion

namespace BindingRules

/-! ## What parameters take -/

/-- Parameters of a quote type and those with the quote marker take a quote. -/
def TakesQuote (rules : BindingRules) (symbol : MethodSymbol) (index : Nat)
    (param : ParameterSymbol) : Prop :=
  param.type.isQuote = true ∨ .quoteParameter ∈ rules.markers.ofParameter symbol index

/-- Parameters of the statement and block types with a default take a statement that follows the call,
unless they take a quote. -/
def TakesStatement (rules : BindingRules) (symbol : MethodSymbol) (index : Nat)
    (param : ParameterSymbol) : Prop :=
  ¬rules.TakesQuote symbol index param ∧ (param.type = .statement ∨ param.type = .block) ∧
    param.default.isSome = true

instance (rules : BindingRules) (symbol : MethodSymbol) (index : Nat) (param : ParameterSymbol) :
    Decidable (rules.TakesQuote symbol index param) :=
  inferInstanceAs (Decidable (_ ∨ _))

instance (rules : BindingRules) (symbol : MethodSymbol) (index : Nat) (param : ParameterSymbol) :
    Decidable (rules.TakesStatement symbol index param) :=
  inferInstanceAs (Decidable (_ ∧ _ ∧ _))

/-- The number of parameters before a position that take a statement. -/
def takenBefore (rules : BindingRules) (symbol : MethodSymbol) (index : Nat) : Nat :=
  (List.range index).countP fun position =>
    (symbol.params[position]?).any fun param => rules.TakesStatement symbol position param

/-- The statement that follows a call with some others between them. -/
def followingAt (site : Site) (skipped : Nat) : Option Stmt :=
  site.block.statements[site.index + 1 + skipped]?

/-- What a parameter receives from a call, when the quotes of the call write to some buffer. -/
inductive Receives (rules : BindingRules) (symbol : MethodSymbol) (site : Site) (buffer : BufferId)
    (index : Nat) (param : ParameterSymbol) : Argument → Prop where
  /-- A quote, numbered by the position of the parameter. -/
  | quote (h : rules.TakesQuote symbol index param) :
      Receives rules symbol site buffer index param (.quote { sequence := index, site, buffer })
  /-- The next statement behind those that the parameters before it take. -/
  | statement {stmt : Stmt} (h : rules.TakesStatement symbol index param)
      (htype : param.type = .statement)
      (hnext : followingAt site (rules.takenBefore symbol index) = some stmt) :
      Receives rules symbol site buffer index param (.statement stmt)
  /-- The block that is this next statement. -/
  | block {block : Block} (h : rules.TakesStatement symbol index param)
      (htype : param.type = .block)
      (hnext : followingAt site (rules.takenBefore symbol index) = some (.block block)) :
      Receives rules symbol site buffer index param (.block block)
  /-- The default. -/
  | default {value : Literal} (hquote : ¬rules.TakesQuote symbol index param)
      (hstatement : ¬rules.TakesStatement symbol index param) (h : param.default = some value) :
      Receives rules symbol site buffer index param (.constant value)
  /-- The value of the argument at the position. -/
  | constant {expr : Expr} {value : Literal} (hquote : ¬rules.TakesQuote symbol index param)
      (hdefault : param.default = none) (harg : site.call.args[index]? = some expr)
      (h : rules.model.constantValue expr = some value) :
      Receives rules symbol site buffer index param (.constant value)
  /-- The argument at the position as written, when it has no constant value. -/
  | written {expr : Expr} (hquote : ¬rules.TakesQuote symbol index param)
      (hdefault : param.default = none) (harg : site.call.args[index]? = some expr)
      (h : rules.model.constantValue expr = none) :
      Receives rules symbol site buffer index param (.written expr)
  /-- A placeholder, when there is no argument at the position and the policy allows it. -/
  | missing (hquote : ¬rules.TakesQuote symbol index param) (hdefault : param.default = none)
      (harg : site.call.args[index]? = none) (h : rules.missing = .placeholder) :
      Receives rules symbol site buffer index param .missing

/-- Why a parameter receives nothing, and where that is reported. -/
inductive Lacks (rules : BindingRules) (symbol : MethodSymbol) (site : Site) (index : Nat)
    (param : ParameterSymbol) : Fault → Span → Prop where
  /-- Too few statements follow the call. -/
  | nothingToCapture (h : rules.TakesStatement symbol index param)
      (hnext : followingAt site (rules.takenBefore symbol index) = none) :
      Lacks rules symbol site index param
        (.nothingToCapture symbol.qualifiedName param.name) site.call.span
  /-- The statement that it takes is no block. -/
  | blockRequired {stmt : Stmt} (h : rules.TakesStatement symbol index param)
      (htype : param.type = .block)
      (hnext : followingAt site (rules.takenBefore symbol index) = some stmt)
      (hblock : ∀ block, stmt ≠ .block block) :
      Lacks rules symbol site index param
        (.blockRequired symbol.qualifiedName param.name) stmt.span
  /-- There is no argument at the position, and the policy allows no placeholder. -/
  | missingArgument (hquote : ¬rules.TakesQuote symbol index param) (hdefault : param.default = none)
      (harg : site.call.args[index]? = none) (h : rules.missing = .error) :
      Lacks rules symbol site index param
        (.missingArgument symbol.qualifiedName param.name) site.call.span

variable {rules : BindingRules} {symbol : MethodSymbol} {site : Site} {source : Option SourceText}
  {buffer : BufferId} {index : Nat} {param : ParameterSymbol} {arg arg' : Argument} {fault : Fault}
  {span : Span}

/-- What a parameter lacks is reported as a fault of binding. -/
theorem Lacks.kind_eq (h : rules.Lacks symbol site index param fault span) :
    fault.kind = .binding := by
  cases h <;> rfl

/-- Where a parameter lacks something it receives nothing. -/
theorem Lacks.not_receives (h : rules.Lacks symbol site index param fault span) :
    ¬rules.Receives symbol site buffer index param arg := by
  intro hreceives
  cases h with
  | nothingToCapture h hnext => cases hreceives <;> simp_all [TakesStatement]
  | missingArgument hquote hdefault harg h => cases hreceives <;> simp_all [TakesStatement]
  | blockRequired h htype hnext hblock =>
    cases hreceives with
    | block _ _ hother =>
      rw [hnext] at hother
      exact hblock _ (Option.some.inj hother)
    | _ => simp_all [TakesStatement]

/-- A parameter receives one argument only. -/
theorem Receives.unique (h : rules.Receives symbol site buffer index param arg)
    (h' : rules.Receives symbol site buffer index param arg') : arg = arg' := by
  cases h <;> cases h' <;> simp_all [TakesStatement]

/-! ## What binding hands out -/

/-- The rules tell a parameter for one of a quote exactly if it takes one. -/
theorem isQuoteParameter_iff (hparam : symbol.params[index]? = some param) :
    rules.isQuoteParameter symbol index = true ↔ rules.TakesQuote symbol index param := by
  simp [isQuoteParameter, TakesQuote, hparam]

/-- A parameter takes the part that its type, its markers and its default leave it. -/
theorem role_cases (rules : BindingRules) (hparam : symbol.params[index]? = some param) :
    (rules.TakesQuote symbol index param ∧ rules.role symbol index param = .quote) ∨
    (rules.TakesStatement symbol index param ∧ rules.role symbol index param = .capture) ∨
    (∃ value, ¬rules.TakesQuote symbol index param ∧ ¬rules.TakesStatement symbol index param ∧
      param.default = some value ∧ rules.role symbol index param = .default value) ∨
    (¬rules.TakesQuote symbol index param ∧ param.default = none ∧
      rules.role symbol index param = .argument) := by
  have hcapture : param.type.isCapture = true ↔ param.type = .statement ∨ param.type = .block := by
    cases param.type <;> simp [TypeRef.isCapture]
  by_cases hquote : rules.TakesQuote symbol index param
  · exact .inl ⟨hquote, by rw [role, if_pos ((isQuoteParameter_iff hparam).mpr hquote)]⟩
  · have hplain : ¬rules.isQuoteParameter symbol index = true :=
      mt (isQuoteParameter_iff hparam).mp hquote
    cases hdefault : param.default with
    | none =>
      have hrole : rules.role symbol index param = .argument := by
        simp only [role, if_neg hplain, hdefault]
      exact .inr (.inr (.inr ⟨hquote, rfl, hrole⟩))
    | some value =>
      by_cases htype : param.type = .statement ∨ param.type = .block
      · have hrole : rules.role symbol index param = .capture := by
          simp only [role, if_neg hplain, hdefault, if_pos (hcapture.mpr htype)]
        exact .inr (.inl ⟨⟨hquote, htype, by rw [hdefault]; rfl⟩, hrole⟩)
      · have hrole : rules.role symbol index param = .default value := by
          simp only [role, if_neg hplain, hdefault, if_neg (mt hcapture.mp htype)]
        exact .inr (.inr (.inl ⟨value, hquote, fun h => htype h.2.1, rfl, hrole⟩))

/-- The statements that follow a call are found by their positions in the block. -/
theorem following?_eq (site : Site) (skipped : Nat) :
    site.following? skipped = followingAt site skipped := by
  rw [Site.following?, Site.following, followingAt, List.getElem?_drop]

/-- One parameter more takes one statement more, or none. -/
theorem takenBefore_succ (hparam : symbol.params[index]? = some param) :
    rules.takenBefore symbol (index + 1) =
      rules.takenBefore symbol index + if rules.TakesStatement symbol index param then 1 else 0 := by
  unfold takenBefore
  rw [List.range_succ, List.countP_append, List.countP_singleton, hparam]
  simp

/-- A capture hands out the next statement that is left, or says why it cannot. -/
theorem capture_cases (site : Site) (source : Option SourceText) (buffer : BufferId)
    (htakes : rules.TakesStatement symbol index param) :
    (∃ arg, capture symbol param site (rules.takenBefore symbol index) source = .ok arg ∧
      rules.Receives symbol site buffer index param arg) ∨
    ∃ fault span, capture symbol param site (rules.takenBefore symbol index) source =
        .error (.atSpan fault span source) ∧ rules.Lacks symbol site index param fault span := by
  unfold capture
  rw [following?_eq]
  cases hnext : followingAt site (rules.takenBefore symbol index) with
  | none => exact .inr ⟨_, _, rfl, .nothingToCapture htakes hnext⟩
  | some next =>
    rcases htakes.2.1 with htype | htype
    · exact .inl ⟨.statement next, by rw [htype], .statement htakes htype hnext⟩
    · rw [htype]
      by_cases hblock : ∃ block, next = .block block
      · obtain ⟨block, rfl⟩ := hblock
        exact .inl ⟨.block block, rfl, .block htakes htype hnext⟩
      · have hother : ∀ block, next ≠ .block block := not_exists.mp hblock
        refine .inr ⟨_, next.span, ?_, .blockRequired htakes htype hnext hother⟩
        cases next with
        | block block => exact absurd rfl (hother block)
        | _ => rfl

/-- The call supplies the argument at the position of the parameter, or the policy decides. -/
theorem supplied_cases (site : Site) (source : Option SourceText) (buffer : BufferId)
    (hquote : ¬rules.TakesQuote symbol index param) (hdefault : param.default = none) :
    (∃ arg, rules.supplied symbol index param site source = .ok arg ∧
      rules.Receives symbol site buffer index param arg) ∨
    ∃ fault span, rules.supplied symbol index param site source =
        .error (.atSpan fault span source) ∧ rules.Lacks symbol site index param fault span := by
  unfold supplied
  cases harg : site.call.args[index]? with
  | none =>
    cases hmissing : rules.missing with
    | error => exact .inr ⟨_, _, rfl, .missingArgument hquote hdefault harg hmissing⟩
    | placeholder => exact .inl ⟨_, rfl, .missing hquote hdefault harg hmissing⟩
  | some expr =>
    cases hvalue : rules.model.constantValue expr with
    | none =>
      exact .inl ⟨.written expr, by simp only [hvalue], .written hquote hdefault harg hvalue⟩
    | some value =>
      exact .inl ⟨.constant value, by simp only [hvalue], .constant hquote hdefault harg hvalue⟩

/-- A parameter receives its argument and leaves the statements that are not taken yet, or what it
lacks is reported. -/
theorem bindParam_cases (rules : BindingRules) (site : Site) (source : Option SourceText)
    (buffer : BufferId) (hparam : symbol.params[index]? = some param) :
    (∃ arg, rules.bindParam symbol (Quote.of site buffer) source param index
          (rules.takenBefore symbol index) = .ok (arg, rules.takenBefore symbol (index + 1)) ∧
      rules.Receives symbol site buffer index param arg) ∨
    ∃ fault span, rules.bindParam symbol (Quote.of site buffer) source param index
          (rules.takenBefore symbol index) = .error (.atSpan fault span source) ∧
      rules.Lacks symbol site index param fault span := by
  rw [takenBefore_succ hparam]
  unfold bindParam
  -- one case for each role that the parameter may have at this call
  rcases role_cases rules hparam with
    ⟨hquote, hrole⟩ | ⟨htakes, hrole⟩ | ⟨value, hquote, hnot, hdefault, hrole⟩ |
      ⟨hquote, hdefault, hrole⟩
  · have hnot : ¬rules.TakesStatement symbol index param := fun h => h.1 hquote
    rw [hrole, if_neg hnot]
    exact .inl ⟨_, rfl, .quote hquote⟩
  · rw [hrole, if_pos htakes]
    rcases capture_cases site source buffer htakes with
      ⟨arg, hcapture, hreceives⟩ | ⟨fault, span, hcapture, hlacks⟩
    · exact .inl ⟨arg, except_map_ok.mpr ⟨arg, hcapture, rfl⟩, hreceives⟩
    · exact .inr ⟨fault, span, except_map_error.mpr hcapture, hlacks⟩
  · rw [hrole, if_neg hnot]
    exact .inl ⟨_, rfl, .default hquote hnot hdefault⟩
  · have hnot : ¬rules.TakesStatement symbol index param := fun h => by
      simpa [hdefault] using h.2.2
    rw [hrole, if_neg hnot]
    rcases supplied_cases site source buffer hquote hdefault with
      ⟨arg, hsupplied, hreceives⟩ | ⟨fault, span, hsupplied, hlacks⟩
    · exact .inl ⟨arg, except_map_ok.mpr ⟨arg, hsupplied, rfl⟩, hreceives⟩
    · exact .inr ⟨fault, span, except_map_error.mpr hsupplied, hlacks⟩

/-- The parameters from a position on receive their arguments one by one, up to the first one that
there is nothing for. -/
theorem bindParams_cases (rules : BindingRules) (site : Site) (source : Option SourceText)
    (buffer : BufferId) {front params : List ParameterSymbol}
    (hparams : symbol.params = front ++ params) (hindex : index = front.length) :
    (∃ args, rules.bindParams symbol (Quote.of site buffer) source params index
          (rules.takenBefore symbol index) =
        .ok (args, rules.takenBefore symbol symbol.params.length) ∧
      args.length = params.length ∧ ∀ offset param arg, params[offset]? = some param →
        args[offset]? = some arg → rules.Receives symbol site buffer (index + offset) param arg) ∨
    ∃ offset param fault span, params[offset]? = some param ∧
      rules.bindParams symbol (Quote.of site buffer) source params index
          (rules.takenBefore symbol index) = .error (.atSpan fault span source) ∧
      rules.Lacks symbol site (index + offset) param fault span ∧
      ∀ earlier other, earlier < offset → params[earlier]? = some other →
        ∃ arg, rules.Receives symbol site buffer (index + earlier) other arg := by
  induction params generalizing front index with
  | nil =>
    have hlast : index = symbol.params.length := by simp [hparams, hindex]
    exact .inl ⟨[], by rw [← hlast]; rfl, rfl, fun offset param arg hparam => by cases hparam⟩
  | cons param rest ih =>
    have hparam : symbol.params[index]? = some param := by simp [hparams, hindex]
    rcases bindParam_cases rules site source buffer hparam with
      ⟨arg, hfirst, hreceives⟩ | ⟨fault, span, hfirst, hlacks⟩
    · -- the others are those of a shorter list behind a longer front
      have hsplit : symbol.params = (front ++ [param]) ++ rest := by simp [hparams]
      have hnext : index + 1 = (front ++ [param]).length := by simp [hindex]
      rcases ih hsplit hnext with
        ⟨args, hrest, hlength, hothers⟩ | ⟨offset, last, fault, span, hlast, hrest, hlacks, hothers⟩
      · refine .inl ⟨arg :: args, bindParams_cons_ok.mpr ⟨arg, _, args, hfirst, hrest, rfl⟩,
          by rw [List.length_cons, List.length_cons, hlength], fun offset other given => ?_⟩
        cases offset with
        | zero =>
          rintro ⟨⟩ ⟨⟩
          exact hreceives
        | succ offset =>
          intro hother hgiven
          rw [← Nat.add_assoc, Nat.add_right_comm]
          exact hothers offset other given hother hgiven
      · refine .inr ⟨offset + 1, last, fault, span, hlast, ?_, ?_, fun earlier other hlt => ?_⟩
        · rw [bindParams_cons, hfirst]
          change (rules.bindParams symbol _ source rest (index + 1) _ >>= _) = _
          rw [hrest]
          rfl
        · rwa [← Nat.add_assoc, Nat.add_right_comm]
        · cases earlier with
          | zero =>
            rintro ⟨⟩
            exact ⟨arg, hreceives⟩
          | succ earlier =>
            rw [← Nat.add_assoc, Nat.add_right_comm]
            exact hothers earlier other (Nat.lt_of_succ_lt_succ hlt)
    · -- nothing is bound behind a parameter that lacks its argument
      refine .inr ⟨0, param, fault, span, rfl, ?_, hlacks, fun earlier _ hlt => by cases hlt⟩
      rw [bindParams_cons, hfirst]
      rfl

/-- What a call comes to that is bound by position. -/
structure BoundByPosition (rules : BindingRules) (symbol : MethodSymbol) (site : Site)
    (bound : BoundCall) : Prop where
  /-- It is a call of the macro. -/
  symbol_eq : bound.symbol = symbol
  /-- It stands at the site. -/
  site_eq : bound.site = site
  /-- Its buffer is a new one. -/
  fresh : (bound.buffer, bound.buffers) = Buffers.create {}
  /-- Nothing is written to it yet. -/
  empty : bound.buffers.fragments bound.buffer = []
  /-- There is one argument per parameter. -/
  length_args : bound.args.length = symbol.params.length
  /-- It is the one that the parameter receives. -/
  receives : ∀ index param arg, symbol.params[index]? = some param → bound.args[index]? = some arg →
    rules.Receives symbol site bound.buffer index param arg
  /-- As many statements are captured as parameters take one. -/
  captured_eq : bound.captured = rules.takenBefore symbol symbol.params.length
  /-- That many follow the call. -/
  captured_le : bound.captured ≤ site.block.statements.length - (site.index + 1)
  /-- The parameters with a placeholder are listed in order. -/
  placeholders_eq : bound.placeholders =
    ((symbol.params.zip bound.args).filter fun (_, arg) => arg == .missing).map fun (param, _) =>
      param.name

/-- There is one way only to bind a call by position. -/
theorem BoundByPosition.unique {bound other : BoundCall}
    (h : rules.BoundByPosition symbol site bound) (h' : rules.BoundByPosition symbol site other) :
    bound = other := by
  have hcreate := h.fresh.trans h'.fresh.symm
  have hbuffer : bound.buffer = other.buffer := congrArg Prod.fst hcreate
  have hargs : bound.args = other.args := by
    refine List.ext_getElem (h.length_args.trans h'.length_args.symm) fun index hlt hlt' => ?_
    have hparam : index < symbol.params.length := h.length_args ▸ hlt
    refine (h.receives index _ _ (List.getElem?_eq_getElem hparam)
      (List.getElem?_eq_getElem hlt)).unique ?_
    rw [hbuffer]
    exact h'.receives index _ _ (List.getElem?_eq_getElem hparam) (List.getElem?_eq_getElem hlt')
  have hplaceholders : bound.placeholders = other.placeholders := by
    rw [h.placeholders_eq, h'.placeholders_eq, hargs]
  have hcaptured := h.captured_eq.trans h'.captured_eq.symm
  have hsymbol := h.symbol_eq.trans h'.symbol_eq.symm
  have hsite := h.site_eq.trans h'.site_eq.symm
  have hbuffers : bound.buffers = other.buffers := congrArg Prod.snd hcreate
  cases bound
  cases other
  simp_all

/-- A call that forwards no ambient quote is bound by position, or reported for the first of its
parameters that there is nothing for. -/
theorem bind_cases (source : Option SourceText)
    (hforwards : rules.forwardsAmbientQuote symbol site = false) :
    (∃ bound, rules.bind symbol site source = .ok (some bound) ∧
      rules.BoundByPosition symbol site bound) ∨
    ∃ index param fault span, symbol.params[index]? = some param ∧
      rules.bind symbol site source = .error (.atSpan fault span source) ∧
      rules.Lacks symbol site index param fault span ∧
      ∀ earlier other, earlier < index → symbol.params[earlier]? = some other →
        ∃ buffer arg, rules.Receives symbol site buffer earlier other arg := by
  have hstart : rules.takenBefore symbol 0 = 0 := rfl
  have hbind := rules.bind_eq symbol site source
  rw [hforwards, if_neg Bool.false_ne_true] at hbind
  have hfront : symbol.params = [] ++ symbol.params := rfl
  have hindex : 0 = ([] : List ParameterSymbol).length := rfl
  rcases bindParams_cases rules site source (Buffers.create {}).1 hfront hindex with
    ⟨args, hparams, hlength, hreceives⟩ | ⟨index, param, fault, span, hparam, hparams, hlacks, hothers⟩
  · rw [hstart] at hparams
    rw [hparams] at hbind
    refine .inl ⟨_, hbind, ?_⟩
    -- no more is captured than there is behind the call
    have hle := bindParams_captured_le (Nat.zero_le _) hparams
    exact {
      symbol_eq := rfl
      site_eq := rfl
      fresh := rfl
      empty := rfl
      length_args := hlength
      receives := fun index param arg hparam harg => by
        have := hreceives index param arg hparam harg
        rwa [Nat.zero_add] at this
      captured_eq := rfl
      captured_le := by rwa [Site.following, List.length_drop] at hle
      placeholders_eq := rfl }
  · rw [hstart] at hparams
    rw [hparams] at hbind
    rw [Nat.zero_add] at hlacks
    refine .inr ⟨index, param, fault, span, hparam, hbind, hlacks, fun earlier other hlt hother => ?_⟩
    have hearlier := hothers earlier other hlt hother
    rw [Nat.zero_add] at hearlier
    exact ⟨_, hearlier⟩

end BindingRules

/-- A call that forwards no ambient quote is bound in one way: every parameter receives what is left
for it at its position. It fails exactly when there is nothing for some parameter, and the error is
a fault of binding that stands for the first such parameter. -/
theorem arguments_are_bound_by_position (rules : BindingRules) (symbol : MethodSymbol) (site : Site)
    (source : Option SourceText) (hforwards : rules.forwardsAmbientQuote symbol site = false) :
    (∀ bound, rules.bind symbol site source = .ok (some bound) ↔
      rules.BoundByPosition symbol site bound) ∧
    ((∃ error, rules.bind symbol site source = .error error) ↔
      ∃ index param, symbol.params[index]? = some param ∧
        ∀ buffer arg, ¬rules.Receives symbol site buffer index param arg) ∧
    (∀ error, rules.bind symbol site source = .error error →
      error.kind = .binding ∧ ∃ index param fault span, symbol.params[index]? = some param ∧
        rules.Lacks symbol site index param fault span ∧ error = .atSpan fault span source ∧
        ∀ earlier other, earlier < index → symbol.params[earlier]? = some other →
          ∃ buffer arg, rules.Receives symbol site buffer earlier other arg) ∧
    rules.bind symbol site source ≠ .ok none := by
  rcases BindingRules.bind_cases source hforwards with
    ⟨bound, hbind, hbound⟩ | ⟨index, param, fault, span, hparam, hbind, hlacks, hearlier⟩
  · have hnever : ∀ error, rules.bind symbol site source ≠ .error error := by simp [hbind]
    refine ⟨fun other => ⟨fun h => ?_, fun h => ?_⟩, ⟨fun ⟨error, h⟩ => absurd h (hnever error), ?_⟩,
      fun error h => absurd h (hnever error), by simp [hbind]⟩
    · rw [hbind] at h
      cases h
      exact hbound
    · rw [hbind, hbound.unique h]
    · rintro ⟨index, param, hparam, hnothing⟩
      have hlt : index < bound.args.length :=
        hbound.length_args ▸ (List.getElem?_eq_some_iff.mp hparam).1
      exact absurd (hbound.receives index param _ hparam (List.getElem?_eq_getElem hlt))
        (hnothing _ _)
  · refine ⟨fun bound => ⟨fun h => ?_, fun h => ?_⟩,
      ⟨fun _ => ⟨index, param, hparam, fun _ _ => hlacks.not_receives⟩, fun _ => ⟨_, hbind⟩⟩,
      fun error h => ?_, by simp [hbind]⟩
    · rw [hbind] at h
      cases h
    · have hlt : index < bound.args.length :=
        h.length_args ▸ (List.getElem?_eq_some_iff.mp hparam).1
      exact absurd (h.receives index param _ hparam (List.getElem?_eq_getElem hlt))
        hlacks.not_receives
    · rw [hbind] at h
      cases h
      exact ⟨hlacks.kind_eq, index, param, fault, span, hparam, hlacks, rfl, hearlier⟩

/-- A macro with parameters of every kind: a number, a captured statement, a quote, a text with a
default, and a captured block. -/
def everyKindMacro : MethodSymbol where
  id := ⟨0⟩
  declaringType := "Meta"
  name := "Every"
  params := [
    { name := "count", type := .int }, { name := "body", type := .statement, default := some .null },
    .quote "quote", { name := "label", type := .string, default := some (.string "x") },
    { name := "last", type := .block, default := some .null }, { name := "unit", type := .string }]

/-- Three statements: a call of the macro, one that it captures, and a block that it captures. -/
def everyKindSite : Site where
  file := "every.cs"
  call := .plain "Every" [.ofInt 3]
  statement := .evaluate (.callOf "Every" [.ofInt 3])
  enclosing := .topLevel
  function := none
  block := .of [.evaluate (.callOf "Every" [.ofInt 3]), .evaluate (.callOf "Log" []),
    .blockOf [.nothing]]
  index := 0

/-- Captures take the statements behind the call one after the other and leave its arguments alone;
the last parameter is too far behind for an argument. -/
theorem arguments_are_bound_by_position_six :
    let rules : BindingRules :=
      { model := { bindCall := fun _ => some everyKindMacro, declaredSymbol := fun _ => none }
        markers := .stored
        missing := .placeholder }
    rules.forwardsAmbientQuote everyKindMacro everyKindSite = false ∧
    ∃ bound, rules.bind everyKindMacro everyKindSite none = .ok (some bound) ∧
      rules.BoundByPosition everyKindMacro everyKindSite bound ∧
      bound.args = [.constant (.int 3), .statement (.evaluate (.callOf "Log" [])),
        .quote { sequence := 2, site := everyKindSite, buffer := bound.buffer }, .constant (.string "x"),
        .block (.of [.nothing]), .missing] ∧
      bound.captured = 2 ∧ bound.placeholders = ["unit"] := by
  intro rules
  have hforwards : rules.forwardsAmbientQuote everyKindMacro everyKindSite = false := rfl
  obtain ⟨hbound, -⟩ := arguments_are_bound_by_position rules everyKindMacro everyKindSite none hforwards
  exact ⟨hforwards, _, rfl, (hbound _).mp rfl, rfl, rfl, rfl⟩

end MacroExpansion
