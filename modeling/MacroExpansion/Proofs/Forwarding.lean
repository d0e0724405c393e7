import MacroExpansion.Proofs.SeenFunction

/-! # Quotes that are passed on

A call that passes a quote parameter of the function around it on to another macro is left as code.
Binding recognizes the parameter by the symbol of the function; but the table is asked for that symbol
by the simple name of the function, and gives it only if no other type declares a function of that
name. Otherwise the type that is written on the parameter decides, and a parameter that is a quote by
its marker alone goes unrecognized (`bind_eq_none_iff`).

So what holds of every expansion is that no macro is invoked for a call that passes on a recognized
quote parameter (`recognized_quotes_are_left_as_code`). -/

namespace MacroExpansion

/-! ## Symbol tables -/

/-- Functions that are told apart by their identities. -/
def MethodSymbol.ToldApart (symbols : List MethodSymbol) : Prop :=
  ∀ symbol ∈ symbols, ∀ other ∈ symbols, symbol.id = other.id → symbol = other

namespace SymbolTable

/-- The table in which functions were declared in order. -/
def declaring (symbols : List MethodSymbol) : SymbolTable :=
  symbols.foldl declare {}

/-- Every function that a qualified name leads to was declared under that name and is listed under
its simple name. -/
def Lists (table : SymbolTable) (declared : List MethodSymbol) : Prop :=
  ∀ path symbol, table.byPath.lookup path = some symbol →
    symbol ∈ declared ∧ symbol.qualifiedName = path ∧ symbol ∈ table.named symbol.name

/-- A declared function is listed. -/
theorem mem_named_declare_self (table : SymbolTable) (symbol : MethodSymbol) :
    symbol ∈ (table.declare symbol).named symbol.name := by
  simp [named, declare]

/-- A listed function stays listed, unless the one that is displaced has its identity. -/
theorem mem_named_declare {table : SymbolTable} {symbol other : MethodSymbol}
    (h : other ∈ table.named other.name)
    (hdisplaced : ∀ previous, table.displaced? symbol = some previous → other.id ≠ previous.id) :
    other ∈ (table.declare symbol).named other.name := by
  by_cases hname : other.name = symbol.name
  · rw [hname] at h ⊢
    rw [named, declare, Keyed.lookup_put_self]
    refine List.mem_append_left _ ?_
    cases hprevious : table.displaced? symbol with
    | none => exact h
    | some previous =>
      refine List.mem_filter.mpr ⟨h, ?_⟩
      exact bne_iff_ne.mpr (hdisplaced previous hprevious)
  · rw [named, declare, Keyed.lookup_put_of_ne _ hname]
    exact h

/-- A further declaration is listed as well, and displaces nothing else. -/
theorem Lists.declare {table : SymbolTable} {declared : List MethodSymbol} {symbol : MethodSymbol}
    (h : table.Lists declared) (hapart : MethodSymbol.ToldApart declared) :
    (table.declare symbol).Lists (declared ++ [symbol]) := by
  intro path found hfound
  by_cases hpath : path = symbol.qualifiedName
  · -- the path of the new function
    rw [hpath, SymbolTable.declare, Keyed.lookup_put_self] at hfound
    cases hfound
    exact ⟨List.mem_append_right _ List.mem_cons_self, hpath.symm, mem_named_declare_self table _⟩
  · rw [SymbolTable.declare, Keyed.lookup_put_of_ne _ hpath] at hfound
    obtain ⟨hmem, rfl, hnamed⟩ := h path found hfound
    refine ⟨List.mem_append_left _ hmem, rfl, mem_named_declare hnamed fun previous hprevious hid => ?_⟩
    -- what is displaced has the qualified name of the new function
    obtain ⟨hmem', hpath', -⟩ := h _ previous hprevious
    rw [hapart found hmem previous hmem' hid] at hpath
    exact hpath hpath'

/-- In a table of functions that are told apart, the current ones are listed. -/
theorem lists_declaring {symbols : List MethodSymbol} (hapart : MethodSymbol.ToldApart symbols) :
    (declaring symbols).Lists symbols := by
  -- on from any table that lists what was declared before
  have hfold (rest : List MethodSymbol) : ∀ (table : SymbolTable) (declared : List MethodSymbol),
      table.Lists declared → MethodSymbol.ToldApart (declared ++ rest) →
      (rest.foldl SymbolTable.declare table).Lists (declared ++ rest) := by
    induction rest with
    | nil =>
      intro table declared h _
      rw [List.append_nil]
      exact h
    | cons symbol rest ih =>
      intro table declared h hapart
      rw [List.append_cons] at hapart ⊢
      refine ih _ _ (h.declare fun first hfirst second hsecond => ?_) hapart
      exact hapart first (by simp [hfirst]) second (by simp [hsecond])
  exact hfold symbols {} [] (fun _ _ hfound => nomatch hfound) hapart

/-- Names lead to no other functions than these. -/
structure KnowsOnly (table : SymbolTable) (symbols : List MethodSymbol) : Prop where
  /-- Nor do qualified names. -/
  byPath {path : String} {found : MethodSymbol} (h : table.byPath.lookup path = some found) :
    found ∈ symbols
  /-- Nor do simple names. -/
  named {name : String} {found : MethodSymbol} (h : found ∈ table.named name) : found ∈ symbols

/-- A further declaration makes one more function known. -/
theorem KnowsOnly.declare {table : SymbolTable} {symbols : List MethodSymbol}
    (h : table.KnowsOnly symbols) (symbol : MethodSymbol) :
    (table.declare symbol).KnowsOnly (symbols ++ [symbol]) := by
  refine ⟨fun {path found} hfound => ?_, fun {name found} hfound => ?_⟩
  · by_cases hpath : path = symbol.qualifiedName
    · rw [hpath, SymbolTable.declare, Keyed.lookup_put_self] at hfound
      cases hfound
      exact List.mem_append_right _ List.mem_cons_self
    · rw [SymbolTable.declare, Keyed.lookup_put_of_ne _ hpath] at hfound
      exact List.mem_append_left _ (h.byPath hfound)
  · by_cases hname : name = symbol.name
    · rw [hname, SymbolTable.named, SymbolTable.declare, Keyed.lookup_put_self] at hfound
      rcases List.mem_append.mp hfound with hkept | hnew
      · -- what is kept was listed before
        refine List.mem_append_left _ (h.named (?_ : found ∈ table.named symbol.name))
        cases hdisplaced : table.displaced? symbol with
        | none => simpa only [hdisplaced] using hkept
        | some previous =>
          rw [hdisplaced] at hkept
          exact List.mem_of_mem_filter hkept
      · exact List.mem_append_right _ hnew
    · rw [SymbolTable.named, SymbolTable.declare, Keyed.lookup_put_of_ne _ hname] at hfound
      exact List.mem_append_left _ (h.named hfound)

/-- A table knows only what was declared. -/
theorem knowsOnly_declaring (symbols : List MethodSymbol) :
    (declaring symbols).KnowsOnly symbols := by
  induction symbols using List.reverseRecOn with
  | nil => exact ⟨nofun, nofun⟩
  | append_singleton symbols symbol ih =>
    rw [declaring, List.foldl_append]
    exact ih.declare symbol

/-- What a path leads to was declared. -/
theorem mem_of_get?_declaring {symbols : List MethodSymbol} {path : String} {found : MethodSymbol}
    (h : (declaring symbols).get? path = some found) : found ∈ symbols := by
  have hknows := knowsOnly_declaring symbols
  unfold get? at h
  cases hpath : (declaring symbols).byPath.lookup path with
  | some current =>
    rw [hpath] at h
    cases h
    exact hknows.byPath hpath
  | none =>
    rw [hpath] at h
    dsimp only [unambiguous?] at h
    split at h
    next only honly =>
      cases h
      have hnamed : found ∈ (declaring symbols).named path := honly ▸ List.mem_cons_self
      exact hknows.named hnamed
    next => cases h

/-- A function is the current one of its qualified name and has the simple name of a declaration. -/
structure Declares (table : SymbolTable) (own : MethodSymbol) (decl : FunctionDecl) : Prop where
  /-- Its qualified name leads to it. -/
  current : table.byPath.lookup own.qualifiedName = some own
  /-- It has the simple name. -/
  name : own.name = decl.name

/-- Binding recognizes a quote parameter of a declaration: no other function has the simple name of
its symbol, or the parameter is written with a quote type. -/
def Recognizes (table : SymbolTable) (own : MethodSymbol) (decl : FunctionDecl) (position : Nat) :
    Prop :=
  table.named own.name = [own] ∨ (decl.params[position]?).any (·.type.isQuote) = true

end SymbolTable

/-! ## Binding -/

namespace BindingRules

/-- The call gives a quote parameter of the macro the bare name of a parameter of the function. -/
def PassesParameter (rules : BindingRules) (symbol : MethodSymbol) (decl : FunctionDecl) (call : Call)
    (position : Nat) : Prop :=
  ∃ index name, rules.isQuoteParameter symbol index = true ∧
    (call.args.map Expr.asName?)[index]? = some (some name) ∧
    decl.params.findIdx? (·.name == name) = some position

/-- The call gives a quote parameter of its macro the bare name of a parameter of the function that is
a quote parameter of the function's symbol. -/
def PassesOn (rules : BindingRules) (own : MethodSymbol) (decl : FunctionDecl) (call : Call)
    (position : Nat) : Prop :=
  ∃ symbol, rules.candidate? call = some symbol ∧
    rules.PassesParameter symbol decl call position ∧ rules.isQuoteParameter own position = true

/-- Binding takes a parameter for a quote: the symbol decides if it is the only one of its simple
name, else the type that is written. -/
def TakesForQuote (rules : BindingRules) (table : SymbolTable) (own : MethodSymbol)
    (decl : FunctionDecl) (position : Nat) : Prop :=
  if table.named own.name = [own] then rules.isQuoteParameter own position = true
  else (decl.params[position]?).any (·.type.isQuote) = true

variable {rules : BindingRules} {table : SymbolTable} {own symbol : MethodSymbol}
  {decl : FunctionDecl} {site : Site} {source : Option SourceText} {position : Nat}

/-- Which names are taken for quotes of a function whose symbol is listed. -/
theorem isAmbientQuote_iff (hmodel : rules.model = table.model) (hname : own.name = decl.name)
    (hown : own ∈ table.named own.name) {name : String} :
    rules.isAmbientQuote decl name = true ↔
      ∃ position, decl.params.findIdx? (·.name == name) = some position ∧
        rules.TakesForQuote table own decl position := by
  have hdeclared : rules.model.declaredSymbol decl = table.unambiguous? own.name := by
    rw [hmodel, hname]
    rfl
  unfold isAmbientQuote
  cases decl.params.findIdx? (·.name == name) with
  | none => simp
  | some position =>
    by_cases honly : table.named own.name = [own]
    · have hsymbol : table.unambiguous? own.name = some own := by
        rw [SymbolTable.unambiguous?, honly]
      simp [hdeclared, hsymbol, honly, TakesForQuote]
    · -- the name is listed for another function as well
      have hsymbol : table.unambiguous? own.name = none := by
        unfold SymbolTable.unambiguous?
        split
        · rename_i only hnamed
          rw [hnamed] at hown honly
          rw [List.mem_singleton.mp hown] at honly
          exact absurd rfl honly
        · rfl
      simp [hdeclared, hsymbol, honly, TakesForQuote]

/-- A call is left as code exactly when it passes on a parameter that is taken for a quote. -/
theorem bind_eq_none_iff (hmodel : rules.model = table.model) (hname : own.name = decl.name)
    (hown : own ∈ table.named own.name) (hfunction : site.function = some decl) :
    rules.bind symbol site source = .ok none ↔
      ∃ position, rules.PassesParameter symbol decl site.call position ∧
        rules.TakesForQuote table own decl position := by
  have hbind : rules.bind symbol site source = .ok none ↔
      rules.forwardsAmbientQuote symbol site = true := by
    refine ⟨forwards_of_bind_none, fun hforwards => ?_⟩
    rw [bind, if_pos hforwards]
    rfl
  rw [hbind, forwardsAmbientQuote_iff]
  constructor
  · rintro ⟨_, hdecl, index, name, hquote, harg, hambient⟩
    obtain rfl := Option.some.inj (hfunction.symm.trans hdecl)
    obtain ⟨position, hposition, htaken⟩ := (isAmbientQuote_iff hmodel hname hown).mp hambient
    exact ⟨position, ⟨index, name, hquote, harg, hposition⟩, htaken⟩
  · rintro ⟨position, ⟨index, name, hquote, harg, hposition⟩, htaken⟩
    refine ⟨decl, hfunction, index, name, hquote, harg, ?_⟩
    exact (isAmbientQuote_iff hmodel hname hown).mpr ⟨position, hposition, htaken⟩

/-- A recognized quote parameter is taken for a quote. -/
theorem takesForQuote_of_recognizes (hquote : rules.isQuoteParameter own position = true)
    (h : table.Recognizes own decl position) : rules.TakesForQuote table own decl position := by
  unfold TakesForQuote
  split
  · exact hquote
  · exact h.resolve_left ‹_›

/-- A bound call passes on no recognized quote parameter of the function around it. -/
theorem Binds.not_passesOn (hmodel : rules.model = table.model) (hname : own.name = decl.name)
    (hown : own ∈ table.named own.name) (h : rules.Binds site) (hfunction : site.function = some decl)
    (hrecognizes : table.Recognizes own decl position) :
    ¬rules.PassesOn own decl site.call position := by
  rintro ⟨symbol, hsymbol, ⟨index, name, hquote, harg, hposition⟩, hpassed⟩
  obtain ⟨_, hsymbol', hforwards⟩ := h.leads
  obtain rfl := Option.some.inj (hsymbol.symm.trans hsymbol')
  have hambient : rules.isAmbientQuote decl name = true :=
    (isAmbientQuote_iff hmodel hname hown).mpr
      ⟨position, hposition, takesForQuote_of_recognizes hpassed hrecognizes⟩
  have hleft : rules.forwardsAmbientQuote symbol site = true :=
    forwardsAmbientQuote_iff.mpr ⟨decl, hfunction, index, name, hquote, harg, hambient⟩
  rw [hleft] at hforwards
  cases hforwards

end BindingRules

/-! ## Expansions -/

/-- No run of an expansion invokes a macro for a call that passes on a recognized quote parameter of
the function around it. While a function is expanded every call has a function around it: the
function itself or what came in its place, with the code it has by then. And binding leaves a call as
code for no other reason than that it passes on a parameter that is taken for a quote. -/
theorem recognized_quotes_are_left_as_code {σ : Type} (expander : Expander)
    (symbols : List MethodSymbol) (hapart : MethodSymbol.ToldApart symbols)
    (hmodel : expander.model = (SymbolTable.declaring symbols).model) :
    (∀ (nesting : Nat) (tree : SyntaxTree) (workspace : Workspace σ), ∀ entry ∈
        (expander.expandWithin nesting tree workspace.recorded).2.session.host.invocations,
      ∀ decl own position, entry.2.site.function = some decl →
        (SymbolTable.declaring symbols).Declares own decl →
        (SymbolTable.declaring symbols).Recognizes own decl position →
        ¬expander.rules.PassesOn own decl entry.2.site.call position) ∧
    (∀ (file : FileOrigin) (nesting allowed count : Nat) (decl : FunctionDecl)
      (progress : Progress σ) (earlier : List (String × Invocation)) name invocation,
      earlier.length ≤ count →
      ((FileWalk.expandFunction { expander, file } (FileWalk.walk { expander, file } nesting) allowed
        decl).runFrom (progress.recorded earlier)).2.invocations[count]? = some (name, invocation) →
      ∃ current middle past body,
        FileWalk.Becomes (FileWalk.walk { expander, file } nesting) decl (progress.recorded earlier)
          current (Progress.recorded middle past) ∧
        invocation.site.function = some { current with body } ∧
        ∀ own position, (SymbolTable.declaring symbols).Declares own current →
          (SymbolTable.declaring symbols).Recognizes own current position →
          ¬expander.rules.PassesOn own current invocation.site.call position) ∧
    ∀ symbol site source decl own, site.function = some decl →
      (SymbolTable.declaring symbols).Declares own decl →
      (expander.rules.bind symbol site source = .ok none ↔
        ∃ position, expander.rules.PassesParameter symbol decl site.call position ∧
          expander.rules.TakesForQuote (SymbolTable.declaring symbols) own decl position) := by
  have hlisted {own : MethodSymbol} {decl : FunctionDecl}
      (h : (SymbolTable.declaring symbols).Declares own decl) :
      own ∈ (SymbolTable.declaring symbols).named own.name :=
    (SymbolTable.lists_declaring hapart _ own h.current).2.2
  refine ⟨?_, ?_, fun symbol site source decl own hfunction hdeclares => ?_⟩
  · intro nesting tree workspace entry hentry decl own position hfunction hdeclares hrecognizes
    obtain ⟨later, hlater, hrun⟩ := expander.expandWithin_recorded nesting tree workspace []
    rw [hrun] at hentry
    exact (hlater entry hentry).not_passesOn hmodel hdeclares.name (hlisted hdeclares) hfunction
      hrecognizes
  · intro file nesting allowed count decl progress earlier name invocation hearlier hinvoked
    obtain ⟨current, middle, past, hbecomes, hpast, hwalk⟩ :=
      FileWalk.becomes_of_invoked hearlier hinvoked
    obtain ⟨_, _, ⟨body, rfl, hsees⟩, -, -⟩ := (FileWalk.walkBlock_tracks expander file count nesting
      (.ofFunction current) current.body middle past).seen hpast hwalk
    refine ⟨current, middle, past, body, hbecomes, hsees.function, ?_⟩
    intro own position hdeclares hrecognizes
    -- the invocation is on record in the walk of what stands for the function
    obtain ⟨later, hlater, hrun⟩ := FileWalk.walkBlock_related
      (FileWalk.walk_recorded expander file nesting) (.ofFunction current) current.body middle past
    rw [hrun, Progress.invocations_recorded, List.getElem?_append_right hpast] at hwalk
    have hbinds := hlater _ (List.mem_of_getElem? hwalk)
    -- the code of the function has no part in what its parameters are
    change ¬expander.rules.PassesOn own { current with body } invocation.site.call position
    exact hbinds.not_passesOn hmodel hdeclares.name (hlisted hdeclares) hsees.function hrecognizes
  · exact BindingRules.bind_eq_none_iff hmodel hdeclares.name (hlisted hdeclares) hfunction

/-! ### A function of one name in two types -/

/-- A macro that takes a quote. -/
def innerMacro : MethodSymbol :=
  { id := ⟨0⟩, declaringType := "Host", name := "Inner", params := [.quote "quote"] }

/-- A function of a type whose parameter is a quote by its marker. -/
def outerSymbol (id : Nat) (declaringType : String) : MethodSymbol :=
  { id := ⟨id⟩, declaringType, name := "Outer"
    params := [{ name := "q", type := .object, markers := [.quoteParameter] }] }

/-- Expands calls of declared functions. -/
def outerExpander (symbols : List MethodSymbol) : Expander where
  model := (SymbolTable.declaring symbols).model
  config := { recordTrace := false }

/-- A workspace in which the macro writes nothing. -/
def innerWorkspace : Workspace Unit where
  session := { host := () }
  registry := ({} : Registry Unit).registerBody innerMacro fun _ => pure ()

/-- A file in which a function calls the macro with its quote, and without. -/
def outerFile : SyntaxTree :=
  { path := "file", source := none
    items := [.function (.plain "Outer" [.required "q" .object] .void
      [.evaluate (.callOf "Inner" [.ofName "q"]), .evaluate (.callOf "Inner" [])])] }

/-- What is invoked in the file: the names of the macros with what they received. -/
def outerInvocations (symbols : List MethodSymbol) : List (String × Invocation) :=
  ((outerExpander symbols).expandWithin 4 outerFile
    innerWorkspace.recorded).2.session.host.invocations

/-- While one type declares the function, the call that passes the quote on is left as code. Once
another type declares a function of its name, the macro is invoked for that call too. -/
theorem recognized_quotes_are_left_as_code_outer :
    (MethodSymbol.ToldApart [outerSymbol 1 "A", innerMacro] ∧
      ∃ entry decl, outerInvocations [outerSymbol 1 "A", innerMacro] = [entry] ∧
        entry.2.site.call = .plain "Inner" [] ∧ entry.2.site.function = some decl ∧
        ¬(outerExpander [outerSymbol 1 "A", innerMacro]).rules.PassesOn (outerSymbol 1 "A") decl
          entry.2.site.call 0) ∧
    (outerInvocations [outerSymbol 1 "A", outerSymbol 2 "B", innerMacro]).map (·.2.site.call) =
      [.plain "Inner" [.ofName "q"], .plain "Inner" []] := by
  have hapart : MethodSymbol.ToldApart [outerSymbol 1 "A", innerMacro] := by
    unfold MethodSymbol.ToldApart
    decide
  have hrun : (outerInvocations [outerSymbol 1 "A", innerMacro]).map
      (fun entry => (entry.2.site.call, entry.2.site.function.map (·.name))) =
        [(.plain "Inner" [], some "Outer")] := by cbv
  obtain ⟨entry, hentry, hsite⟩ := List.map_eq_singleton_iff.mp hrun
  obtain ⟨hcall, hfunction⟩ := Prod.mk.inj hsite
  obtain ⟨decl, hdecl, hname⟩ := Option.map_eq_some_iff.mp hfunction
  refine ⟨⟨hapart, entry, decl, hentry, hcall, hdecl, ?_⟩, by cbv⟩
  have hmem : entry ∈ outerInvocations [outerSymbol 1 "A", innerMacro] := by
    rw [hentry]
    exact List.mem_cons_self
  refine (recognized_quotes_are_left_as_code (outerExpander [outerSymbol 1 "A", innerMacro]) _ hapart
    rfl).1 4 outerFile innerWorkspace entry hmem decl (outerSymbol 1 "A") 0 hdecl ⟨?_, ?_⟩ (.inl ?_)
  · decide
  · exact hname.symm
  · decide

end MacroExpansion
