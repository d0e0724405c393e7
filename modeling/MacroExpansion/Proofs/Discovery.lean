import MacroExpansion.Proofs.LocalMacros

/-! # Histories of a registry

A registry is used by four steps in any order: an implementation is registered under a signature or as
the body of a symbol, and a symbol is looked up alone or for a call. A look-up changes the registry as
well, since a match is remembered for the symbol's identity, so what a look-up gives depends on what was
looked up before it.

That dependence is a simple one. A match stays (`Registry.Keeps`), what is found first for an identity
is what was registered last under the signature of the symbol (`find?_after`), and a look-up that finds
nothing leaves no mark. `answers_are_stable` says so of every history of an empty registry. -/

namespace MacroExpansion

variable {σ : Type}

namespace Registry

variable {registry : Registry σ} {symbol : MethodSymbol} {implementation : Implementation σ}

/-! ## Single look-ups -/

/-- What an identity was matched with is found again. -/
theorem discover_of_matched (h : registry.discovered.lookup symbol.id = some implementation) :
    registry.discover symbol = (some implementation, registry) := by
  rw [discover, h]

/-- Before a match the signature decides. -/
theorem discover_fst_of_unmatched (h : registry.discovered.lookup symbol.id = none) :
    (registry.discover symbol).1 = registry.find? (.of symbol) := by
  rw [discover, h]
  cases registry.find? (.of symbol) <;> rfl

/-- What is found is remembered. -/
theorem lookup_discover_self (registry : Registry σ) (symbol : MethodSymbol) :
    (registry.discover symbol).2.discovered.lookup symbol.id = (registry.discover symbol).1 := by
  cases hmatched : registry.discovered.lookup symbol.id with
  | some implementation => rw [discover_of_matched hmatched, hmatched]
  | none =>
    rw [discover, hmatched]
    cases registry.find? (.of symbol) with
    | some implementation => exact Keyed.lookup_put_self ..
    | none => exact hmatched

/-- It is remembered for no other identity. -/
theorem lookup_discover_of_ne (registry : Registry σ) {id : SymbolId} (h : id ≠ symbol.id) :
    (registry.discover symbol).2.discovered.lookup id = registry.discovered.lookup id := by
  unfold discover
  split
  · rfl
  · split
    · exact Keyed.lookup_put_of_ne _ h _
    · rfl

/-- Look-ups register nothing. -/
theorem implementations_discover (registry : Registry σ) (symbol : MethodSymbol) :
    (registry.discover symbol).2.implementations = registry.implementations := by
  unfold discover
  split
  · rfl
  · split <;> rfl

/-! ## Steps -/

/-- A use of a registry. -/
inductive Step (σ : Type) where
  /-- An implementation is registered under a signature. -/
  | register (signature : MacroSignature) (implementation : Implementation σ)
  /-- A body is registered as the implementation of a symbol. -/
  | registerBody (symbol : MethodSymbol) (body : Invocation → BodyM σ Unit)
  /-- A symbol is looked up. -/
  | discover (symbol : MethodSymbol)
  /-- A symbol is looked up for a call. -/
  | resolve (symbol : MethodSymbol) (site : Site) (source : Option SourceText)

namespace Step

/-- The symbol that is looked up. -/
def symbol? : Step σ → Option MethodSymbol
  | discover symbol => some symbol
  | resolve symbol _ _ => some symbol
  | _ => none

/-- What is registered, and under which signature. -/
def registers? : Step σ → Option (MacroSignature × Implementation σ)
  | register signature implementation => some (signature, implementation)
  | registerBody symbol body => some (.of symbol, { name := symbol.qualifiedName, body })
  | _ => none

/-- The implementation that a step hands out, and the registry after it. -/
def perform (registry : Registry σ) : Step σ → Option (Implementation σ) × Registry σ
  | register signature implementation => (none, registry.register signature implementation)
  | registerBody symbol body => (none, registry.registerBody symbol body)
  | discover symbol => registry.discover symbol
  | resolve symbol site source =>
    let resolved := registry.resolve symbol site source
    (resolved.1.toOption, resolved.2)

variable {step : Step σ}

/-- For a call and alone, a symbol leads to the same. -/
theorem perform_of_symbol? (registry : Registry σ) (h : step.symbol? = some symbol) :
    step.perform registry = registry.discover symbol := by
  cases step with
  | register => cases h
  | registerBody => cases h
  | discover => cases h; rfl
  | resolve _ site source =>
    cases h
    rw [perform, resolve_eq]
    rcases registry.discover symbol with ⟨_ | implementation, rest⟩ <;> rfl

/-- A registration leads to the registry with it. -/
theorem perform_snd_of_registers? (registry : Registry σ) {signature : MacroSignature}
    (h : step.registers? = some (signature, implementation)) :
    (step.perform registry).2 = registry.register signature implementation := by
  cases step with
  | register => cases h; rfl
  | registerBody => cases h; rfl
  | discover => cases h
  | resolve => cases h

/-- A step either looks up or registers. -/
theorem looksUp_or_registers (step : Step σ) :
    (∃ symbol, step.symbol? = some symbol ∧ step.registers? = none) ∨
      ∃ signature implementation, step.registers? = some (signature, implementation) ∧
        step.symbol? = none := by
  cases step with
  | register signature implementation => exact .inr ⟨signature, implementation, rfl, rfl⟩
  | registerBody symbol body => exact .inr ⟨_, _, rfl, rfl⟩
  | discover symbol => exact .inl ⟨symbol, rfl, rfl⟩
  | resolve symbol site source => exact .inl ⟨symbol, rfl, rfl⟩

end Step

/-- A later state of a registry: what was matched stays matched with the same, and what was registered
stays registered, if not with the same. -/
structure Keeps (before after : Registry σ) : Prop where
  /-- Matches stay. -/
  matched {id : SymbolId} {implementation : Implementation σ}
    (h : before.discovered.lookup id = some implementation) :
    after.discovered.lookup id = some implementation
  /-- Signatures stay. -/
  contains {signature : MacroSignature} (h : before.contains signature = true) :
    after.contains signature = true

/-- A registry keeps what it has. -/
theorem Keeps.refl (registry : Registry σ) : registry.Keeps registry :=
  ⟨id, id⟩

/-- What is kept twice is kept. -/
theorem Keeps.trans {before middle after : Registry σ} (h : before.Keeps middle)
    (h' : middle.Keeps after) : before.Keeps after :=
  ⟨h'.matched ∘ h.matched, h'.contains ∘ h.contains⟩

/-- No step takes away what is matched or registered. -/
theorem keeps_perform (registry : Registry σ) (step : Step σ) :
    registry.Keeps (step.perform registry).2 := by
  rcases step.looksUp_or_registers with ⟨symbol, hsymbol, -⟩ | ⟨signature, implementation, hregisters, -⟩
  · rw [step.perform_of_symbol? registry hsymbol]
    refine ⟨fun {id found} hfound => ?_, fun {signature} hcontains => ?_⟩
    · by_cases hid : id = symbol.id
      · rw [discover_of_matched (hid ▸ hfound)]
        exact hfound
      · rw [lookup_discover_of_ne registry hid, hfound]
    · rwa [contains, find?, implementations_discover]
  · rw [step.perform_snd_of_registers? registry hregisters]
    refine ⟨id, fun {other} hcontains => ?_⟩
    rw [contains, find?, register]
    by_cases hsame : other = signature
    · rw [hsame, Keyed.lookup_put_self]
      rfl
    · rw [Keyed.lookup_put_of_ne _ hsame]
      exact hcontains

/-! ## Histories -/

/-- The registry after a history that starts empty. -/
def after (history : List (Step σ)) : Registry σ :=
  history.foldl (fun registry step => (step.perform registry).2) {}

/-- What a step hands out after a history. -/
def answer (history : List (Step σ)) (step : Step σ) : Option (Implementation σ) :=
  (step.perform (after history)).1

/-- What a history registers, in order. -/
def registrations (history : List (Step σ)) : List (MacroSignature × Implementation σ) :=
  history.filterMap Step.registers?

/-- What a history registers last under a signature. -/
def lastRegistered (history : List (Step σ)) (signature : MacroSignature) :
    Option (Implementation σ) :=
  (registrations history).reverse.lookup signature

/-- No look-up of the identity found anything. -/
def Unmatched (history : List (Step σ)) (id : SymbolId) : Prop :=
  ∀ earlier step later symbol, history = earlier ++ step :: later → step.symbol? = some symbol →
    symbol.id = id → answer earlier step = none

variable {history earlier later : List (Step σ)} {step : Step σ} {id : SymbolId}

/-- The last step of a history is performed after all others. -/
theorem after_append_singleton (history : List (Step σ)) (step : Step σ) :
    after (history ++ [step]) = (step.perform (after history)).2 := by
  rw [after, List.foldl_append]
  rfl

/-- What is there at some time is kept later on. -/
theorem keeps_after_append (earlier later : List (Step σ)) :
    (after earlier).Keeps (after (earlier ++ later)) := by
  induction later using List.reverseRecOn with
  | nil => rw [List.append_nil]; exact .refl _
  | append_singleton later step ih =>
    rw [← List.append_assoc, after_append_singleton]
    exact ih.trans (keeps_perform _ step)

/-- A step that registers nothing adds nothing to what was registered. -/
theorem registrations_append_of_symbol (history : List (Step σ)) (h : step.registers? = none) :
    registrations (history ++ [step]) = registrations history := by
  simp [registrations, h]

/-- A registration is added to what was registered. -/
theorem registrations_append_of_registers (history : List (Step σ)) {signature : MacroSignature}
    (h : step.registers? = some (signature, implementation)) :
    registrations (history ++ [step]) = registrations history ++ [(signature, implementation)] := by
  simp [registrations, h]

/-- A registration is the last one of its signature. -/
theorem lastRegistered_append_self (history : List (Step σ)) {signature : MacroSignature}
    (h : step.registers? = some (signature, implementation)) :
    lastRegistered (history ++ [step]) signature = some implementation := by
  simp [lastRegistered, registrations_append_of_registers history h]

/-- What was registered last was registered. -/
theorem mem_of_lastRegistered {signature : MacroSignature}
    (h : lastRegistered history signature = some implementation) :
    ∃ registration ∈ history, registration.registers? = some (signature, implementation) := by
  obtain ⟨later, earlier, hsplit, -⟩ := List.lookup_eq_some_iff.mp h
  have hmem : (signature, implementation) ∈ (registrations history).reverse := by
    rw [hsplit]
    exact List.mem_append_right _ List.mem_cons_self
  exact List.mem_filterMap.mp (List.mem_reverse.mp hmem)

/-- What is found under a signature is what was registered last. -/
theorem find?_after (history : List (Step σ)) (signature : MacroSignature) :
    (after history).find? signature = lastRegistered history signature := by
  induction history using List.reverseRecOn with
  | nil => rfl
  | append_singleton history step ih =>
    rw [after_append_singleton]
    rcases step.looksUp_or_registers with ⟨symbol, hsymbol, hnone⟩ | ⟨other, found, hregisters, -⟩
    · rw [step.perform_of_symbol? _ hsymbol, find?, implementations_discover, lastRegistered,
        registrations_append_of_symbol history hnone]
      exact ih
    · rw [step.perform_snd_of_registers? _ hregisters, find?, register]
      by_cases hsame : signature = other
      · subst hsame
        rw [Keyed.lookup_put_self, lastRegistered_append_self history hregisters]
      · rw [Keyed.lookup_put_of_ne _ hsame, lastRegistered,
          registrations_append_of_registers history hregisters, List.reverse_append,
          List.reverse_singleton, List.singleton_append, List.lookup_cons,
          beq_eq_false_iff_ne.mpr hsame]
        exact ih

/-- The signatures of a registry are the ones that were registered, each once. -/
theorem signatures_after (history : List (Step σ)) :
    ((after history).implementations.map Prod.fst).Nodup ∧
      ((after history).implementations.map Prod.fst).toFinset =
        ((registrations history).map Prod.fst).toFinset := by
  induction history using List.reverseRecOn with
  | nil => exact ⟨List.nodup_nil, rfl⟩
  | append_singleton history step ih =>
    obtain ⟨hnodup, hsame⟩ := ih
    rw [after_append_singleton]
    rcases step.looksUp_or_registers with ⟨symbol, hsymbol, hnone⟩ | ⟨signature, _, hregisters, -⟩
    · rw [step.perform_of_symbol? _ hsymbol, implementations_discover,
        registrations_append_of_symbol history hnone]
      exact ⟨hnodup, hsame⟩
    · rw [step.perform_snd_of_registers? _ hregisters, register, Keyed.keys_put,
        registrations_append_of_registers history hregisters, List.map_append, List.toFinset_append,
        ← hsame]
      split
      · -- the signature has an implementation already
        rename_i hmem
        refine ⟨hnodup, (Finset.union_eq_left.mpr ?_).symm⟩
        simpa using hmem
      · rename_i hmem
        exact ⟨List.concat_eq_append ▸ hnodup.concat hmem, List.toFinset_append⟩

/-- A registry is as large as the number of signatures that were registered. -/
theorem size_after (history : List (Step σ)) :
    (after history).size = ((registrations history).map Prod.fst).toFinset.card := by
  obtain ⟨hnodup, hsame⟩ := signatures_after history
  rw [← hsame, List.toFinset_card_of_nodup hnodup, List.length_map]
  rfl

/-- What an identity is matched with was handed out for it, the first time that anything was. -/
theorem answer_of_lookup_after (h : (after history).discovered.lookup id = some implementation) :
    ∃ earlier step later symbol, history = earlier ++ step :: later ∧ step.symbol? = some symbol ∧
      symbol.id = id ∧ (after earlier).discovered.lookup id = none ∧
      answer earlier step = some implementation := by
  induction history using List.reverseRecOn with
  | nil => cases h
  | append_singleton history step ih =>
    -- what was matched before the last step was handed out before it
    have hback (hlookup : (after history).discovered.lookup id = some implementation) :
        ∃ earlier step' later symbol, history ++ [step] = earlier ++ step' :: later ∧
          step'.symbol? = some symbol ∧ symbol.id = id ∧
          (after earlier).discovered.lookup id = none ∧ answer earlier step' = some implementation := by
      obtain ⟨earlier, step', later, symbol, rfl, hrest⟩ := ih hlookup
      exact ⟨earlier, step', later ++ [step], symbol, by simp, hrest⟩
    rw [after_append_singleton] at h
    rcases step.looksUp_or_registers with ⟨symbol, hsymbol, -⟩ | ⟨_, _, hregisters, -⟩
    · rw [step.perform_of_symbol? _ hsymbol] at h
      by_cases hid : id = symbol.id
      · subst hid
        cases hmatched : (after history).discovered.lookup symbol.id with
        | some found =>
          rw [discover_of_matched hmatched] at h
          exact hback h
        | none =>
          -- nothing was matched yet, so it is the last step that hands it out
          refine ⟨history, step, [], symbol, rfl, hsymbol, rfl, hmatched, ?_⟩
          rw [answer, step.perform_of_symbol? _ hsymbol, ← lookup_discover_self, h]
      · rw [lookup_discover_of_ne _ hid] at h
        exact hback h
    · rw [step.perform_snd_of_registers? _ hregisters] at h
      exact hback h

/-- An identity for which nothing was found is matched with nothing. -/
theorem Unmatched.lookup_after (h : Unmatched history id) :
    (after history).discovered.lookup id = none := by
  refine Option.eq_none_iff_forall_ne_some.mpr fun found hfound => ?_
  obtain ⟨earlier, step, later, symbol, hhistory, hsymbol, hid, -, hanswer⟩ :=
    answer_of_lookup_after hfound
  rw [h earlier step later symbol hhistory hsymbol hid] at hanswer
  cases hanswer

/-- What a look-up of an unmatched identity finds is what was registered last. -/
theorem answer_of_unmatched (hsymbol : step.symbol? = some symbol)
    (h : (after history).discovered.lookup symbol.id = none) :
    answer history step = lastRegistered history (.of symbol) := by
  rw [answer, step.perform_of_symbol? _ hsymbol, discover_fst_of_unmatched h, find?_after]

/-- A look-up that finds nothing could just as well be left out. -/
theorem after_of_answer_eq_none (hsymbol : step.symbol? = some symbol)
    (h : answer earlier step = none) (later : List (Step σ)) :
    after (earlier ++ step :: later) = after (earlier ++ later) := by
  have hsame : (step.perform (after earlier)).2 = after earlier := by
    rw [answer, step.perform_of_symbol? _ hsymbol] at h
    rw [step.perform_of_symbol? _ hsymbol, discover_snd_of_none h]
  simp only [after, List.foldl_append, List.foldl_cons] at hsame ⊢
  rw [hsame]

end Registry

open Registry in
/-- What a registry hands out is stable, in every history that starts empty. (1) Once an
implementation was handed out for an identity, every later look-up of that identity hands out the same.
(2) The first one is the one registered last under the signature of the symbol. (3) A look-up that
finds nothing changes nothing, and a registration for its symbol is found later. (4) If an identity
always has the same signature, what is handed out for a symbol was registered under its signature. (5)
Signatures stay registered, and the size is their number. -/
theorem answers_are_stable (earlier : List (Step σ)) :
    (∀ step symbol later step' symbol' implementation, step.symbol? = some symbol →
      answer earlier step = some implementation → step'.symbol? = some symbol' →
      symbol'.id = symbol.id →
      answer (earlier ++ step :: later) step' = some implementation) ∧
    (∀ step symbol, step.symbol? = some symbol → Unmatched earlier symbol.id →
      answer earlier step = lastRegistered earlier (.of symbol)) ∧
    (∀ step symbol, step.symbol? = some symbol → answer earlier step = none →
      (∀ later, after (earlier ++ step :: later) = after (earlier ++ later)) ∧
      ∀ later registration step' implementation,
        Unmatched (earlier ++ step :: later) symbol.id →
        registration.registers? = some (.of symbol, implementation) → step'.symbol? = some symbol →
        answer (earlier ++ step :: later ++ [registration]) step' = some implementation) ∧
    (∀ step symbol implementation, step.symbol? = some symbol →
      (∀ first ∈ (earlier ++ [step]).filterMap Step.symbol?,
        ∀ second ∈ (earlier ++ [step]).filterMap Step.symbol?, first.id = second.id →
        MacroSignature.of first = .of second) →
      answer earlier step = some implementation →
      ∃ registration ∈ earlier, registration.registers? = some (.of symbol, implementation)) ∧
    (∀ later signature, (after earlier).contains signature = true →
      (after (earlier ++ later)).contains signature = true) ∧
    (after earlier).size = ((registrations earlier).map Prod.fst).toFinset.card := by
  refine ⟨?_, ?_, ?_, ?_, ?_, size_after earlier⟩
  · intro step symbol later step' symbol' implementation hsymbol hanswer hsymbol' hid
    have hmatched : (after (earlier ++ [step])).discovered.lookup symbol.id = some implementation := by
      rw [after_append_singleton, ← hanswer, answer, step.perform_of_symbol? _ hsymbol]
      exact lookup_discover_self _ symbol
    have hstays := (keeps_after_append (earlier ++ [step]) later).matched hmatched
    rw [List.append_assoc, List.singleton_append, ← hid] at hstays
    rw [answer, step'.perform_of_symbol? _ hsymbol', discover_of_matched hstays]
  · exact fun step symbol hsymbol hunmatched => answer_of_unmatched hsymbol hunmatched.lookup_after
  · refine fun step symbol hsymbol hnone => ⟨after_of_answer_eq_none hsymbol hnone, ?_⟩
    intro later registration step' implementation hunmatched hregisters hsymbol'
    rw [← lastRegistered_append_self (earlier ++ step :: later) hregisters]
    refine answer_of_unmatched hsymbol' ?_
    rw [after_append_singleton, registration.perform_snd_of_registers? _ hregisters]
    exact hunmatched.lookup_after
  · intro step symbol implementation hsymbol hsignature hanswer
    have hmem : symbol ∈ (earlier ++ [step]).filterMap Step.symbol? :=
      List.mem_filterMap.mpr ⟨step, by simp, hsymbol⟩
    cases hmatched : (after earlier).discovered.lookup symbol.id with
    | none =>
      rw [answer_of_unmatched hsymbol hmatched] at hanswer
      exact mem_of_lastRegistered hanswer
    | some found =>
      rw [answer, step.perform_of_symbol? _ hsymbol, discover_of_matched hmatched] at hanswer
      obtain rfl := Option.some.inj hanswer
      -- it was handed out before, for a symbol of the same signature
      obtain ⟨before, step', behind, first, rfl, hfirst, hid, hunmatched, hanswer'⟩ :=
        answer_of_lookup_after hmatched
      rw [← hid] at hunmatched
      rw [answer_of_unmatched hfirst hunmatched] at hanswer'
      obtain ⟨registration, hregistration, hregisters⟩ := mem_of_lastRegistered hanswer'
      have hmem' : first ∈ (before ++ step' :: behind ++ [step]).filterMap Step.symbol? :=
        List.mem_filterMap.mpr ⟨step', by simp, hfirst⟩
      refine ⟨registration, List.mem_append_left _ hregistration, ?_⟩
      rw [hregisters, hsignature first hmem' symbol hmem hid]
  · exact fun later signature => (keeps_after_append earlier later).contains

/-! ### An implementation that is registered too late -/

/-- An implementation that does nothing. -/
def idleImplementation (name : String) : Implementation Unit where
  name
  body _ := pure ()

/-- A macro is looked up in vain, registered, and registered again. -/
def innerHistory : List (Registry.Step Unit) :=
  [.discover innerMacro, .register (.of innerMacro) (idleImplementation "first"),
    .register (.of innerMacro) (idleImplementation "second")]

open Registry in
/-- The second implementation is found, and a third one no longer. There is one signature in all. -/
theorem answers_are_stable_inner :
    answer [] (.discover innerMacro) = (none : Option (Implementation Unit)) ∧
      answer innerHistory (.discover innerMacro) = some (idleImplementation "second") ∧
      answer (innerHistory ++ .discover innerMacro ::
        [.register (.of innerMacro) (idleImplementation "third")]) (.discover innerMacro) =
          some (idleImplementation "second") ∧
      (∃ registration ∈ innerHistory,
        registration.registers? = some (.of innerMacro, idleImplementation "second")) ∧
      (after innerHistory).size = 1 := by
  obtain ⟨hstays, -, -, hregistered, -, hsize⟩ := answers_are_stable innerHistory
  have hsecond : answer innerHistory (.discover innerMacro) = some (idleImplementation "second") := rfl
  refine ⟨rfl, hsecond, hstays _ innerMacro _ _ innerMacro _ rfl hsecond rfl rfl, ?_, hsize⟩
  refine hregistered (.discover innerMacro) innerMacro _ rfl ?_ hsecond
  intro first hfirst second hsecond' _
  have hinner {symbol : MethodSymbol}
      (h : symbol ∈ (innerHistory ++ [Step.discover innerMacro]).filterMap Step.symbol?) :
      symbol = innerMacro := by
    simpa [innerHistory, Step.symbol?, eq_comm] using h
  rw [hinner hfirst, hinner hsecond']

end MacroExpansion
