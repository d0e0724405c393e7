import MacroExpansion.Proofs.Forwarding

/-! # What a symbol table knows

A table is built by declarations, and what it knows are the *current* functions: of all that were
declared under a qualified name, the latest. The table keeps them twice, by qualified name and listed
under their simple names, and a declaration takes what it displaces out of the second map by its
identity. `SymbolTable.Knows` says that both maps agree with the current functions; it survives every
declaration (`Knows.declare`), as long as names have no dot in them and an identity stands for one
qualified name.

From it comes what every look-up gives (`lookups_give_the_current_functions`). -/

namespace MacroExpansion

/-! ## Qualified names -/

/-- Two texts that are equal around a separator which neither has behind it are equal on both sides. -/
theorem append_cons_inj_of_notMem {α : Type} {separator : α} {before before' after after' : List α}
    (h : before ++ separator :: after = before' ++ separator :: after')
    (hafter : separator ∉ after) (hafter' : separator ∉ after') :
    before = before' ∧ after = after' := by
  rcases List.append_eq_append_iff.mp h with ⟨between, rfl, hrest⟩ | ⟨between, rfl, hrest⟩
  · cases between with
    | nil => simpa using hrest
    | cons first between =>
      -- the separator on the right stands behind the one on the left
      obtain ⟨-, rfl⟩ := List.cons.inj hrest
      exact absurd (List.mem_append_right between List.mem_cons_self) hafter
  · cases between with
    | nil => simpa using hrest.symm
    | cons first between =>
      obtain ⟨-, rfl⟩ := List.cons.inj hrest
      exact absurd (List.mem_append_right between List.mem_cons_self) hafter'

namespace MethodSymbol

/-- A qualified name is the declaring type and the name, with a dot between them. -/
theorem toList_qualifiedName (symbol : MethodSymbol) :
    symbol.qualifiedName.toList = symbol.declaringType.toList ++ '.' :: symbol.name.toList := by
  simp [qualifiedName]

/-- A qualified name has a dot in it. -/
theorem dot_mem_qualifiedName (symbol : MethodSymbol) : '.' ∈ symbol.qualifiedName.toList := by
  simp [toList_qualifiedName]

/-- Functions of one qualified name have one simple name, if there is no dot in either. -/
theorem name_eq_of_qualifiedName_eq {symbol other : MethodSymbol}
    (h : symbol.qualifiedName = other.qualifiedName) (hsymbol : '.' ∉ symbol.name.toList)
    (hother : '.' ∉ other.name.toList) : symbol.name = other.name := by
  have hlists := congrArg String.toList h
  rw [toList_qualifiedName, toList_qualifiedName] at hlists
  exact String.toList_inj.mp (append_cons_inj_of_notMem hlists hsymbol hother).2

/-! ## Current functions -/

/-- Of each qualified name the function that was declared last. -/
def current : List MethodSymbol → List MethodSymbol
  | [] => []
  | symbol :: later =>
    if later.any (·.qualifiedName == symbol.qualifiedName) then current later
    else symbol :: current later

/-- A function is current if no later one has its qualified name. -/
theorem mem_current_iff {declared : List MethodSymbol} {symbol : MethodSymbol} :
    symbol ∈ current declared ↔ ∃ earlier later, declared = earlier ++ symbol :: later ∧
      ∀ other ∈ later, other.qualifiedName ≠ symbol.qualifiedName := by
  induction declared with
  | nil => simp [current]
  | cons first later ih =>
    have hrest : symbol ∈ current later → ∃ earlier behind, first :: later = earlier ++ symbol :: behind ∧
        ∀ other ∈ behind, other.qualifiedName ≠ symbol.qualifiedName := by
      intro hmem
      obtain ⟨earlier, behind, rfl, hlast⟩ := ih.mp hmem
      exact ⟨first :: earlier, behind, rfl, hlast⟩
    -- a function with no later one of its name comes first, or it is current in the rest
    have hback {earlier behind} (hdeclared : first :: later = earlier ++ symbol :: behind)
        (hlast : ∀ other ∈ behind, other.qualifiedName ≠ symbol.qualifiedName) :
        symbol = first ∧ behind = later ∨ symbol ∈ current later := by
      cases earlier with
      | nil =>
        cases hdeclared
        exact .inl ⟨rfl, rfl⟩
      | cons _ earlier =>
        cases hdeclared
        exact .inr (ih.mpr ⟨earlier, behind, rfl, hlast⟩)
    by_cases hagain : later.any (·.qualifiedName == first.qualifiedName) = true
    · rw [current, if_pos hagain]
      refine ⟨hrest, fun ⟨earlier, behind, hdeclared, hlast⟩ => ?_⟩
      rcases hback hdeclared hlast with ⟨rfl, rfl⟩ | hmem
      · obtain ⟨other, hother, hname⟩ := List.any_eq_true.mp hagain
        exact absurd (beq_iff_eq.mp hname) (hlast other hother)
      · exact hmem
    · rw [current, if_neg hagain, List.mem_cons]
      refine ⟨?_, fun ⟨earlier, behind, hdeclared, hlast⟩ => (hback hdeclared hlast).imp_left And.left⟩
      rintro (rfl | hmem)
      · refine ⟨[], later, rfl, fun other hother hname => hagain ?_⟩
        exact List.any_eq_true.mpr ⟨other, hother, beq_iff_eq.mpr hname⟩
      · exact hrest hmem

/-- Current functions were declared. -/
theorem mem_of_mem_current {declared : List MethodSymbol} {symbol : MethodSymbol}
    (h : symbol ∈ current declared) : symbol ∈ declared := by
  obtain ⟨earlier, later, rfl, -⟩ := mem_current_iff.mp h
  simp

/-- A further declaration takes the place of the one with its qualified name. -/
theorem current_append_singleton (declared : List MethodSymbol) (symbol : MethodSymbol) :
    current (declared ++ [symbol]) =
      (current declared).filter (·.qualifiedName != symbol.qualifiedName) ++ [symbol] := by
  induction declared with
  | nil => simp [current]
  | cons first later ih =>
    rw [List.cons_append, current, ih, List.any_append, current]
    by_cases hagain : later.any (·.qualifiedName == first.qualifiedName) = true
    · rw [if_pos hagain, if_pos (by simp [hagain])]
    · rw [if_neg hagain, List.filter_cons]
      by_cases hname : first.qualifiedName = symbol.qualifiedName
      · rw [if_pos (by simp [hname]), if_neg (by simp [hname])]
      · have hname' : ¬symbol.qualifiedName = first.qualifiedName := Ne.symm hname
        rw [if_neg (by simpa [hname'] using hagain), if_pos (by simp [hname]), List.cons_append]

/-- Current functions have different qualified names. -/
theorem nodup_qualifiedName_current (declared : List MethodSymbol) :
    ((current declared).map qualifiedName).Nodup := by
  induction declared with
  | nil => exact List.nodup_nil
  | cons first later ih =>
    rw [current]
    split
    · exact ih
    · rename_i hagain
      refine List.nodup_cons.mpr ⟨fun hmem => hagain ?_, ih⟩
      obtain ⟨other, hother, hname⟩ := List.mem_map.mp hmem
      exact List.any_eq_true.mpr ⟨other, mem_of_mem_current hother, beq_iff_eq.mpr hname⟩

/-- Current functions of one qualified name are the same. -/
theorem eq_of_mem_current {declared : List MethodSymbol} {symbol other : MethodSymbol}
    (hsymbol : symbol ∈ current declared) (hother : other ∈ current declared)
    (h : symbol.qualifiedName = other.qualifiedName) : symbol = other :=
  List.inj_on_of_nodup_map (nodup_qualifiedName_current declared) hsymbol hother h

/-- Functions whose simple names have no dot and whose identities stand for one qualified name. -/
structure WellNamed (declared : List MethodSymbol) : Prop where
  /-- No simple name has a dot. -/
  name : ∀ symbol ∈ declared, '.' ∉ symbol.name.toList
  /-- An identity occurs under one qualified name only. -/
  id : ∀ symbol ∈ declared, ∀ other ∈ declared, symbol.id = other.id →
    symbol.qualifiedName = other.qualifiedName

/-- Some of several well-named functions are well-named. -/
theorem WellNamed.mono {declared more : List MethodSymbol} (h : WellNamed more)
    (hsub : declared ⊆ more) : WellNamed declared where
  name symbol hsymbol := h.name symbol (hsub hsymbol)
  id symbol hsymbol other hother := h.id symbol (hsub hsymbol) other (hsub hother)

end MethodSymbol

/-! ## Tables that agree with the current functions -/

namespace SymbolTable

open MethodSymbol

/-- Both maps of a table hold the current functions of what was declared. -/
structure Knows (table : SymbolTable) (declared : List MethodSymbol) : Prop where
  /-- A qualified name leads to its current function. -/
  byPath : ∀ path symbol, table.byPath.lookup path = some symbol ↔
    symbol ∈ current declared ∧ symbol.qualifiedName = path
  /-- There is one entry for each of them. -/
  keys : (table.byPath.map Prod.fst).Perm ((current declared).map qualifiedName)
  /-- A simple name lists the current functions that have it, each once. -/
  named : ∀ name, table.named name = (current declared).filter (·.name == name)

/-- What a declaration displaces is the current function of its qualified name. -/
theorem Knows.displaced?_eq_some_iff {table : SymbolTable} {declared : List MethodSymbol}
    (h : table.Knows declared) {symbol previous : MethodSymbol} :
    table.displaced? symbol = some previous ↔
      previous ∈ current declared ∧ previous.qualifiedName = symbol.qualifiedName :=
  h.byPath symbol.qualifiedName previous

/-- Under the simple name of a new function stay the functions of other qualified names. Those are
the ones of other identities: the identity of what is displaced stands for its qualified name, and
that name has no other current function. -/
theorem Knows.named_declare_self {table : SymbolTable} {declared : List MethodSymbol}
    {symbol : MethodSymbol} (h : table.Knows declared) (hnames : WellNamed declared) :
    (table.declare symbol).named symbol.name =
      ((current declared).filter (·.qualifiedName != symbol.qualifiedName)).filter
        (·.name == symbol.name) ++ [symbol] := by
  rw [SymbolTable.named, declare, Keyed.lookup_put_self, Option.getD_some, h.named, List.filter_filter]
  congr 1
  cases hdisplaced : table.displaced? symbol with
  | none =>
    refine List.filter_congr fun other hother => ?_
    have hne : other.qualifiedName ≠ symbol.qualifiedName := fun hname => by
      rw [(h.displaced?_eq_some_iff).mpr ⟨hother, hname⟩] at hdisplaced
      cases hdisplaced
    simp [hne]
  | some previous =>
    obtain ⟨hprevious, hname⟩ := h.displaced?_eq_some_iff.mp hdisplaced
    dsimp only
    rw [List.filter_filter]
    refine List.filter_congr fun other hother => ?_
    -- entries are left out by their identity, and the claim is about their qualified name
    have hiff : other.id = previous.id ↔ other.qualifiedName = symbol.qualifiedName := by
      constructor
      · intro hid
        rw [← hname]
        exact hnames.id other (mem_of_mem_current hother) previous (mem_of_mem_current hprevious) hid
      · intro hother'
        rw [eq_of_mem_current hother hprevious (hother'.trans hname.symm)]
    simp only [bne, Bool.and_comm, beq_eq_decide, hiff]

/-- The new function has its path, and other paths lead where they led. -/
theorem Knows.lookup_declare_iff {table : SymbolTable} {declared : List MethodSymbol}
    {symbol : MethodSymbol} (h : table.Knows declared) (path : String) (found : MethodSymbol) :
    (table.declare symbol).byPath.lookup path = some found ↔
      found ∈ current (declared ++ [symbol]) ∧ found.qualifiedName = path := by
  rw [current_append_singleton, List.mem_append, List.mem_filter, List.mem_singleton]
  by_cases hpath : path = symbol.qualifiedName
  · subst hpath
    rw [SymbolTable.declare, Keyed.lookup_put_self, Option.some.injEq]
    constructor
    · rintro rfl
      exact ⟨.inr rfl, rfl⟩
    · rintro ⟨⟨-, hne⟩ | rfl, hname⟩
      · exact absurd hname (bne_iff_ne.mp hne)
      · rfl
  · rw [SymbolTable.declare, Keyed.lookup_put_of_ne _ hpath, h.byPath]
    constructor
    · rintro ⟨hmem, rfl⟩
      exact ⟨.inl ⟨hmem, bne_iff_ne.mpr hpath⟩, rfl⟩
    · rintro ⟨⟨hmem, -⟩ | rfl, rfl⟩
      · exact ⟨hmem, rfl⟩
      · exact absurd rfl hpath

/-- There is one entry more, or one is rewritten. -/
theorem Knows.keys_declare {table : SymbolTable} {declared : List MethodSymbol}
    {symbol : MethodSymbol} (h : table.Knows declared) :
    ((table.declare symbol).byPath.map Prod.fst).Perm
      ((current (declared ++ [symbol])).map qualifiedName) := by
  have hothers : ((current declared).filter (·.qualifiedName != symbol.qualifiedName)).map
      qualifiedName = ((current declared).map qualifiedName).erase symbol.qualifiedName := by
    rw [(nodup_qualifiedName_current declared).erase_eq_filter, List.filter_map]
    rfl
  rw [current_append_singleton, List.map_append, hothers, SymbolTable.declare, Keyed.keys_put]
  refine .trans ?_ (List.perm_append_singleton _ _).symm
  split
  · rename_i hmem
    exact h.keys.trans (List.perm_cons_erase (h.keys.mem_iff.mp hmem))
  · rename_i hmem
    rw [List.erase_of_not_mem fun hmem' => hmem (h.keys.mem_iff.mpr hmem')]
    exact (List.perm_append_singleton _ _).trans (h.keys.cons _)

/-- Under other simple names stays what they listed: functions of other simple names have other
qualified names. -/
theorem Knows.named_declare_of_ne {table : SymbolTable} {declared : List MethodSymbol}
    {symbol : MethodSymbol} (h : table.Knows declared) (hnames : WellNamed (declared ++ [symbol]))
    {name : String} (hname : name ≠ symbol.name) :
    (table.declare symbol).named name =
      (current (declared ++ [symbol])).filter (·.name == name) := by
  have hkept : ((current declared).filter (·.qualifiedName != symbol.qualifiedName)).filter
      (·.name == name) = (current declared).filter (·.name == name) := by
    rw [List.filter_filter]
    refine List.filter_congr fun other hother => ?_
    have hne : other.name = name → other.qualifiedName ≠ symbol.qualifiedName := by
      rintro rfl hqualified
      refine hname (name_eq_of_qualifiedName_eq hqualified ?_ ?_)
      · exact hnames.name other (List.mem_append_left _ (mem_of_mem_current hother))
      · exact hnames.name symbol (List.mem_append_right _ List.mem_cons_self)
    by_cases hsame : other.name = name
    · simp [hsame, hne hsame]
    · simp [hsame]
  have hnew : [symbol].filter (·.name == name) = [] := by
    simpa using Ne.symm hname
  rw [current_append_singleton, List.filter_append, hkept, hnew, List.append_nil, ← h.named,
    SymbolTable.named, SymbolTable.declare, Keyed.lookup_put_of_ne _ hname]
  rfl

/-- A further declaration keeps both maps in agreement. -/
theorem Knows.declare {table : SymbolTable} {declared : List MethodSymbol} {symbol : MethodSymbol}
    (h : table.Knows declared) (hnames : WellNamed (declared ++ [symbol])) :
    (table.declare symbol).Knows (declared ++ [symbol]) where
  byPath := h.lookup_declare_iff
  keys := h.keys_declare
  named name := by
    by_cases hname : name = symbol.name
    · rw [hname, h.named_declare_self (hnames.mono (List.subset_append_left _ _)),
        current_append_singleton, List.filter_append]
      simp
    · exact h.named_declare_of_ne hnames hname

/-- A table agrees with whatever was declared in it. -/
theorem knows_declaring {declared : List MethodSymbol} (hnames : WellNamed declared) :
    (declaring declared).Knows declared := by
  induction declared using List.reverseRecOn with
  | nil => exact ⟨by simp [declaring, current], .nil, fun name => rfl⟩
  | append_singleton declared symbol ih =>
    rw [declaring, List.foldl_append]
    exact (ih (hnames.mono (List.subset_append_left _ _))).declare hnames

variable {table : SymbolTable} {declared : List MethodSymbol}

/-- The size is the number of current functions. -/
theorem Knows.size_eq (h : table.Knows declared) : table.size = (current declared).length := by
  have hlength := h.keys.length_eq
  rwa [List.length_map, List.length_map] at hlength

/-- A simple name is unambiguous if one current function has it. -/
theorem Knows.unambiguous?_eq_some_iff (h : table.Knows declared) {name : String}
    {symbol : MethodSymbol} :
    table.unambiguous? name = some symbol ↔ (current declared).filter (·.name == name) = [symbol] := by
  rw [unambiguous?, h.named]
  split
  · rename_i only honly
    rw [honly, Option.some.injEq, List.cons.injEq, and_iff_left rfl]
  · rename_i hnone
    exact iff_of_false (Option.some_ne_none symbol).symm (hnone symbol)

/-- A function under a simple name is a current one. -/
theorem Knows.mem_of_unambiguous? (h : table.Knows declared) {name : String} {symbol : MethodSymbol}
    (hfound : table.unambiguous? name = some symbol) : symbol ∈ current declared := by
  have hmem : symbol ∈ (current declared).filter (·.name == name) := by
    rw [h.unambiguous?_eq_some_iff.mp hfound]
    exact List.mem_cons_self
  exact (List.mem_filter.mp hmem).1

/-- What a path leads to is a current function. -/
theorem Knows.mem_of_get? (h : table.Knows declared) {path : String} {symbol : MethodSymbol}
    (hfound : table.get? path = some symbol) : symbol ∈ current declared := by
  unfold get? at hfound
  split at hfound
  · rename_i found hlookup
    cases hfound
    exact ((h.byPath _ _).mp hlookup).1
  · exact h.mem_of_unambiguous? hfound

/-- The qualified name of a current function leads to it. -/
theorem Knows.get?_qualifiedName (h : table.Knows declared) {symbol : MethodSymbol}
    (hsymbol : symbol ∈ current declared) : table.get? symbol.qualifiedName = some symbol := by
  rw [get?, (h.byPath _ symbol).mpr ⟨hsymbol, rfl⟩]

/-- A name without a dot is no qualified name, so it leads where it does as a simple name. -/
theorem Knows.get?_eq_unambiguous? (h : table.Knows declared) {name : String}
    (hname : '.' ∉ name.toList) : table.get? name = table.unambiguous? name := by
  have hlookup : table.byPath.lookup name = none := by
    refine Option.eq_none_iff_forall_ne_some.mpr fun found hfound => hname ?_
    rw [← ((h.byPath _ _).mp hfound).2]
    exact dot_mem_qualifiedName found
  rw [get?, hlookup]

end SymbolTable

/-! ## Histories of declarations -/

/-- A step in which a table is built. -/
inductive Declaration where
  /-- One function is declared. -/
  | one (symbol : MethodSymbol)
  /-- The functions of a type are declared; their identities are numbered from `firstId`. -/
  | functions (firstId : Nat) (declaringType : String) (decls : List FunctionDecl)

namespace Declaration

/-- What is declared, in order. -/
def symbols : Declaration → List MethodSymbol
  | one symbol => [symbol]
  | functions firstId declaringType decls =>
    decls.zipIdx.map fun (decl, offset) => .ofDecl ⟨firstId + offset⟩ declaringType decl

/-- The table with what is declared. -/
def perform (table : SymbolTable) : Declaration → SymbolTable
  | one symbol => table.declare symbol
  | functions firstId declaringType decls => table.declareFunctions firstId declaringType decls

/-- The table that a history builds. -/
def build (history : List Declaration) : SymbolTable :=
  history.foldl perform {}

/-- All that a history declares. -/
abbrev declared (history : List Declaration) : List MethodSymbol :=
  history.flatMap symbols

/-- A declaration declares its functions one by one. -/
theorem perform_eq (table : SymbolTable) (declaration : Declaration) :
    declaration.perform table = declaration.symbols.foldl SymbolTable.declare table := by
  cases declaration with
  | one symbol => rfl
  | functions firstId declaringType decls => rw [symbols, List.foldl_map]; rfl

/-- A history builds the table of all that it declares. -/
theorem build_eq (history : List Declaration) :
    build history = SymbolTable.declaring (declared history) := by
  rw [SymbolTable.declaring, List.foldl_flatMap]
  exact congrArg (List.foldl · {} history) (funext₂ perform_eq)

end Declaration

open Declaration MethodSymbol in
/-- Look-ups agree with the current functions, whatever was declared in whatever order. A declaration
displaces the current function of its qualified name; a qualified name leads to its current function,
a simple name to the only current function that has it, if there is exactly one; and no look-up gives
anything but a current function. -/
theorem lookups_give_the_current_functions (history : List Declaration)
    (hnames : WellNamed (declared history)) :
    (build history).size = (current (declared history)).length ∧
    (∀ earlier symbol later, history = earlier ++ one symbol :: later → ∀ previous,
      (build earlier).displaced? symbol = some previous ↔
        previous ∈ current (declared earlier) ∧ previous.qualifiedName = symbol.qualifiedName) ∧
    (∀ symbol ∈ current (declared history),
      (build history).get? symbol.qualifiedName = some symbol) ∧
    (∀ name symbol, '.' ∉ name.toList → ((build history).get? name = some symbol ↔
      (current (declared history)).filter (·.name == name) = [symbol])) ∧
    (∀ decl symbol, (build history).model.declaredSymbol decl = some symbol ↔
      (current (declared history)).filter (·.name == decl.name) = [symbol]) ∧
    (∀ path symbol, (build history).get? path = some symbol → symbol ∈ current (declared history)) ∧
    (∀ call symbol, (build history).model.bindCall call = some symbol →
      symbol ∈ current (declared history)) ∧
    (∀ decl symbol, (build history).model.declaredSymbol decl = some symbol →
      symbol ∈ current (declared history)) := by
  have hknows := SymbolTable.knows_declaring hnames
  rw [← build_eq] at hknows
  refine ⟨hknows.size_eq, ?_, fun symbol => hknows.get?_qualifiedName, ?_, ?_, ?_, ?_, ?_⟩
  · rintro earlier symbol later rfl previous
    have hearlier : WellNamed (declared earlier) :=
      hnames.mono fun symbol hsymbol => by simp [declared, hsymbol]
    rw [build_eq]
    exact (SymbolTable.knows_declaring hearlier).displaced?_eq_some_iff
  · intro name symbol hname
    rw [hknows.get?_eq_unambiguous? hname]
    exact hknows.unambiguous?_eq_some_iff
  · exact fun decl symbol => hknows.unambiguous?_eq_some_iff
  · exact fun path symbol => hknows.mem_of_get?
  · exact fun call symbol => hknows.mem_of_get?
  · exact fun decl symbol => hknows.mem_of_unambiguous?

/-! ### A function declared in two types, and again in one -/

/-- A function of a type. -/
def logSymbol (id : Nat) (declaringType : String) : MethodSymbol :=
  { id := ⟨id⟩, declaringType, name := "Log" }

/-- Two types declare a function, then the first declares it anew and a third declares another. -/
def logHistory : List Declaration :=
  [.one (logSymbol 1 "A"), .one (logSymbol 2 "B"), .one (logSymbol 3 "A"),
    .functions 4 "Meta" [.plain "Repeat" [] .void []]]

open Declaration in
/-- The third declaration displaces the first one, the simple name of the two stays ambiguous, and the
function of the third type is found under its simple name. -/
theorem lookups_give_the_current_functions_log :
    MethodSymbol.WellNamed (declared logHistory) ∧ (build logHistory).size = 3 ∧
      (build (logHistory.take 2)).displaced? (logSymbol 3 "A") = some (logSymbol 1 "A") ∧
      (build logHistory).get? "A.Log" = some (logSymbol 3 "A") ∧
      (build logHistory).get? "Log" ≠ some (logSymbol 3 "A") ∧
      ∃ repeated, (build logHistory).get? "Repeat" = some repeated := by
  have hnames : MethodSymbol.WellNamed (declared logHistory) := ⟨by decide, by decide⟩
  obtain ⟨hsize, hdisplaced, hpath, hname, -⟩ := lookups_give_the_current_functions logHistory hnames
  refine ⟨hnames, hsize, ?_, hpath (logSymbol 3 "A") (by decide), ?_, ?_⟩
  · exact (hdisplaced (logHistory.take 2) _ _ rfl _).mpr (by decide)
  · exact mt (hname "Log" _ (by decide)).mp (by decide)
  · exact ⟨_, (hname "Repeat" _ (by decide)).mpr (by rfl)⟩

end MacroExpansion
