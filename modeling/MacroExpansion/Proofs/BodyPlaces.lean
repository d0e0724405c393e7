import MacroExpansion.Proofs.StandardCalls
import MacroExpansion.Proofs.SteadyPrograms

/-! # Bodies in their files

A body is a script block of a file, or it belongs to a function or to a method of a type; other code of
the file is around it (`BodyPlace`). What the standard macros make of the body and of the code around it
have nothing to do with each other. So where the file can be expanded with one body, it can be expanded
with every other body that comes to something: then the code around it, its steps and its warnings are
the same (`Expander.exists_surroundings`). -/

namespace MacroExpansion

variable {σ α β : Type}

/-! ## Places -/

/-- What holds a body in a file. -/
inductive BodyHolder where
  /-- The body is a script block. -/
  | script
  /-- A function of the file. -/
  | function (decl : FunctionDecl)
  /-- A method of a type, between the other members of the type. -/
  | method (type : TypeDecl) (before : List Member) (decl : FunctionDecl) (behind : List Member)

namespace BodyHolder

/-- The item of the file with the body. -/
def item : BodyHolder → Block → Item
  | script, body => .statements body
  | function decl, body => .function { decl with body }
  | method type before decl behind, body =>
      .typeDecl { type with members := before ++ .function { decl with body } :: behind }

/-- What surrounds the statements of the body. -/
def scope : BodyHolder → Block → Scope
  | script, _ => .script
  | function decl, body | method _ _ decl _, body => .ofFunction { decl with body }

/-- The same holder, perhaps with other code in the other members. -/
inductive Alike : BodyHolder → BodyHolder → Prop where
  | script : Alike script script
  | function (decl : FunctionDecl) : Alike (function decl) (function decl)
  | method (type : TypeDecl) (decl : FunctionDecl) {before before' behind behind' : List Member}
      (hbefore : before'.length = before.length) (hbehind : behind'.length = behind.length) :
      Alike (method type before decl behind) (method type before' decl behind')

/-- Scopes of one holder resemble each other, whatever the body. -/
theorem scope_resembles {rules : BindingRules} (hmodel : rules.model.ByName) (holder : BodyHolder)
    (body body' : Block) : (holder.scope body).Resembles rules (holder.scope body') := by
  have hfunction (decl : FunctionDecl) :
      (Scope.ofFunction { decl with body }).Resembles rules (.ofFunction { decl with body := body' }) := by
    refine ⟨rfl, .some fun content content' => ?_⟩
    exact (BindingRules.isAmbientQuote_body hmodel decl content').trans
      (BindingRules.isAmbientQuote_body hmodel decl content).symm
  cases holder with
  | script => exact ⟨rfl, .none⟩
  | function decl => exact hfunction decl
  | method type before decl behind => exact hfunction decl

end BodyHolder

/-- The place of a body in a file. -/
structure BodyPlace where
  /-- The file. -/
  file : FileOrigin
  /-- The items of the file before the one with the body. -/
  before : List Item
  /-- What holds the body. -/
  holder : BodyHolder
  /-- Where the body is written. -/
  span : Span
  /-- The items behind the one with the body. -/
  behind : List Item

namespace BodyPlace

/-- The items of the file with these statements for a body. -/
def items (place : BodyPlace) (statements : List Stmt) : List Item :=
  place.before ++ place.holder.item ⟨statements, place.span⟩ :: place.behind

/-- The file with these statements for a body. -/
def tree (place : BodyPlace) (statements : List Stmt) : SyntaxTree :=
  { path := place.file.path, source := place.file.text, items := place.items statements }

/-- What surrounds these statements as the body. -/
def setting (place : BodyPlace) (statements : List Stmt) : Setting :=
  ⟨place.holder.scope ⟨statements, place.span⟩, 0, place.span⟩

/-- The same place, perhaps with other code around it. -/
structure Alike (place other : BodyPlace) : Prop where
  file : other.file = place.file
  before : other.before.length = place.before.length
  holder : place.holder.Alike other.holder
  span : other.span = place.span
  behind : other.behind.length = place.behind.length

end BodyPlace

/-! ## A part between others -/

namespace ExpandM

/-- A list is gone through from its front over one part to its end. -/
theorem mapM_among (f : α → ExpandM σ β) (before behind : List α) (value : α) :
    (before ++ value :: behind).mapM f =
      before.mapM f >>= fun front => f value >>= fun result => behind.mapM f >>= fun rest =>
        pure (front ++ result :: rest) := by
  simp only [List.mapM_append, List.mapM_cons, bind_assoc, pure_bind]

/-- As many results as members come from a list. -/
theorem Ensures.length_mapM (f : α → ExpandM σ β) (values : List α) :
    (values.mapM f).Ensures fun results => results.length = values.length := by
  induction values with
  | nil => exact .pure rfl
  | cons value rest ih =>
    rw [List.mapM_cons]
    refine (Ensures.trivial (f value)).bind fun _ _ => ih.bind fun results hlength => .pure ?_
    rw [List.length_cons, List.length_cons, hlength]

/-- Where a list was gone through, its front, one part and its end came to something. -/
theorem among_ok {rules : BindingRules} {start : Workspace σ} {f : α → ExpandM σ β}
    (hf : ∀ values : List α, Unaffected rules start (values.mapM f)) {before behind : List α} {value : α}
    {progress ended : Progress σ} (hsteady : progress.IsSteady rules start) {results : List β}
    (hrun : ((before ++ value :: behind).mapM f).runFrom progress = (.ok results, ended)) :
    ∃ front rest result notes notes' middle middle', Gives rules start (before.mapM f) front notes ∧
      Gives rules start (behind.mapM f) rest notes' ∧ front.length = before.length ∧
      rest.length = behind.length ∧ middle.IsSteady rules start ∧
      (f value).runFrom middle = (.ok result, middle') := by
  rw [mapM_among] at hrun
  obtain ⟨front, middle, hfront, hrun⟩ := bind_ok hrun
  obtain ⟨result, middle', hresult, hrun⟩ := bind_ok hrun
  obtain ⟨rest, _, hrest, -⟩ := bind_ok hrun
  obtain ⟨notes, hgives, hadds⟩ := (hf before).gives hsteady hfront
  -- one part is a list as well
  have hone : ([value].mapM f).runFrom middle = (.ok [result], middle') := by
    rw [List.mapM_cons, runFrom_bind_of_ok hresult]
    rfl
  obtain ⟨_, _, hadds'⟩ := (hf [value]).gives hadds.steady hone
  obtain ⟨notes', hgives', -⟩ := (hf behind).gives hadds'.steady hrest
  exact ⟨front, rest, result, notes, notes', middle, middle', hgives, hgives',
    Ensures.length_mapM f before _ _ _ hfront, Ensures.length_mapM f behind _ _ _ hrest, hadds.steady,
    hresult⟩

end ExpandM

/-- A program comes to what a body comes to in some shape, with what is noted before the body and behind
it, and it stops where the body does. -/
structure Expander.Encloses (expander : Expander) (file : FileOrigin) (nesting : Nat)
    (start : Workspace σ) (settingOf : List Stmt → Setting) (program : List Stmt → ExpandM σ α)
    (shape : List Stmt → α) (before behind : Yield) : Prop where
  gives {statements : List Stmt} {yield : Yield}
    (h : expander.Yields file nesting start (settingOf statements) statements yield) :
    (program statements).Gives expander.rules start (shape yield.statements) (before ++ yield ++ behind)
  refuses {statements : List Stmt} {stop : Stop}
    (h : expander.Stops file nesting start (settingOf statements) statements stop) :
    (program statements).Refuses expander.rules start stop

namespace Expander

variable {expander : Expander} {file : FileOrigin} {nesting : Nat} {start : Workspace σ}
  {settingOf : List Stmt → Setting} {setting : Setting} {statements : List Stmt} {yield : Yield}
  {stop : Stop}

namespace Encloses

variable {program : List Stmt → ExpandM σ α} {shape : List Stmt → α} {before behind notes notes' : Yield}

/-- What is made of the result encloses the body. -/
theorem followed (h : expander.Encloses file nesting start settingOf program shape before behind)
    {next : List Stmt → α → ExpandM σ β} {shape' : List Stmt → β}
    (hnext : ∀ statements statements', next statements (shape statements') = pure (shape' statements')) :
    expander.Encloses file nesting start settingOf
      (fun statements => program statements >>= next statements) shape' before behind where
  gives hyields := (h.gives hyields).followed (hnext _ _)
  refuses hstops := (h.refuses hstops).bind _

/-- The front and the end of a list enclose a body in one of its members. -/
theorem among {member : List Stmt → β} {f : β → ExpandM σ α}
    (h : expander.Encloses file nesting start settingOf (fun statements => f (member statements)) shape
      before behind) {front rest : List β} {front' rest' : List α}
    (hfront : (front.mapM f).Gives expander.rules start front' notes)
    (hrest : (rest.mapM f).Gives expander.rules start rest' notes') :
    expander.Encloses file nesting start settingOf
      (fun statements => (front ++ member statements :: rest).mapM f)
      (fun statements => front' ++ shape statements :: rest') (notes ++ before) (behind ++ notes') where
  gives {_ yield} hyields := by
    have hnotes : notes ++ before ++ yield ++ (behind ++ notes') =
        notes ++ (before ++ yield ++ behind ++ notes') := by
      simp only [Yield.append_assoc]
    rw [ExpandM.mapM_among, hnotes]
    exact hfront.bind ((h.gives hyields).bind (hrest.followed rfl))
  refuses hstops := by
    rw [ExpandM.mapM_among]
    exact hfront.refuses_bind ((h.refuses hstops).bind _)

end Encloses

/-- What a body comes to is given by its walk. -/
theorem Yields.gives (hlocal : expander.rules.HasLocalMacros start.registry)
    (h : expander.Yields file nesting start setting statements yield) :
    (FileWalk.splitWalk { expander, file } nesting setting 0 ⟨[], statements⟩).Gives expander.rules start
      (.proceed ⟨yield.statements, []⟩) yield := by
  obtain ⟨ended, hrun, htrace, hwarnings⟩ := h
  obtain ⟨notes, hgives, hadds⟩ := ExpandM.Unaffected.gives (FileWalk.splitWalk_sideBySide
    (covers_unaffected hlocal file) nesting setting 0 ⟨[], statements⟩) (.refl _ _) hrun
  -- nothing was noted before the walk
  have htrace' : notes.trace = yield.trace := hadds.trace.symm.trans htrace
  have hwarnings' : notes.warnings = yield.warnings := hadds.warnings.symm.trans hwarnings
  intro progress hsteady
  obtain ⟨ended, hrun, hadds⟩ := hgives progress hsteady
  exact ⟨ended, hrun, hadds.steady, htrace' ▸ hadds.trace, hwarnings' ▸ hadds.warnings⟩

/-- What stops a body is what its walk refuses. -/
theorem Stops.refuses (hlocal : expander.rules.HasLocalMacros start.registry)
    (h : expander.Stops file nesting start setting statements stop) :
    (FileWalk.splitWalk { expander, file } nesting setting 0 ⟨[], statements⟩).Refuses expander.rules start
      stop :=
  ExpandM.Unaffected.refuses (FileWalk.splitWalk_sideBySide (covers_unaffected hlocal file) nesting
    setting 0 ⟨[], statements⟩) (.refl _ _) h

/-- A body is walked as a block. -/
theorem encloses_walkBlock (hlocal : expander.rules.HasLocalMacros start.registry) (file : FileOrigin)
    (nesting : Nat) (scopeOf : List Stmt → Scope) (span : Span) :
    expander.Encloses file nesting start (fun statements => ⟨scopeOf statements, 0, span⟩)
      (fun statements =>
        FileWalk.walkBlock (FileWalk.walk { expander, file } nesting) (scopeOf statements)
          ⟨statements, span⟩)
      (fun statements => .proceed ⟨statements, span⟩) {} {} where
  gives {statements yield} h := by
    unfold FileWalk.walkBlock
    dsimp only
    rw [expander.walk_whole, SplitWalk.onSequence, Nat.sub_self, List.take_zero, List.drop_zero]
    rw [Yield.nil_append, Yield.append_nil]
    refine ExpandM.Gives.followed
      (ExpandM.Gives.followed (h.gives hlocal) (Flow.proceed_followedBy _ _)) ?_
    rw [Flow.proceed_followedBy, Split.statements, List.append_nil]
  refuses h := by
    unfold FileWalk.walkBlock
    dsimp only
    rw [expander.walk_whole, SplitWalk.onSequence, Nat.sub_self, List.take_zero, List.drop_zero]
    exact ((h.refuses hlocal).bind _).bind _

/-- The item of the body encloses it, whatever the other members of a type come to. -/
theorem exists_encloses_item (hlocal : expander.rules.HasLocalMacros start.registry) (file : FileOrigin)
    (holder : BodyHolder) (span : Span) {progress ended : Progress σ} {item : Item}
    (hsteady : progress.IsSteady expander.rules start)
    (hrun : (FileWalk.expandItem { expander, file } (FileWalk.walk { expander, file } nesting)
      (holder.item ⟨statements, span⟩)).runFrom progress = (.ok item, ended)) :
    ∃ around before behind, holder.Alike around ∧
      expander.Encloses file nesting start (fun statements => ⟨holder.scope ⟨statements, span⟩, 0, span⟩)
        (fun statements =>
          FileWalk.expandItem { expander, file } (FileWalk.walk { expander, file } nesting)
            (holder.item ⟨statements, span⟩))
        (fun statements => around.item ⟨statements, span⟩) before behind := by
  have hfunction (decl : FunctionDecl) :
      expander.Encloses file nesting start
        (fun statements => ⟨.ofFunction { decl with body := ⟨statements, span⟩ }, 0, span⟩)
        (fun statements =>
          FileWalk.expandFunction { expander, file } (FileWalk.walk { expander, file } nesting)
            expander.config.maxDepth { decl with body := ⟨statements, span⟩ })
        (fun statements => { decl with body := ⟨statements, span⟩ }) {} {} := by
    have hbody := encloses_walkBlock hlocal file nesting
      (fun statements => .ofFunction { decl with body := ⟨statements, span⟩ }) span
    cases expander.config.maxDepth with
    | zero =>
      unfold FileWalk.expandFunction
      exact hbody.followed fun _ _ => rfl
    | succ allowed =>
      unfold FileWalk.expandFunction
      exact hbody.followed fun _ _ => rfl
  cases holder with
  | script =>
    have hloose : expander.Encloses file nesting start (fun _ => ⟨.script, 0, span⟩)
        (fun statements =>
          FileWalk.expandLoose { expander, file } (FileWalk.walk { expander, file } nesting) .script
            ⟨statements, span⟩ span)
        (fun statements => ⟨statements, span⟩) {} {} := by
      unfold FileWalk.expandLoose
      exact (encloses_walkBlock hlocal file nesting (fun _ => .script) span).followed fun _ _ => rfl
    exact ⟨.script, {}, {}, .script, hloose.followed fun _ _ => rfl⟩
  | function decl =>
    exact ⟨.function decl, {}, {}, .function decl, (hfunction decl).followed fun _ _ => rfl⟩
  | method type before decl behind =>
    -- the other members come to the same, whatever was expanded before them
    have hmembers (members : List Member) : ExpandM.Unaffected expander.rules start
        (members.mapM (FileWalk.expandMember { expander, file }
          (FileWalk.walk { expander, file } nesting))) :=
      WalkRelation.mapM (FileWalk.expandMember_sideBySide (covers_unaffected hlocal file).toFailsAlike
        (FileWalk.walk_sideBySide (covers_unaffected hlocal file) nesting)) members
    obtain ⟨_, _, hmembersRun, -⟩ := ExpandM.bind_ok hrun
    obtain ⟨before', behind', _, notes, notes', _, _, hbefore, hbehind, hlength, hlength', -⟩ :=
      ExpandM.among_ok hmembers hsteady hmembersRun
    have hmember : expander.Encloses file nesting start _
        (fun statements =>
          FileWalk.expandMember { expander, file } (FileWalk.walk { expander, file } nesting)
            (.function { decl with body := ⟨statements, span⟩ }))
        (fun statements => .function { decl with body := ⟨statements, span⟩ }) {} {} :=
      (hfunction decl).followed fun _ _ => rfl
    exact ⟨.method type before' decl behind', _, _, .method type decl hlength hlength',
      (hmember.among hbefore hbehind).followed fun _ _ => rfl⟩

end Expander

/-! ## Surroundings -/

/-- The code around a body after all expansions, with what was noted before the body and behind it. -/
structure Surroundings where
  /-- The place of the body with the expanded code around it. -/
  place : BodyPlace
  /-- What was noted before the body. -/
  before : Yield
  /-- What was noted behind the body. -/
  behind : Yield

/-- The expanded file when the body comes to this. -/
def Surroundings.expansion (around : Surroundings) (yield : Yield) : Expansion where
  tree := around.place.tree yield.statements
  trace := (around.before ++ yield ++ around.behind).trace
  warnings := (around.before ++ yield ++ around.behind).warnings

/-- Whatever body is at the place, it comes out in the same surroundings, or it stops the expansion. -/
structure Expander.Surrounds (expander : Expander) (nesting : Nat) (start : Workspace σ)
    (place : BodyPlace) (around : Surroundings) : Prop where
  alike : place.Alike around.place
  expands {statements : List Stmt} {yield : Yield}
    (h : expander.Yields place.file nesting start (place.setting statements) statements yield) :
    (expander.expandWithin nesting (place.tree statements) start).1 = .ok (around.expansion yield)
  stops {statements : List Stmt} {stop : Stop}
    (h : expander.Stops place.file nesting start (place.setting statements) statements stop) :
    (expander.expandWithin nesting (place.tree statements) start).1 = .error stop

namespace Expander

variable {expander : Expander} {file : FileOrigin} {nesting : Nat} {start : Workspace σ} {firstId : Nat}
  {place : BodyPlace} {around : Surroundings} {statements : List Stmt} {expansion : Expansion}

/-- Where a file was expanded with one body, the surroundings of all bodies are known. -/
theorem exists_surroundings (hlocal : expander.rules.HasLocalMacros start.registry)
    (hexpanded : (expander.expandWithin nesting (place.tree statements) start).1 = .ok expansion) :
    ∃ around, expander.Surrounds nesting start place around := by
  have hitems (items : List Item) : ExpandM.Unaffected expander.rules start
      (items.mapM (FileWalk.expandItem { expander, file := place.file }
        (FileWalk.walk { expander, file := place.file } nesting))) :=
    WalkRelation.mapM (FileWalk.expandItem_sideBySide
      (covers_unaffected hlocal place.file).toFailsAlike
      (FileWalk.walk_sideBySide (covers_unaffected hlocal place.file) nesting)) items
  obtain ⟨_, hrun⟩ := expandBy_ok hexpanded
  obtain ⟨before', behind', _, notes, notes', middle, _, hbefore, hbehind, hlength, hlength', hmiddle,
    hitem⟩ := ExpandM.among_ok hitems (.refl _ _) hrun
  obtain ⟨holder', ahead, rest, halike, hencloses⟩ :=
    exists_encloses_item hlocal place.file place.holder place.span hmiddle hitem
  -- the items around that of the body come to the same for all bodies
  have hfile := hencloses.among hbefore hbehind
  refine ⟨⟨{ place with before := before', holder := holder', behind := behind' }, notes ++ ahead,
      rest ++ notes'⟩, ⟨rfl, hlength, halike, rfl, hlength'⟩, fun {statements yield} hyields => ?_,
    fun {statements stop} hstops => ?_⟩
  · obtain ⟨ended, hended, hadds⟩ := hfile.gives hyields _ (.refl _ start)
    change (itemsProgram (·.walk nesting) expander (place.tree statements)).runFrom _ = _ at hended
    have htrace : ended.trace.toList = (notes ++ ahead ++ yield ++ (rest ++ notes')).trace := hadds.trace
    have hwarnings : ended.warnings.toList = (notes ++ ahead ++ yield ++ (rest ++ notes')).warnings :=
      hadds.warnings
    rw [expandWithin, expandBy_eq]
    dsimp only
    rw [hended, Surroundings.expansion, ← htrace, ← hwarnings]
    rfl
  · have hended := hfile.refuses hstops _ (.refl _ start)
    change ((itemsProgram (·.walk nesting) expander (place.tree statements)).runFrom _).1 = _ at hended
    rw [expandWithin, expandBy_eq]
    dsimp only
    rw [hended]
    rfl

/-- With the standard macros, a body comes to something, or it stops. -/
theorem yields_or_stops (h : expander.HasStandardMacros start.registry firstId) (file : FileOrigin)
    (nesting : Nat) (scope : Scope) (span : Span) (statements : List Stmt) :
    (∃ yield, expander.Yields file nesting start ⟨scope, 0, span⟩ statements yield) ∨
      ∃ stop, expander.Stops file nesting start ⟨scope, 0, span⟩ statements stop := by
  unfold Yields Stops
  rcases hrun : (FileWalk.splitWalk { expander, file } nesting ⟨scope, 0, span⟩ 0
    ⟨[], statements⟩).runFrom { toWorkspace := start } with ⟨stop | flow, ended⟩
  · exact .inr ⟨stop, rfl⟩
  · cases flow with
    | replaceFunction decl =>
      -- no standard macro replaces the function around it
      have hmeets := FileWalk.walk_meets (FileWalk.obeys_steady h file) nesting scope 0 span statements 0
        statements.length (Nat.le_refl _) (fun _ _ => True.intro) { toWorkspace := start } (.refl _ _)
      rw [expander.walk_whole, SplitWalk.onSequence, Nat.sub_self, List.take_zero, List.drop_zero,
        ExpandM.runFrom_bind_of_ok hrun] at hmeets
      exact absurd (hmeets.1 decl rfl) id
    | proceed last =>
      obtain ⟨-, hlength⟩ :=
        FileWalk.splitWalk_advances { expander, file } nesting _ _ _ _ _ _ hrun last rfl
      obtain ⟨done, todo⟩ := last
      obtain rfl : todo = [] := List.eq_nil_of_length_eq_zero (Nat.le_zero.mp hlength)
      exact .inl ⟨⟨done, ended.trace.toList, ended.warnings.toList⟩, ended, rfl, rfl, rfl⟩

/-- Where the file was expanded, the body came to something. -/
theorem Surrounds.exists_yield (h : expander.Surrounds nesting start place around)
    (hstandard : expander.HasStandardMacros start.registry firstId)
    (hexpanded : (expander.expandWithin nesting (place.tree statements) start).1 = .ok expansion) :
    ∃ yield, expander.Yields place.file nesting start (place.setting statements) statements yield ∧
      expansion = around.expansion yield := by
  rcases yields_or_stops hstandard place.file nesting (place.holder.scope ⟨statements, place.span⟩)
    place.span statements with ⟨yield, hyields⟩ | ⟨stop, hstops⟩
  · exact ⟨yield, hyields, Except.ok.inj (hexpanded.symm.trans (h.expands hyields))⟩
  · cases hexpanded.symm.trans (h.stops hstops)

end Expander

end MacroExpansion
