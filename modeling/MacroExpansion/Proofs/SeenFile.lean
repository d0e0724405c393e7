import MacroExpansion.Proofs.SeenFunction

/-! # The place of a call in its file

Every body of a file belongs to a member: a function, an accessor, or the statements of a script. A
macro is invoked for a call that stands in one of these bodies, within some levels of nested
statements and lambdas, in the file as it is rewritten by then (`Expander.seen_of_invoked`). What it
sees around the call follows from this place: the function as it is rewritten by then, and the nearest
member, unless one of the levels is the body of a lambda, which is then shown as it was entered.

The name of the nearest member is told by the place as well (`Expander.isNamedIn_of_invoked`). -/

namespace MacroExpansion

variable {σ : Type}

/-! ## Bodies with their members -/

/-- The function that a member is. -/
def Enclosing.function? : Enclosing → Option FunctionDecl
  | .function decl => some decl
  | _ => none

/-- The bodies of a member, each with what is around the code in it. -/
def Member.ownedBodies : Member → List (Enclosing × Block)
  | .function decl => [(.function decl, decl.body)]
  | .property decl => decl.accessors.map fun accessor =>
      (.accessor decl.name accessor.kind, accessor.body)

/-- The bodies of an item, each with the member around the code in it. -/
def Item.ownedBodies : Item → List (Enclosing × Block)
  | .function decl => [(.function decl, decl.body)]
  | .typeDecl decl => decl.members.flatMap Member.ownedBodies
  | .statements block => [(.topLevel, block)]

/-- The bodies of a member with the names by which code in them knows the member. -/
def Member.namedBodies : Member → List (String × Block)
  | .function decl => [(decl.name, decl.body)]
  | .property decl => decl.accessors.map fun accessor =>
      match accessor.kind with
      | .get => ("get_" ++ decl.name, accessor.body)
      | .set => ("set_" ++ decl.name, accessor.body)

/-- The bodies of an item with the names by which code in them knows the member around it. -/
def Item.namedBodies : Item → List (String × Block)
  | .function decl => [(decl.name, decl.body)]
  | .typeDecl decl => decl.members.flatMap Member.namedBodies
  | .statements block => [("<top-level>", block)]

/-- The name by which code in a body knows the member is that of the member. -/
theorem Member.namedBodies_eq (member : Member) :
    member.namedBodies = member.ownedBodies.map fun body => (body.1.memberName, body.2) := by
  cases member with
  | function decl => rfl
  | property decl =>
    simp only [namedBodies, ownedBodies, List.map_map]
    refine List.map_congr_left fun accessor _ => ?_
    cases accessor with
    | mk kind body span => cases kind <;> rfl

/-- The named bodies of an item are its bodies, named by what is around them. -/
theorem Item.namedBodies_eq (item : Item) :
    item.namedBodies = item.ownedBodies.map fun body => (body.1.memberName, body.2) := by
  cases item with
  | function decl => rfl
  | typeDecl decl =>
    rw [namedBodies, ownedBodies, List.map_flatMap]
    exact List.flatMap_congr fun member _ => member.namedBodies_eq
  | statements block => rfl

namespace Site

/-- A site in the body of a member, within some levels of it, innermost first. -/
structure StandsIn (site : Site) (bodies : List (String × Block)) (member : String)
    (levels : List Level) : Prop where
  /-- The block of the site in all levels is the body of the member. -/
  body : (member, levels.foldl (fun body level => level.plug body) site.block) ∈ bodies
  /-- Every level has the slot that it is entered by. -/
  slots : ∀ level ∈ levels, level.HasSlot
  /-- The statement stands in the block. -/
  statement : site.block.statements[site.index]? = some site.statement
  /-- The call is one of the statement's own. -/
  call : site.call ∈ site.statement.ownCalls

/-- The member around the site goes by the name that its place tells. -/
def IsNamedIn (site : Site) (bodies : List (String × Block)) : Prop :=
  ∃ member levels, site.StandsIn bodies member levels ∧
    site.enclosing.memberName = nameWithin member levels

/-- What a site sees around it, when it stands in the body of a member, within some levels of it. -/
structure IsSeenIn (walk : FileWalk (Recording σ)) (count : Nat) (site : Site)
    (bodies : List (Enclosing × Block)) (member : Enclosing) (levels : List Level) : Prop where
  /-- The block of the site in all levels is the body of the member. -/
  body : (member, levels.foldl (fun body level => level.plug body) site.block) ∈ bodies
  /-- The site shows the nearest member or lambda. -/
  within : site.IsWithin walk count member levels
  /-- It shows the function that the member is. -/
  function : site.function = member.function?
  /-- The statement stands in the block. -/
  statement : site.block.statements[site.index]? = some site.statement
  /-- The call is one of the statement's own. -/
  call : site.call ∈ site.statement.ownCalls

/-- The site is seen in one of the bodies. -/
def IsSeenAmong (walk : FileWalk (Recording σ)) (count : Nat) (site : Site)
    (bodies : List (Enclosing × Block)) : Prop :=
  ∃ member levels, site.IsSeenIn walk count bodies member levels

variable {walk : FileWalk (Recording σ)} {count : Nat} {site : Site}

/-- More bodies make no difference. -/
theorem IsSeenAmong.mono {bodies bodies' : List (Enclosing × Block)}
    (h : site.IsSeenAmong walk count bodies) (hsubset : ∀ body ∈ bodies, body ∈ bodies') :
    site.IsSeenAmong walk count bodies' := by
  obtain ⟨member, levels, hseen⟩ := h
  exact ⟨member, levels, hsubset _ hseen.body, hseen.within, hseen.function, hseen.statement,
    hseen.call⟩

/-- The name of the nearest member or lambda is told by the place. -/
theorem IsSeenAmong.isNamedIn {bodies : List (Enclosing × Block)}
    (h : site.IsSeenAmong walk count bodies) :
    site.IsNamedIn (bodies.map fun body => (body.1.memberName, body.2)) := by
  obtain ⟨member, levels, hseen⟩ := h
  refine ⟨member.memberName, levels, ⟨?_, hseen.within.slots, hseen.statement, hseen.call⟩, ?_⟩
  · exact List.mem_map.mpr ⟨_, hseen.body, rfl⟩
  · rw [hseen.within.enclosing, Enclosing.memberName_entered member hseen.within.slots]

/-- What is seen in a body is seen in the member of the body. -/
theorem Sees.isSeenAmong {scope : Scope} {block : Block} (h : site.Sees walk count scope block)
    {bodies : List (Enclosing × Block)} (hmem : (scope.enclosingWith block, block) ∈ bodies)
    (hfunction : scope.function.map (·.plug block) = (scope.enclosingWith block).function?) :
    site.IsSeenAmong walk count bodies := by
  obtain ⟨levels, hwithin, hblock⟩ := h.placed
  refine ⟨scope.enclosingWith block, levels, ?_, hwithin, h.function.trans hfunction, h.statement,
    h.call⟩
  rwa [← hblock]

end Site

/-! ## Pausing in lists -/

namespace ExpandM

variable {α β : Type} {count : Nat}

/-- Two parts idle when both do. -/
theorem Idles.bind {P : α → Prop} {Q : β → Prop} {paused : Nat → ExpandM (Recording σ) α}
    {next : Nat → α → ExpandM (Recording σ) β} (h : Idles count P paused)
    (hnext : ∀ value, P value → Idles count Q fun fuel => next fuel value) :
    Idles count Q fun fuel => paused fuel >>= next fuel := by
  intro progress hpaused
  obtain ⟨value, hvalue, hfirst⟩ := h progress hpaused
  obtain ⟨result, hresult, hsecond⟩ := hnext value hvalue progress hpaused
  exact ⟨result, hresult, hfirst.bind hsecond⟩

/-- Going through a list idles where it does at every member. -/
theorem Idles.mapM {next : Nat → α → ExpandM (Recording σ) β}
    (h : ∀ value, Idles count (fun _ => True) fun fuel => next fuel value) (values : List α) :
    Idles count (fun _ => True) fun fuel => values.mapM (next fuel) := by
  induction values with
  | nil => exact .pure True.intro
  | cons value rest ih =>
    simp only [List.mapM_cons]
    exact (h value).bind fun _ _ => ih.bind fun _ _ => .pure True.intro

/-- Going through a list is tracked where every member is; the site of the invocation is related to
the result of one of them. -/
theorem Tracks.mapM {P : Site → β → Prop} {next : α → ExpandM (Recording σ) β}
    {next' : Nat → α → ExpandM (Recording σ) β}
    (h : ∀ value, Tracks count P (next value) fun fuel => next' fuel value)
    (hidles : ∀ value, Idles count (fun _ => True) fun fuel => next' fuel value) (values : List α) :
    Tracks count (fun site results => ∃ result ∈ results, P site result) (values.mapM next)
      fun fuel => values.mapM (next' fuel) := by
  induction values with
  | nil => exact .pure _
  | cons value rest ih =>
    simp only [List.mapM_cons]
    refine (h value).bind (fun result => ih.bind (fun results => .pure _) ?_) ?_
    · rintro site results ⟨found, hfound, hP⟩
      exact .pure ⟨found, List.mem_cons_of_mem result hfound, hP⟩
    · -- the invocation took place at the first member, the others are left as they are
      intro site result hP
      exact (Idles.mapM hidles rest).bind fun results _ => .pure ⟨result, List.mem_cons_self, hP⟩

end ExpandM

namespace FileWalk

variable {expander : Expander} {file : FileOrigin} {count nesting : Nat}

/-! ## Bodies on pause -/

/-- On pause a sequence comes back as it is. -/
theorem walk_rests (expander : Expander) (file : FileOrigin) (count nesting : Nat) :
    (walk (pausedAt (σ := σ) { expander, file } count) nesting).Rests count nesting := by
  intro scope depth span statements hheight progress hpaused
  rw [walk_paused_whole]
  exact (splitWalk_rests _ count nesting).onSequence scope depth span statements hheight progress hpaused

/-- On pause a block comes back as it is. -/
theorem idles_walkBlock (expander : Expander) (file : FileOrigin) (count : Nat) (scope : Scope)
    (block : Block) :
    ExpandM.Idles (σ := σ) count (· = .proceed block) fun fuel =>
      walkBlock ((pausedAt { expander, file } count).walk fuel) scope block := by
  intro progress hpaused
  obtain ⟨statements, span⟩ := block
  -- a walk for each level of nesting is enough, and one for the body itself
  refine ⟨_, rfl, stmtsHeight statements + 1, fun fuel hfuel => ?_⟩
  obtain ⟨stopped, hrun⟩ := walk_rests expander file count fuel scope 0 span statements
    (by omega) progress hpaused
  unfold walkBlock
  rw [ExpandM.runFrom_bind_of_ok hrun]
  rfl

/-- On pause a function is come through without a change. -/
theorem idles_expandFunction (expander : Expander) (file : FileOrigin) (count allowed : Nat)
    (decl : FunctionDecl) :
    ExpandM.Idles (σ := σ) count (fun _ => True) fun fuel =>
      expandFunction (pausedAt { expander, file } count)
        ((pausedAt { expander, file } count).walk fuel) allowed decl := by
  unfold expandFunction
  refine (idles_walkBlock expander file count _ decl.body).bind ?_
  rintro _ rfl
  exact .pure True.intro

/-- On pause a block outside of functions is come through without a change. -/
theorem idles_expandLoose (expander : Expander) (file : FileOrigin) (count : Nat) (scope : Scope)
    (block : Block) (span : Span) :
    ExpandM.Idles (σ := σ) count (fun _ => True) fun fuel =>
      expandLoose (pausedAt { expander, file } count)
        ((pausedAt { expander, file } count).walk fuel) scope block span := by
  unfold expandLoose
  refine (idles_walkBlock expander file count scope block).bind ?_
  rintro _ rfl
  exact .pure True.intro

/-- On pause a member comes to something and changes nothing. -/
theorem idles_expandMember (expander : Expander) (file : FileOrigin) (count : Nat)
    (member : Member) :
    ExpandM.Idles (σ := σ) count (fun _ => True) fun fuel =>
      expandMember (pausedAt { expander, file } count)
        ((pausedAt { expander, file } count).walk fuel) member := by
  cases member with
  | function decl =>
    exact (idles_expandFunction expander file count _ decl).bind fun _ _ => .pure True.intro
  | property decl =>
    have hproperty : ExpandM.Idles (σ := σ) count (fun _ => True) fun fuel =>
        expandProperty (pausedAt { expander, file } count)
          ((pausedAt { expander, file } count).walk fuel) decl := by
      refine (ExpandM.Idles.mapM (fun accessor => ?_) decl.accessors).bind fun _ _ => .pure True.intro
      exact (idles_expandLoose expander file count _ _ _).bind fun _ _ => .pure True.intro
    exact hproperty.bind fun _ _ => .pure True.intro

/-- On pause an item comes to something and changes nothing. -/
theorem idles_expandItem (expander : Expander) (file : FileOrigin) (count : Nat) (item : Item) :
    ExpandM.Idles (σ := σ) count (fun _ => True) fun fuel =>
      expandItem (pausedAt { expander, file } count)
        ((pausedAt { expander, file } count).walk fuel) item := by
  cases item with
  | function decl =>
    exact (idles_expandFunction expander file count _ decl).bind fun _ _ => .pure True.intro
  | typeDecl decl =>
    exact (ExpandM.Idles.mapM (idles_expandMember expander file count) _).bind fun _ _ =>
      .pure True.intro
  | statements block =>
    exact (idles_expandLoose expander file count _ _ _).bind fun _ _ => .pure True.intro

/-! ## Calls in members and items -/

/-- What is seen in a body outside of functions is put back in the body. -/
theorem expandLoose_tracks (expander : Expander) (file : FileOrigin) (count nesting : Nat)
    (scope : Scope) (block : Block) (span : Span) :
    ExpandM.Tracks (σ := σ) count
      (fun site body => site.Sees (σ := σ) { expander, file } count scope body)
      (expandLoose { expander, file } (walk { expander, file } nesting) scope block span)
      fun fuel => expandLoose (pausedAt { expander, file } count)
        ((pausedAt { expander, file } count).walk fuel) scope block span := by
  unfold expandLoose
  refine (walkBlock_tracks expander file count nesting scope block).bind (fun flow => ?_) ?_
  · cases flow with
    | proceed body => exact .pure _
    | replaceFunction decl => exact .throw _ _
  · rintro site _ ⟨body, rfl, hsees⟩
    exact .pure hsees

/-- A call in a function is seen in the function as it is by then. -/
theorem expandFunction_tracks_owned (expander : Expander) (file : FileOrigin)
    (count nesting allowed : Nat) (decl : FunctionDecl) :
    ExpandM.Tracks (σ := σ) count
      (fun site last =>
        site.IsSeenAmong (σ := σ) { expander, file } count [(.function last, last.body)])
      (expandFunction { expander, file } (walk { expander, file } nesting) allowed decl)
      fun fuel => expandFunction (pausedAt { expander, file } count)
        ((pausedAt { expander, file } count).walk fuel) allowed decl :=
  (expandFunction_tracks_body expander file count nesting allowed decl).mono fun _ _ hsees =>
    hsees.isSeenAmong List.mem_cons_self rfl

/-- A call in an accessor is seen in the accessor. -/
theorem expandProperty_tracks_owned (expander : Expander) (file : FileOrigin) (count nesting : Nat)
    (decl : PropertyDecl) :
    ExpandM.Tracks (σ := σ) count
      (fun site decl => site.IsSeenAmong (σ := σ) { expander, file } count
        (Member.ownedBodies (.property decl)))
      (expandProperty { expander, file } (walk { expander, file } nesting) decl)
      fun fuel => expandProperty (pausedAt { expander, file } count)
        ((pausedAt { expander, file } count).walk fuel) decl := by
  have haccessor (accessor : Accessor) :
      ExpandM.Tracks (σ := σ) count
        (fun site accessor => site.Sees (σ := σ) { expander, file } count
          (.ofAccessor decl.name accessor.kind) accessor.body)
        (do
          let scope := Scope.ofAccessor decl.name accessor.kind
          return { accessor with
            body := ← expandLoose { expander, file } (walk { expander, file } nesting) scope
              accessor.body accessor.span })
        fun fuel => do
          let scope := Scope.ofAccessor decl.name accessor.kind
          return { accessor with
            body := ← expandLoose (pausedAt { expander, file } count)
              ((pausedAt { expander, file } count).walk fuel) scope accessor.body accessor.span } :=
    (expandLoose_tracks expander file count nesting _ _ _).bind (fun _ => .pure _)
      fun _ _ hsees => .pure hsees
  refine (ExpandM.Tracks.mapM haccessor (fun accessor => ?_) _).bind (fun _ => .pure _) ?_
  · exact (idles_expandLoose expander file count _ _ _).bind fun _ _ => .pure True.intro
  · rintro site accessors ⟨accessor, hmem, hsees⟩
    exact .pure (hsees.isSeenAmong (List.mem_map.mpr ⟨accessor, hmem, rfl⟩) rfl)

/-- A call in a member is seen in the member as it is by then. -/
theorem expandMember_tracks_owned (expander : Expander) (file : FileOrigin) (count nesting : Nat)
    (member : Member) :
    ExpandM.Tracks (σ := σ) count
      (fun site member => site.IsSeenAmong (σ := σ) { expander, file } count member.ownedBodies)
      (expandMember { expander, file } (walk { expander, file } nesting) member)
      fun fuel => expandMember (pausedAt { expander, file } count)
        ((pausedAt { expander, file } count).walk fuel) member := by
  cases member with
  | function decl =>
    exact (expandFunction_tracks_owned expander file count nesting _ decl).bind (fun _ => .pure _)
      fun _ _ hseen => .pure hseen
  | property decl =>
    exact (expandProperty_tracks_owned expander file count nesting decl).bind (fun _ => .pure _)
      fun _ _ hseen => .pure hseen

/-- A call in an item is seen in the member around it as it is by then. -/
theorem expandItem_tracks_owned (expander : Expander) (file : FileOrigin) (count nesting : Nat)
    (item : Item) :
    ExpandM.Tracks (σ := σ) count
      (fun site item => site.IsSeenAmong (σ := σ) { expander, file } count item.ownedBodies)
      (expandItem { expander, file } (walk { expander, file } nesting) item)
      fun fuel => expandItem (pausedAt { expander, file } count)
        ((pausedAt { expander, file } count).walk fuel) item := by
  cases item with
  | function decl =>
    exact (expandFunction_tracks_owned expander file count nesting _ decl).bind (fun _ => .pure _)
      fun _ _ hseen => .pure hseen
  | typeDecl decl =>
    refine (ExpandM.Tracks.mapM (expandMember_tracks_owned expander file count nesting)
      (idles_expandMember expander file count) _).bind (fun _ => .pure _) ?_
    rintro site members ⟨member, hmem, hseen⟩
    exact .pure (hseen.mono fun body hbody => List.mem_flatMap.mpr ⟨member, hmem, hbody⟩)
  | statements block =>
    exact (expandLoose_tracks expander file count nesting _ _ _).bind (fun _ => .pure _)
      fun _ _ hsees => .pure (hsees.isSeenAmong List.mem_cons_self rfl)

end FileWalk

/-! ## Files -/

namespace Expander

/-- The program that expands the items of a file until it pauses. -/
def pausedProgram (expander : Expander) (tree : SyntaxTree) (count fuel : Nat) :
    ExpandM (Recording σ) (List Item) :=
  let walk := FileWalk.pausedAt { expander, file := { path := tree.path, text := tree.source } } count
  tree.items.mapM (walk.expandItem (walk.walk fuel))

/-- The items of a file as they stand when so many macros were invoked: what the expansion leaves
behind when it pauses there. -/
def StandAfter (expander : Expander) (tree : SyntaxTree) (workspace : Workspace σ) (count : Nat)
    (items : List Item) : Prop :=
  ∃ stopped, stopped.invocations.length = count ∧
    ExpandM.ComesTo (expander.pausedProgram tree count) { toWorkspace := workspace.recorded }
      (.ok items, stopped)

/-- A macro that is invoked while a file is expanded sees the member that its call stands in, in the
file as it is rewritten by then. -/
theorem seen_of_invoked {expander : Expander} {nesting count : Nat} {tree : SyntaxTree}
    {workspace : Workspace σ} {name : String} {invocation : Invocation}
    (h : (expander.expandWithin nesting tree
      workspace.recorded).2.session.host.invocations[count]? = some (name, invocation)) :
    ∃ items, expander.StandAfter tree workspace count items ∧
      invocation.site.IsSeenAmong (σ := σ)
        { expander, file := { path := tree.path, text := tree.source } } count
        (items.flatMap Item.ownedBodies) := by
  have htracks := ExpandM.Tracks.mapM (σ := σ)
    (FileWalk.expandItem_tracks_owned expander ⟨tree.path, tree.source⟩ count nesting)
    (FileWalk.idles_expandItem expander ⟨tree.path, tree.source⟩ count) tree.items
  -- one of the items shows the site, and its bodies are among those of the file
  obtain ⟨items, stopped, ⟨item, hmem, hseen⟩, hstopped, hcomes⟩ :=
    (htracks { toWorkspace := workspace } []).seen (Nat.zero_le count) h
  exact ⟨items, ⟨stopped, hstopped, hcomes⟩,
    hseen.mono fun body hbody => List.mem_flatMap.mpr ⟨item, hmem, hbody⟩⟩

/-- A macro that is invoked while a file is expanded finds the name of the member that its call stands
in, in the file as it is rewritten by then. -/
theorem isNamedIn_of_invoked {expander : Expander} {nesting count : Nat} {tree : SyntaxTree}
    {workspace : Workspace σ} {name : String} {invocation : Invocation}
    (h : (expander.expandWithin nesting tree
      workspace.recorded).2.session.host.invocations[count]? = some (name, invocation)) :
    ∃ items, expander.StandAfter tree workspace count items ∧
      invocation.site.IsNamedIn (items.flatMap Item.namedBodies) := by
  obtain ⟨items, hstand, hseen⟩ := seen_of_invoked h
  refine ⟨items, hstand, ?_⟩
  have hnamed := hseen.isNamedIn
  rw [List.map_flatMap] at hnamed
  rwa [List.flatMap_congr fun item _ => item.namedBodies_eq]

end Expander

end MacroExpansion
