import MacroExpansion.Proofs.BodyNesting
import MacroExpansion.Proofs.Composition

/-! # What bodies come to

With local macros, a body comes to the same whatever was brought about before it: to its statements
after all expansions, to the steps that were recorded on the way and to the warnings that arose
(`Yield`). `Expander.Yields` says so of the walk of a whole body from a fresh start, in the setting of
that body. The same body as a part of a longer one, from any steady progress, adds the same
(`Expander.Yields.runFrom_part`), and what a last part adds it comes to alone
(`Expander.yields_of_runFrom`). -/

namespace MacroExpansion

variable {σ : Type}

/-- The statements that code comes to, with the steps and the warnings on the way. -/
@[ext] structure Yield where
  /-- The statements after all expansions. -/
  statements : List Stmt := []
  /-- One step per expanded call. -/
  trace : List ExpansionStep := []
  /-- The warnings in the order in which they arose. -/
  warnings : List DiagnosticRecord := []

namespace Yield

/-- What two parts come to, one after the other. -/
instance : Append Yield where
  append first second :=
    { statements := first.statements ++ second.statements
      trace := first.trace ++ second.trace
      warnings := first.warnings ++ second.warnings }

/-- What a part comes to that is there several times. -/
def times : Nat → Yield → Yield
  | 0, _ => {}
  | n + 1, yield => yield ++ times n yield

variable (first second third : Yield)

/-- What two parts come to is the statements of both. -/
@[simp] theorem statements_append :
    (first ++ second).statements = first.statements ++ second.statements :=
  rfl

/-- The steps of two parts are recorded one after the other. -/
@[simp] theorem trace_append : (first ++ second).trace = first.trace ++ second.trace := rfl

/-- The warnings of two parts arise one after the other. -/
@[simp] theorem warnings_append : (first ++ second).warnings = first.warnings ++ second.warnings := rfl

/-- Nothing in front of a part adds nothing to it. -/
@[simp] theorem nil_append : ({} : Yield) ++ first = first := rfl

/-- Nothing behind a part adds nothing to it. -/
@[simp] theorem append_nil : first ++ ({} : Yield) = first :=
  Yield.ext (List.append_nil _) (List.append_nil _) (List.append_nil _)

/-- It makes no difference which parts are put together first. -/
theorem append_assoc : first ++ second ++ third = first ++ (second ++ third) :=
  Yield.ext (List.append_assoc _ _ _) (List.append_assoc _ _ _) (List.append_assoc _ _ _)

/-- Copies of one statement. -/
theorem statements_times {yield : Yield} {stmt : Stmt} (h : yield.statements = [stmt]) (n : Nat) :
    (times n yield).statements = List.replicate n stmt := by
  induction n with
  | zero => rfl
  | succ n ih => rw [times, statements_append, h, ih, List.replicate_succ, List.singleton_append]

end Yield

/-- A progress that is steady again, with the steps and warnings of a part behind those of another
progress. -/
structure Progress.Adds (rules : BindingRules) (start : Workspace σ) (yield : Yield)
    (progress ended : Progress σ) : Prop where
  steady : ended.IsSteady rules start
  trace : ended.trace.toList = progress.trace.toList ++ yield.trace
  warnings : ended.warnings.toList = progress.warnings.toList ++ yield.warnings

namespace Progress

variable {rules : BindingRules} {start : Workspace σ} {progress middle ended : Progress σ}

/-- Nothing is added to a steady progress. -/
theorem Adds.nil (h : progress.IsSteady rules start) : Adds rules start {} progress progress :=
  ⟨h, (List.append_nil _).symm, (List.append_nil _).symm⟩

/-- One part after the other is added. -/
theorem Adds.append {first second : Yield} (h : Adds rules start first progress middle)
    (h' : Adds rules start second middle ended) :
    Adds rules start (first ++ second) progress ended where
  steady := h'.steady
  trace := by rw [h'.trace, h.trace, Yield.trace_append, List.append_assoc]
  warnings := by rw [h'.warnings, h.warnings, Yield.warnings_append, List.append_assoc]

/-- A steady progress trails behind a fresh one by all that it has brought about. -/
theorem IsSteady.trails (h : progress.IsSteady rules start) :
    Trails rules start progress.trace.toList progress.warnings.toList { toWorkspace := start }
      progress :=
  ⟨.refl _ _, h, (List.append_nil _).symm, (List.append_nil _).symm⟩

/-- What a fresh progress was added to is added to the other one. -/
theorem Trails.adds {fresh : Progress σ} {yield : Yield}
    (h : Trails rules start progress.trace.toList progress.warnings.toList fresh ended)
    (htrace : fresh.trace.toList = yield.trace) (hwarnings : fresh.warnings.toList = yield.warnings) :
    Adds rules start yield progress ended :=
  ⟨h.steady', by rw [h.trace, htrace], by rw [h.warnings, hwarnings]⟩

end Progress

namespace Expander

/-- Walked from a fresh start, in the setting of the body, its statements come to this. -/
def Yields (expander : Expander) (file : FileOrigin) (nesting : Nat) (start : Workspace σ)
    (setting : Setting) (statements : List Stmt) (yield : Yield) : Prop :=
  ∃ ended, (FileWalk.splitWalk { expander, file } nesting setting 0 ⟨[], statements⟩).runFrom
      { toWorkspace := start } = (.ok (.proceed ⟨yield.statements, []⟩), ended) ∧
    ended.trace.toList = yield.trace ∧ ended.warnings.toList = yield.warnings

/-- Walked from a fresh start, in the setting of the body, its walk ends early. -/
def Stops (expander : Expander) (file : FileOrigin) (nesting : Nat) (start : Workspace σ)
    (setting : Setting) (statements : List Stmt) (stop : Stop) : Prop :=
  ((FileWalk.splitWalk { expander, file } nesting setting 0 ⟨[], statements⟩).runFrom
    { toWorkspace := start }).1 = .error stop

variable {expander : Expander} {file : FileOrigin} {nesting : Nat} {start : Workspace σ}
  {setting wider : Setting} {statements : List Stmt} {yield : Yield} {progress ended : Progress σ}

/-- A body comes to one thing. -/
theorem Yields.unique {yield' : Yield}
    (h : expander.Yields file nesting start setting statements yield)
    (h' : expander.Yields file nesting start setting statements yield') : yield' = yield := by
  obtain ⟨ended, hrun, htrace, hwarnings⟩ := h
  obtain ⟨ended', hrun', htrace', hwarnings'⟩ := h'
  obtain ⟨hflow, rfl⟩ := Prod.mk.inj (hrun.symm.trans hrun')
  obtain ⟨hstatements, -⟩ := Split.mk.inj (Flow.proceed.inj (Except.ok.inj hflow))
  exact Yield.ext hstatements.symm (htrace'.symm.trans htrace) (hwarnings'.symm.trans hwarnings)

/-- With more walks within each other a body comes to the same. -/
theorem Yields.mono {nesting' : Nat} (h : expander.Yields file nesting start setting statements yield)
    (hnesting : nesting ≤ nesting') :
    expander.Yields file nesting' start setting statements yield := by
  obtain ⟨ended, hrun, hnotes⟩ := h
  refine ⟨ended, ?_, hnotes⟩
  have hmore := FileWalk.splitWalk_endsAs { expander, file } (σ := σ) hnesting setting.depth setting 0
    ⟨[], statements⟩ rfl
  rw [hmore.runFrom_eq (by rw [hrun]; exact nofun), hrun]

/-- As a part of a longer body it adds the same. -/
theorem Yields.runFrom_part (h : expander.Yields file nesting start setting statements yield)
    (hlocal : expander.rules.HasLocalMacros start.registry)
    (hwidens : setting.Widens expander.rules wider)
    (hsteady : progress.IsSteady expander.rules start) (front behind : List Stmt) :
    ∃ ended, (FileWalk.splitWalk { expander, file } nesting wider behind.length
        ⟨front, statements ++ behind⟩).runFrom progress =
          (.ok (.proceed ⟨front ++ yield.statements, behind⟩), ended) ∧
      progress.Adds expander.rules start yield ended := by
  obtain ⟨fresh, hrun, htrace, hwarnings⟩ := h
  have hextends := FileWalk.extends_splitWalk (keepsFrame_trails hlocal file progress.trace.toList
    progress.warnings.toList) nesting setting wider 0 ⟨[], statements⟩ front behind hwidens _ _
    hsteady.trails
  rw [hrun, Split.within, List.append_nil, Nat.zero_add] at hextends
  obtain ⟨_, ended, hpart, hrelated, htrails⟩ := hextends
  cases hrelated with
  | proceed hlast =>
    subst hlast
    exact ⟨ended, hpart, htrails.adds htrace hwarnings⟩

/-- A longer body goes on behind its first part. -/
theorem Yields.runFrom_append (h : expander.Yields file nesting start setting statements yield)
    (hlocal : expander.rules.HasLocalMacros start.registry)
    (hwidens : setting.Widens expander.rules wider)
    (hsteady : progress.IsSteady expander.rules start) (front behind : List Stmt) :
    ∃ middle, progress.Adds expander.rules start yield middle ∧
      (FileWalk.splitWalk { expander, file } nesting wider 0
        ⟨front, statements ++ behind⟩).runFrom progress =
      (FileWalk.splitWalk { expander, file } nesting wider 0
        ⟨front ++ yield.statements, behind⟩).runFrom middle := by
  obtain ⟨middle, hpart, hadds⟩ := h.runFrom_part hlocal hwidens hsteady front behind
  refine ⟨middle, hadds, ?_⟩
  cases nesting with
  | zero => cases hpart
  | succ nesting =>
    rw [FileWalk.splitWalk_in_parts _ nesting _ (Nat.zero_le behind.length),
      ExpandM.runFrom_bind_of_ok hpart]
    rfl

/-- What the last part of a body adds, it comes to alone. -/
theorem yields_of_runFrom (hlocal : expander.rules.HasLocalMacros start.registry)
    (hwidens : setting.Widens expander.rules wider) (hdepth : wider.depth = setting.depth)
    (hsteady : progress.IsSteady expander.rules start) {front : List Stmt} {last : Split}
    (h : (FileWalk.splitWalk { expander, file } nesting wider 0 ⟨front, statements⟩).runFrom progress =
      (.ok (.proceed last), ended)) :
    ∃ yield, expander.Yields file nesting start setting statements yield ∧
      last = ⟨front ++ yield.statements, []⟩ ∧ progress.Adds expander.rules start yield ended := by
  have hextends := FileWalk.extends_splitWalk (keepsFrame_trails hlocal file progress.trace.toList
    progress.warnings.toList) nesting setting wider 0 ⟨[], statements⟩ front [] hwidens _ _
    hsteady.trails
  rw [Split.within, List.append_nil, List.append_nil, List.length_nil, h] at hextends
  rcases hrun : (FileWalk.splitWalk { expander, file } nesting setting 0 ⟨[], statements⟩).runFrom
    { toWorkspace := start } with ⟨stop | flow, fresh⟩
  all_goals rw [hrun] at hextends
  · -- nothing is behind the part, so it would end in the same way
    have hstop := hextends.resolve_left (fun hignored => hignored.elim (· rfl) (· hdepth))
    cases hstop
  · obtain ⟨_, _, hsame, hrelated, htrails⟩ := hextends
    cases hsame
    cases hrelated with
    | proceed hlast =>
      rename_i alone
      obtain ⟨-, hlength⟩ :=
        FileWalk.splitWalk_advances _ nesting _ _ _ _ _ _ hrun alone rfl
      obtain ⟨done, todo⟩ := alone
      obtain rfl : todo = [] := List.eq_nil_of_length_eq_zero (Nat.le_zero.mp hlength)
      exact ⟨⟨done, fresh.trace.toList, fresh.warnings.toList⟩, ⟨fresh, hrun, rfl, rfl⟩, hlast,
        htrails.adds rfl rfl⟩

end Expander

end MacroExpansion
