import MacroExpansion.Proofs.Comparison
import MacroExpansion.Proofs.WalkAgrees

/-! # What the depth limit bounds

The depth limit bounds the expansions of one statement and the runs that are inserted through each
other, so the walk of one body takes no more than `limit + 2` walks within each other besides those
of the bodies nested in it. Nothing bounds how deep bodies nest: a body that a macro has written is
walked like one that was there from the start, with all expansions still to be had.

`FileWalk.bodyWalk` is the walk with a bound on nothing but the bodies under way within each other.
It ends wherever the walk does, with the same outcome (`splitWalk_endsAs_runWalk`), and the walk ends
wherever it does (`bodyWalk_endsAs_splitWalk`). -/

namespace MacroExpansion

/-! ## Ending alike -/

namespace ExpandM

variable {σ α β : Type} {first second : ExpandM σ α}

/-- Unless the first program runs out of walks within each other, the second one does the same. -/
def EndsAs (first second : ExpandM σ α) : Prop :=
  Matches (· = .exhausted) Eq first second

namespace EndsAs

/-- A program ends as itself. -/
theorem refl (program : ExpandM σ α) : EndsAs program program :=
  Matches.refl _ program

/-- Programs end alike when only what follows their common first part differs. -/
theorem bind_right {next next' : α → ExpandM σ β}
    (hnext : ∀ value, EndsAs (next value) (next' value)) :
    EndsAs (first >>= next) (first >>= next') :=
  Matches.bind_right hnext

/-- Flows are followed alike when what follows them ends alike. -/
theorem followedBy {γ : Type} {flow flow' : ExpandM σ (Flow β)} {next next' : β → ExpandM σ (Flow γ)}
    (h : EndsAs flow flow') (hnext : ∀ value, EndsAs (next value) (next' value)) :
    EndsAs (flow >>= (·.followedBy next)) (flow' >>= (·.followedBy next')) :=
  Flow.matches_followedBy_same h hnext

/-- Programs that end alike come to the same, unless the first one runs out. -/
theorem runFrom_eq (h : EndsAs first second) {progress : Progress σ}
    (hends : (first.runFrom progress).1 ≠ .error .exhausted) :
    second.runFrom progress = first.runFrom progress := by
  have hp := h progress
  rcases hf : first.runFrom progress with ⟨stop | value, ended⟩
  all_goals rw [hf] at hp hends
  · exact hp.resolve_left fun hstop => hends (congrArg _ hstop)
  · obtain ⟨_, rfl, hs⟩ := hp
    exact hs

end EndsAs

end ExpandM

variable {σ : Type}

/-- Two walks of parted sequences that end alike behind so many inserted runs. -/
def SplitWalk.EndsAs (depth : Nat) (walk walk' : SplitWalk σ) : Prop :=
  ∀ setting tail split, setting.depth = depth →
    ExpandM.EndsAs (walk setting tail split) (walk' setting tail split)

/-- Two walks of whole sequences that end alike behind so many inserted runs. -/
def SequenceWalk.EndsAs (depth : Nat) (walk walk' : SequenceWalk σ) : Prop :=
  ∀ scope span statements, ExpandM.EndsAs
    (walk scope depth span statements 0 statements.length)
    (walk' scope depth span statements 0 statements.length)

/-- Whole sequences are parted at their start. -/
theorem SplitWalk.EndsAs.onSequence {depth : Nat} {walk walk' : SplitWalk σ}
    (h : walk.EndsAs depth walk') : walk.onSequence.EndsAs depth walk'.onSequence := by
  intro scope span statements
  exact (h ⟨scope, depth, span⟩ _ _ rfl).followedBy fun _ => .refl _

namespace FileWalk

variable {walk : FileWalk σ} {walkRun walkRun' : SplitWalk σ}
  {walkNested walkNested' : SequenceWalk σ} {setting : Setting}

/-! ## Ending alike, step by step -/

/-- The output of a call is put in its place alike when the runs of outputs are walked alike. -/
theorem placeSplit_endsAs (hrun : walkRun.EndsAs (setting.depth + 1) walkRun')
    {settle settle' : Split → ExpandM σ (Flow Split)}
    (hsettle : ∀ split, ExpandM.EndsAs (settle split) (settle' split)) (split : Split)
    (bound : BoundCall) (placement : Placement) :
    ExpandM.EndsAs (walk.placeSplit walkRun settle setting split bound placement)
      (walk.placeSplit walkRun' settle' setting split bound placement) := by
  cases placement with
  | empty => exact hsettle _
  | statement stmt => exact hsettle _
  | function decl => exact .refl _
  | splice run => exact hrun _ _ _ rfl
  | inPlace expr =>
    simp only [placeSplit]
    cases (setting.cursor split).stmt.replaceCall? bound.site.call expr with
    | none => exact .refl _
    | some stmt => exact hsettle _

/-- A statement is settled alike when the runs in its place are walked alike, if one may still be
inserted there, and the statements nested in it are. -/
theorem settleSplit_endsAs
    (hrun : setting.depth ≤ walk.expander.config.maxDepth →
      walkRun.EndsAs (setting.depth + 1) walkRun')
    (hnested : walkNested.EndsAs setting.depth walkNested') (allowed : Nat) (split : Split) :
    ExpandM.EndsAs (walk.settleSplit walkRun walkNested setting allowed split)
      (walk.settleSplit walkRun' walkNested' setting allowed split) := by
  have hsettled (split : Split) :
      ExpandM.EndsAs
        (walkSlots walkNested (setting.cursor split) (Slot.all (setting.cursor split).stmt) >>=
          (·.followedBy fun stmt => return .proceed (split.after (.kept stmt))))
        (walkSlots walkNested' (setting.cursor split) (Slot.all (setting.cursor split).stmt) >>=
          (·.followedBy fun stmt => return .proceed (split.after (.kept stmt)))) :=
    have hbodies : walkNested.Matches (· = .exhausted) (setting.cursor split).depth walkNested' :=
      hnested
    Flow.matches_followedBy_same (walkSlots_matches hbodies _) fun _ => .refl _ _
  induction allowed generalizing split with
  | zero =>
    unfold settleSplit
    refine .bind_right fun next => ?_
    cases next with
    | none => exact hsettled split
    | some bound => exact .refl _
  | succ allowed ih =>
    unfold settleSplit
    refine .bind_right fun next => ?_
    cases next with
    | none => exact hsettled split
    | some bound =>
      simp only
      cases hdepth : decide (setting.depth ≤ walk.expander.config.maxDepth) with
      | false => exact .refl _
      | true =>
        -- only here a run may be inserted, where the depth allows it
        exact .bind_right (placeSplit_endsAs (hrun (of_decide_eq_true hdepth)) ih split bound)

/-- The statements of a parted sequence are settled alike when each of them is. -/
theorem walkSplit_endsAs
    (hrun : setting.depth ≤ walk.expander.config.maxDepth →
      walkRun.EndsAs (setting.depth + 1) walkRun')
    (hnested : walkNested.EndsAs setting.depth walkNested') (tail steps : Nat) (split : Split) :
    ExpandM.EndsAs (walk.walkSplit walkRun walkNested setting tail steps split)
      (walk.walkSplit walkRun' walkNested' setting tail steps split) := by
  induction steps generalizing split with
  | zero => exact .refl _
  | succ steps ih =>
    unfold walkSplit
    split
    · exact .bind_right fun _ => (settleSplit_endsAs hrun hnested _ _).followedBy ih
    · exact .refl _

/-- More walks within each other make no difference to a walk that has enough of them. -/
theorem splitWalk_endsAs (walk : FileWalk σ) {nesting nesting' : Nat} (h : nesting ≤ nesting')
    (depth : Nat) : (walk.splitWalk nesting).EndsAs depth (walk.splitWalk nesting') := by
  induction nesting generalizing nesting' depth with
  | zero => exact fun _ _ _ _ => .of_ignored rfl
  | succ nesting ih =>
    obtain ⟨nesting', rfl⟩ : ∃ fewer, nesting' = fewer + 1 := ⟨nesting' - 1, by omega⟩
    rintro setting tail split rfl
    exact walkSplit_endsAs (fun _ => ih (by omega) _) (ih (by omega) _).onSequence tail _ split

/-! ## The walk by bodies -/

/-- Walks a parted sequence and up to `runs` inserted runs within each other, with a walk of its own
for the bodies nested in them. -/
def runWalk (walk : FileWalk σ) (walkBody : SequenceWalk σ) : (runs : Nat) → SplitWalk σ
  -- a run so deep has no calls that may still be expanded
  | 0 => fun _ _ split => return .proceed split
  | runs + 1 => fun setting tail split =>
      walk.walkSplit (walk.runWalk walkBody runs) walkBody setting tail (split.todo.length - tail)
        split

/-- Walks a sequence when at most `bodies` bodies may be under way within each other. -/
def bodyWalk (walk : FileWalk σ) : (bodies : Nat) → SequenceWalk σ
  | 0 => fun _ _ _ _ _ _ => throw .exhausted
  | bodies + 1 =>
      (walk.runWalk (walk.bodyWalk bodies) (walk.expander.config.maxDepth + 2)).onSequence

/-- A walk that ends opens no more bodies within each other than there were walks. -/
theorem splitWalk_endsAs_runWalk (walk : FileWalk σ) {nesting bodies runs depth : Nat}
    (hbodies : nesting ≤ bodies) (hdepth : depth ≤ walk.expander.config.maxDepth + 1)
    (hruns : walk.expander.config.maxDepth + 2 ≤ depth + runs) :
    (walk.splitWalk nesting).EndsAs depth (walk.runWalk (walk.bodyWalk bodies) runs) := by
  induction nesting generalizing bodies runs depth with
  | zero => exact fun _ _ _ _ => .of_ignored rfl
  | succ nesting ih =>
    obtain ⟨bodies, rfl⟩ : ∃ fewer, bodies = fewer + 1 := ⟨bodies - 1, by omega⟩
    obtain ⟨runs, rfl⟩ : ∃ fewer, runs = fewer + 1 := ⟨runs - 1, by omega⟩
    rintro setting tail split rfl
    -- a run takes a walk from the runs and is one deeper; a body starts with all runs again
    refine walkSplit_endsAs (fun hlimit => ?_) ?_ tail _ split
    · exact ih (by omega) (by omega) (by omega)
    · exact (ih (by omega) hdepth (by omega)).onSequence

/-- Besides the bodies nested in it, a body takes no more walks within each other than there may be
runs. -/
theorem runWalk_endsAs_splitWalk (walk : FileWalk σ) {bodies nesting runs depth : Nat}
    (hbody : ∀ depth nesting, depth ≤ walk.expander.config.maxDepth + 1 →
      bodies * (walk.expander.config.maxDepth + 2) ≤ nesting →
      (walk.bodyWalk bodies).EndsAs depth (walk.splitWalk nesting).onSequence)
    (hnesting : bodies * (walk.expander.config.maxDepth + 2) + runs ≤ nesting)
    (hdepth : depth ≤ walk.expander.config.maxDepth + 1)
    (hruns : walk.expander.config.maxDepth + 2 ≤ depth + runs) :
    (walk.runWalk (walk.bodyWalk bodies) runs).EndsAs depth (walk.splitWalk nesting) := by
  induction runs generalizing nesting depth with
  -- so deep no run is inserted
  | zero => omega
  | succ runs ih =>
    obtain ⟨nesting, rfl⟩ : ∃ fewer, nesting = fewer + 1 := ⟨nesting - 1, by omega⟩
    rintro setting tail split rfl
    refine walkSplit_endsAs (fun hlimit => ?_) (hbody _ _ hdepth (by omega)) tail _ split
    exact ih (by omega) (by omega) (by omega)

/-- A walk of bodies ends as the walk does with `limit + 2` walks for each body. -/
theorem bodyWalk_endsAs_splitWalk (walk : FileWalk σ) {bodies nesting depth : Nat}
    (hdepth : depth ≤ walk.expander.config.maxDepth + 1)
    (hnesting : bodies * (walk.expander.config.maxDepth + 2) ≤ nesting) :
    (walk.bodyWalk bodies).EndsAs depth (walk.splitWalk nesting).onSequence := by
  induction bodies generalizing nesting depth with
  | zero => exact fun _ _ _ => .of_ignored rfl
  | succ bodies ih =>
    rw [Nat.succ_mul] at hnesting
    exact (runWalk_endsAs_splitWalk walk (fun _ _ hdepth hnesting => ih hdepth hnesting) hnesting
      hdepth (by omega)).onSequence

end FileWalk

/-! ## Whole files -/

namespace Expander

variable {walkAll walkAll' : FileWalk σ → SequenceWalk σ} {expander : Expander} {tree : SyntaxTree}
  {workspace : Workspace σ}

/-- Files are expanded alike when the sequences in them are walked alike, unless the walk runs
out. -/
theorem expandBy_eq_of_endsAs
    (h : ∀ file, SequenceWalk.EndsAs 0 (walkAll { expander, file }) (walkAll' { expander, file }))
    (hends : (expandBy walkAll expander tree workspace).1 ≠ .error .exhausted) :
    expandBy walkAll' expander tree workspace = expandBy walkAll expander tree workspace := by
  have hitems : ExpandM.EndsAs (itemsProgram walkAll expander tree)
      (itemsProgram walkAll' expander tree) :=
    ExpandM.Matches.mapM (FileWalk.expandItem_matches (.refl _ _) (h _)) tree.items
  rw [expandBy_eq, expandBy_eq, hitems.runFrom_eq]
  intro hexhausted
  refine hends ?_
  change ((itemsProgram walkAll expander tree).runFrom { toWorkspace := workspace }).1.map _ = _
  rw [hexhausted]
  rfl

/-- Expands every macro call of a file, with at most `bodies` bodies under way within each other. -/
def expandWithBodies (bodies : Nat) : Expander → SyntaxTree → Workspace σ →
    Except Stop Expansion × Workspace σ :=
  expandBy (·.bodyWalk bodies)

/-- An expansion that ends opens no more bodies within each other than there were walks. -/
theorem expandWithBodies_eq {nesting bodies : Nat} (hbodies : nesting < bodies)
    (hends : (expander.expandWithin nesting tree workspace).1 ≠ .error .exhausted) :
    expander.expandWithBodies bodies tree workspace =
      expander.expandWithin nesting tree workspace := by
  refine expandBy_eq_of_endsAs (fun file scope span statements => ?_) hends
  rw [walk_whole]
  obtain ⟨bodies, rfl⟩ : ∃ fewer, bodies = fewer + 1 := ⟨bodies - 1, by omega⟩
  exact (FileWalk.splitWalk_endsAs_runWalk _ (Nat.le_of_lt_succ hbodies) (Nat.zero_le _)
    (by omega)).onSequence scope span statements

/-- An expansion that ends takes no more than `limit + 2` walks for each of the bodies within each
other. -/
theorem expandWithin_eq {nesting bodies : Nat}
    (hnesting : bodies * (expander.config.maxDepth + 2) ≤ nesting)
    (hends : (expander.expandWithBodies bodies tree workspace).1 ≠ .error .exhausted) :
    expander.expandWithin nesting tree workspace =
      expander.expandWithBodies bodies tree workspace := by
  refine expandBy_eq_of_endsAs (fun file scope span statements => ?_) hends
  rw [walk_whole]
  exact FileWalk.bodyWalk_endsAs_splitWalk { expander, file } (Nat.zero_le _) hnesting
    scope span statements

/-- A file that is expanded with few walks within each other is expanded to the same with as many as
are allowed for. -/
theorem expand_eq {nesting : Nat}
    (hnesting : (nesting + 1) * (expander.config.maxDepth + 2) ≤ nestingBound)
    (hends : (expander.expandWithin nesting tree workspace).1 ≠ .error .exhausted) :
    expander.expand tree workspace = expander.expandWithin nesting tree workspace := by
  have hbodies := expandWithBodies_eq (Nat.lt_succ_self nesting) hends
  rw [← hbodies] at hends ⊢
  exact expandWithin_eq hnesting hends

end Expander

end MacroExpansion
