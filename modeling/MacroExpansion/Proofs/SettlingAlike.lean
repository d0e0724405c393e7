import MacroExpansion.Proofs.Simulation
import MacroExpansion.Proofs.WalkRelation

/-! # Settling two statements side by side

A statement is settled in two sequences, in blocks that may lie behind a different number of inserted
runs. Both look for the next call, expand it and place its output, over and over. What has to be known
of one round is enough for all of them: that the calls that are found resemble each other, that
statements without calls are settled alike, and that outputs are placed alike where the settling after
it is. -/

namespace MacroExpansion.FileWalk

variable {σ : Type} {frame : Progress σ → Progress σ → Prop} {ignored : Prop} {walk : FileWalk σ}

/-- Two statements are attended to alike where the next calls that are found in them are alike. The
second one may be attended to where the first one is not, if that is ignored. -/
theorem attend_simulates {α β : Type} {alike : BoundCall → BoundCall → Prop} {R : α → β → Prop}
    {stmt stmt' : Stmt} {site site' : Call → Site}
    {limited limited' : Bool} {settled : ExpandM σ α} {settled' : ExpandM σ β}
    {place : BoundCall → Placement → ExpandM σ α} {place' : BoundCall → Placement → ExpandM σ β}
    (hcall : ∀ bound bound', alike bound bound' → bound'.site.call = bound.site.call)
    (hlimited : limited = false → limited' = false) (hignored : limited' ≠ limited → ignored)
    (hnext : ExpandM.Simulates frame ignored (Option.Rel alike) (walk.next stmt site)
      (walk.next stmt' site'))
    (hsettled : ExpandM.Simulates frame ignored R settled settled')
    (hplace : ∀ bound bound', alike bound bound' → limited = false →
      ExpandM.Simulates frame ignored R
        (ExpandM.located bound.site.call.span walk.file.source
          (walk.expander.expandCall walk.file.source bound) >>= place bound)
        (ExpandM.located bound.site.call.span walk.file.source
          (walk.expander.expandCall walk.file.source bound') >>= place' bound')) :
    ExpandM.Simulates frame ignored R (walk.attend stmt site limited settled place)
      (walk.attend stmt' site' limited' settled' place') := by
  unfold attend
  refine hnext.bind fun next next' hrel => ?_
  cases hrel with
  | none => exact hsettled
  | @some bound bound' hbound =>
    simp only [hcall _ _ hbound]
    cases limited with
    | false =>
      rw [hlimited rfl]
      exact hplace _ _ hbound rfl
    | true =>
      cases limited' with
      | false => exact .of_ignored (hignored Bool.false_ne_true) _
      | true => exact .throw _

/-- The next statements of two parted sequences are settled alike if they are in every round. -/
theorem settleSplit_simulates (kind : Stmt → Prop) (alike : BoundCall → BoundCall → Prop)
    {R : Flow Split → Flow Split → Prop} {walkRun walkRun' : SplitWalk σ}
    {walkNested walkNested' : SequenceWalk σ} {setting other : Setting}
    {done done' rest rest' : List Stmt}
    (hcall : ∀ bound bound', alike bound bound' → bound'.site.call = bound.site.call)
    (hdepth : other.depth ≤ setting.depth) (hignored : other.depth ≠ setting.depth → ignored)
    (hnext : ∀ stmt, kind stmt →
      ExpandM.Simulates frame ignored (Option.Rel alike)
        (walk.next stmt ((setting.cursor ⟨done, stmt :: rest⟩).site walk.file.path))
        (walk.next stmt ((other.cursor ⟨done', stmt :: rest'⟩).site walk.file.path)))
    (hsettled : ∀ stmt, kind stmt →
      ExpandM.Simulates frame ignored R
        (walkSlots walkNested (setting.cursor ⟨done, stmt :: rest⟩) (Slot.all stmt) >>=
          (·.followedBy fun stmt => pure (.proceed (Split.mk (done ++ [stmt]) rest))))
        (walkSlots walkNested' (other.cursor ⟨done', stmt :: rest'⟩) (Slot.all stmt) >>=
          (·.followedBy fun stmt => pure (.proceed (Split.mk (done' ++ [stmt]) rest')))))
    (hplace : ∀ stmt bound bound' settle settle', kind stmt → alike bound bound' →
      (∀ stmt, kind stmt →
        ExpandM.Simulates frame ignored R (settle ⟨done, stmt :: rest⟩)
          (settle' ⟨done', stmt :: rest'⟩)) →
      ExpandM.Simulates frame ignored R
        (ExpandM.located bound.site.call.span walk.file.source
          (walk.expander.expandCall walk.file.source bound) >>=
            walk.placeSplit walkRun settle setting ⟨done, stmt :: rest⟩ bound)
        (ExpandM.located bound.site.call.span walk.file.source
          (walk.expander.expandCall walk.file.source bound') >>=
            walk.placeSplit walkRun' settle' other ⟨done', stmt :: rest'⟩ bound'))
    (allowed : Nat) {stmt : Stmt} (hstmt : kind stmt) :
    ExpandM.Simulates frame ignored R
      (walk.settleSplit walkRun walkNested setting allowed ⟨done, stmt :: rest⟩)
      (walk.settleSplit walkRun' walkNested' other allowed ⟨done', stmt :: rest'⟩) := by
  induction allowed generalizing stmt with
  | zero =>
    -- at the limit nothing is placed
    have place : BoundCall → Placement → ExpandM σ (Flow Split) := fun _ _ => throw .exhausted
    rw [settleSplit_zero walk walkRun walkNested setting done rest stmt place,
      settleSplit_zero walk walkRun' walkNested' other done' rest' stmt place]
    exact attend_simulates hcall id (fun hlimits => absurd rfl hlimits) (hnext stmt hstmt)
      (hsettled stmt hstmt) fun _ _ _ hlimited => nomatch hlimited
  | succ allowed ih =>
    rw [settleSplit_succ, settleSplit_succ]
    refine attend_simulates hcall (fun hlimited => ?_) (fun hlimits => ?_) (hnext stmt hstmt)
      (hsettled stmt hstmt) fun bound bound' hbound _ =>
        hplace stmt bound bound' _ _ hstmt hbound fun _ => ih
    · simp only [Bool.not_eq_false', decide_eq_true_eq] at hlimited ⊢
      exact Nat.le_trans hdepth hlimited
    · exact hignored fun hsame => hlimits (by rw [hsame])

end MacroExpansion.FileWalk
