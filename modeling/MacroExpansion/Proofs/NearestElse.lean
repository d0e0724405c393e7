import MacroExpansion.Proofs.OperationTexts

/-! # Which conditional a second branch belongs to

Branches and loop bodies are written as they are. So the text of a conditional whose first branch ends
with a conditional without a second branch does not tell to which of the two a second branch belongs:
its reader takes it for that of the nearest one. `Stmt.regrouped` is the statement that such a reader
finds. Its second branches all belong to the nearest conditional (`Stmt.elsesNearest_regrouped`), and it
has the text of the statement that was written (`Stmt.text_regrouped`). -/

namespace MacroExpansion

/-- A statement that ends with a conditional without a second branch: a second branch written behind
it would be taken for that of the conditional. -/
def Stmt.isOpen : Stmt → Bool
  | .branch _ _ none _ => true
  | .branch _ _ (some elseBranch) _ => elseBranch.isOpen
  | .loop _ body _ => body.isOpen
  | .empty _ | .expr .. | .localVar .. | .block _ | .ret .. => false

mutual

/-- Every second branch belongs to the nearest conditional before it. -/
def Stmt.elsesNearest : Stmt → Bool
  | .branch _ thenBranch none _ => thenBranch.elsesNearest
  | .branch _ thenBranch (some elseBranch) _ =>
      !thenBranch.isOpen && (thenBranch.elsesNearest && elseBranch.elsesNearest)
  | .loop _ body _ => body.elsesNearest
  | .block block => block.elsesNearest
  | .empty _ | .expr .. | .localVar .. | .ret .. => true

/-- So it is in all statements of a block. -/
def Block.elsesNearest : Block → Bool
  | ⟨statements, _⟩ => stmtsElsesNearest statements

/-- So it is in all statements of a sequence. -/
def stmtsElsesNearest : List Stmt → Bool
  | [] => true
  | stmt :: rest => stmt.elsesNearest && stmtsElsesNearest rest

end

/-- A sequence has its second branches nearest when its statements have. -/
theorem stmtsElsesNearest_iff {stmts : List Stmt} :
    stmtsElsesNearest stmts = true ↔ ∀ stmt ∈ stmts, stmt.elsesNearest = true := by
  induction stmts with
  | nil => exact ⟨fun _ => nofun, fun _ => rfl⟩
  | cons stmt rest ih => rw [stmtsElsesNearest, Bool.and_eq_true, ih, List.forall_mem_cons]

/-! ## A branch behind a statement -/

/-- A statement with a second branch behind it, read as that of the nearest conditional that has
none. -/
def Stmt.attachElse : Stmt → (orElse : Stmt) → Stmt
  | .branch condition thenBranch none span, orElse =>
      if thenBranch.isOpen then .branch condition (thenBranch.attachElse orElse) none span
      else .branch condition thenBranch (some orElse) span
  | .branch condition thenBranch (some elseBranch) span, orElse =>
      .branch condition thenBranch (some (elseBranch.attachElse orElse)) span
  | .loop condition body span, orElse => .loop condition (body.attachElse orElse) span
  | .empty span, _ => .empty span
  | .expr e span, _ => .expr e span
  | .localVar type name init span, _ => .localVar type name init span
  | .block b, _ => .block b
  | .ret value span, _ => .ret value span
termination_by structural stmt => stmt

namespace Stmt

variable {stmt orElse : Stmt}

/-- Where a conditional without a second branch is at the end, it is written like that. -/
theorem text_attachElse (h : stmt.isOpen = true) :
    (stmt.attachElse orElse).text = stmt.text ++ " else " ++ orElse.text := by
  fun_induction attachElse stmt orElse with
  | case1 condition thenBranch span orElse hopen ih =>
    -- the conditional at the end is in the first branch, so the text goes there
    rw [text, text, ih hopen, elseText]
    simp only [String.append_assoc, String.append_empty]
  | case2 condition thenBranch span orElse hclosed =>
    -- the conditional itself is the nearest one
    rw [text, text, elseText, elseText]
    simp only [String.append_assoc, String.empty_append]
  | case3 condition thenBranch elseBranch span orElse ih =>
    rw [text, text, elseText, elseText, ih h]
    simp only [String.append_assoc]
  | case4 condition body span orElse ih =>
    rw [text, text, ih h]
    simp only [String.append_assoc]
  | case5 | case6 | case7 | case8 | case9 => cases h

/-- Behind a statement in which the second branches are nearest, so is the branch. -/
theorem elsesNearest_attachElse (h : stmt.isOpen = true) (hstmt : stmt.elsesNearest = true)
    (horElse : orElse.elsesNearest = true) : (stmt.attachElse orElse).elsesNearest = true := by
  fun_induction attachElse stmt orElse with
  | case1 condition thenBranch span orElse hopen ih => exact ih hopen hstmt horElse
  | case2 condition thenBranch span orElse hclosed =>
    rw [elsesNearest] at hstmt
    rw [elsesNearest, Bool.eq_false_iff.mpr hclosed, hstmt, horElse]
    rfl
  | case3 condition thenBranch elseBranch span orElse ih =>
    rw [elsesNearest, Bool.and_eq_true, Bool.and_eq_true] at hstmt
    obtain ⟨hclosed, hthen, helse⟩ := hstmt
    rw [elsesNearest, hclosed, hthen, ih h helse horElse]
    rfl
  | case4 condition body span orElse ih => exact ih h hstmt horElse
  | case5 | case6 | case7 | case8 | case9 => cases h

end Stmt

/-! ## The statement that is read -/

mutual

/-- The statement with every second branch taken for that of the nearest conditional. -/
def Stmt.regrouped : Stmt → Stmt
  | .branch condition thenBranch none span => .branch condition thenBranch.regrouped none span
  | .branch condition thenBranch (some elseBranch) span =>
      (Stmt.branch condition thenBranch.regrouped none span).attachElse elseBranch.regrouped
  | .loop condition body span => .loop condition body.regrouped span
  | .block b => .block b.regrouped
  | .empty span => .empty span
  | .expr e span => .expr e span
  | .localVar type name init span => .localVar type name init span
  | .ret value span => .ret value span

/-- So it is in all statements of a block. -/
def Block.regrouped : Block → Block
  | ⟨statements, span⟩ => ⟨stmtsRegrouped statements, span⟩

/-- So it is in all statements of a sequence. -/
def stmtsRegrouped : List Stmt → List Stmt
  | [] => []
  | stmt :: rest => stmt.regrouped :: stmtsRegrouped rest

end

/-- The statements of a sequence are regrouped one by one. -/
theorem stmtsRegrouped_eq_map (stmts : List Stmt) :
    stmtsRegrouped stmts = stmts.map Stmt.regrouped := by
  induction stmts with
  | nil => rfl
  | cons stmt rest ih => rw [stmtsRegrouped, ih, List.map_cons]

mutual

/-- The statement that is read has the text of the one that was written. -/
theorem Stmt.text_regrouped : ∀ stmt : Stmt, stmt.regrouped.text = stmt.text
  | .branch condition thenBranch none span => by
      rw [Stmt.regrouped, Stmt.text, Stmt.text, thenBranch.text_regrouped]
  | .branch condition thenBranch (some elseBranch) span => by
      rw [Stmt.regrouped, Stmt.text_attachElse rfl, Stmt.text, Stmt.text, thenBranch.text_regrouped,
        elseBranch.text_regrouped, elseText, elseText]
      simp only [String.append_assoc, String.empty_append]
  | .loop condition body span => by rw [Stmt.regrouped, Stmt.text, Stmt.text, body.text_regrouped]
  | .block ⟨statements, span⟩ => by
      rw [Stmt.regrouped, Block.regrouped, Stmt.text, Stmt.text, Block.text, Block.text,
        stmtTexts_stmtsRegrouped statements]
  | .empty _ => rfl
  | .expr .. => rfl
  | .localVar .. => rfl
  | .ret .. => rfl

/-- Regrouped statements in sequence have the same texts. -/
theorem stmtTexts_stmtsRegrouped :
    ∀ stmts : List Stmt, stmtTexts (stmtsRegrouped stmts) = stmtTexts stmts
  | [] => rfl
  | stmt :: rest => by
      rw [stmtsRegrouped, stmtTexts, stmtTexts, stmt.text_regrouped, stmtTexts_stmtsRegrouped rest]

end

mutual

/-- In the statement that is read all second branches are nearest. -/
theorem Stmt.elsesNearest_regrouped : ∀ stmt : Stmt, stmt.regrouped.elsesNearest = true
  | .branch _ thenBranch none _ => thenBranch.elsesNearest_regrouped
  | .branch _ thenBranch (some elseBranch) _ =>
      Stmt.elsesNearest_attachElse rfl thenBranch.elsesNearest_regrouped
        elseBranch.elsesNearest_regrouped
  | .loop _ body _ => body.elsesNearest_regrouped
  | .block ⟨statements, _⟩ => stmtsElsesNearest_stmtsRegrouped statements
  | .empty _ => rfl
  | .expr .. => rfl
  | .localVar .. => rfl
  | .ret .. => rfl

/-- In regrouped statements in sequence every second branch belongs to the nearest conditional. -/
theorem stmtsElsesNearest_stmtsRegrouped :
    ∀ stmts : List Stmt, stmtsElsesNearest (stmtsRegrouped stmts) = true
  | [] => rfl
  | stmt :: rest =>
      Bool.and_eq_true_iff.mpr
        ⟨stmt.elsesNearest_regrouped, stmtsElsesNearest_stmtsRegrouped rest⟩

end

mutual

/-- Where all second branches are nearest, the statement is read as it was written. -/
theorem Stmt.regrouped_of_elsesNearest :
    ∀ stmt : Stmt, stmt.elsesNearest = true → stmt.regrouped = stmt
  | .branch _ thenBranch none _, h => by
      rw [Stmt.regrouped, thenBranch.regrouped_of_elsesNearest h]
  | .branch _ thenBranch (some elseBranch) _, h => by
      rw [Stmt.elsesNearest, Bool.and_eq_true, Bool.and_eq_true] at h
      obtain ⟨hclosed, hthen, helse⟩ := h
      -- nothing in the first branch takes the second one, so it goes back to where it was
      rw [Stmt.regrouped, thenBranch.regrouped_of_elsesNearest hthen,
        elseBranch.regrouped_of_elsesNearest helse, Stmt.attachElse,
        if_neg (Bool.eq_false_iff.mp (Bool.not_eq_true' _ ▸ hclosed))]
  | .loop _ body _, h => by rw [Stmt.regrouped, body.regrouped_of_elsesNearest h]
  | .block ⟨statements, _⟩, h => by
      rw [Stmt.regrouped, Block.regrouped, stmtsRegrouped_of_elsesNearest statements h]
  | .empty _, _ => rfl
  | .expr .., _ => rfl
  | .localVar .., _ => rfl
  | .ret .., _ => rfl

/-- Statements in sequence are left as they are where second branches belong to the nearest
conditionals. -/
theorem stmtsRegrouped_of_elsesNearest :
    ∀ stmts : List Stmt, stmtsElsesNearest stmts = true → stmtsRegrouped stmts = stmts
  | [], _ => rfl
  | stmt :: rest, h => by
      obtain ⟨hstmt, hrest⟩ := Bool.and_eq_true_iff.mp h
      rw [stmtsRegrouped, stmt.regrouped_of_elsesNearest hstmt,
        stmtsRegrouped_of_elsesNearest rest hrest]

end

end MacroExpansion
