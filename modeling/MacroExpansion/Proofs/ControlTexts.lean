import MacroExpansion.Proofs.NearestElse

/-! # Texts of statements

The text of a statement made of names, conditionals, loops and blocks tells everything but its spans,
and which conditional a second branch belongs to. Where all second branches belong to the nearest
conditional it tells that, too: then the statement can be told from its text, whatever is written behind
it, unless that is a further branch (`Stmt.Unambiguous`, by induction on the statement). So two statements
have one text just if their readers find one statement in it (`control_structure_of_text`). -/

namespace MacroExpansion

/-- The characters of names: all but those that stand next to a name in a statement. -/
def isNameChar (c : Char) : Bool :=
  !(c == ' ' || c == '(' || c == ')' || c == ';' || c == '\x7b' || c == '\x7d')

/-- A single identifier, in the widest sense. -/
structure IsName (name : String) : Prop where
  nonempty : name.toList ≠ []
  chars : ∀ c ∈ name.toList, isNameChar c = true

/-- Statements of names: the empty statement, names as statements, blocks, and conditionals and loops
whose conditions are names. -/
inductive Stmt.IsControl : Stmt → Prop where
  | empty (span : Span) : IsControl (.empty span)
  | expr {name : String} (hname : IsName name) (nameSpan span : Span) :
      IsControl (.expr (.name name nameSpan) span)
  | block {statements : List Stmt} (hstmts : ∀ stmt ∈ statements, IsControl stmt) (span : Span) :
      IsControl (.block ⟨statements, span⟩)
  | branch {name : String} {thenBranch : Stmt} (hname : IsName name) (hthen : IsControl thenBranch)
      (nameSpan span : Span) : IsControl (.branch (.name name nameSpan) thenBranch none span)
  | branchElse {name : String} {thenBranch elseBranch : Stmt} (hname : IsName name)
      (hthen : IsControl thenBranch) (helse : IsControl elseBranch) (nameSpan span : Span) :
      IsControl (.branch (.name name nameSpan) thenBranch (some elseBranch) span)
  | loop {name : String} {body : Stmt} (hname : IsName name) (hbody : IsControl body)
      (nameSpan span : Span) : IsControl (.loop (.name name nameSpan) body span)

mutual

/-- A statement that tells no longer where it is written. Lambdas are left as they are. -/
def Stmt.withoutSpans : Stmt → Stmt
  | .empty _ => .empty default
  | .expr e _ => .expr e.withoutSpans default
  | .localVar type name init _ => .localVar type name (init.map Expr.withoutSpans) default
  | .block b => .block b.withoutSpans
  | .branch condition thenBranch none _ =>
      .branch condition.withoutSpans thenBranch.withoutSpans none default
  | .branch condition thenBranch (some elseBranch) _ =>
      .branch condition.withoutSpans thenBranch.withoutSpans (some elseBranch.withoutSpans) default
  | .loop condition body _ => .loop condition.withoutSpans body.withoutSpans default
  | .ret value _ => .ret (value.map Expr.withoutSpans) default

/-- A block that tells no longer where it is written. -/
def Block.withoutSpans : Block → Block
  | ⟨statements, _⟩ => ⟨stmtsWithoutSpans statements, default⟩

/-- Statements that tell no longer where they are written. -/
def stmtsWithoutSpans : List Stmt → List Stmt
  | [] => []
  | stmt :: rest => stmt.withoutSpans :: stmtsWithoutSpans rest

end

/-- The statements of a sequence lose their spans one by one. -/
theorem stmtsWithoutSpans_eq_map (stmts : List Stmt) :
    stmtsWithoutSpans stmts = stmts.map Stmt.withoutSpans := by
  induction stmts with
  | nil => rfl
  | cons stmt rest ih => rw [stmtsWithoutSpans, ih, List.map_cons]

/-! ## Characters -/

namespace Stmt

/-- The characters of a statement. -/
def chars (stmt : Stmt) : List Char :=
  stmt.text.toList

/-- The characters of statements within a block. -/
def bodyChars (stmts : List Stmt) : List Char :=
  stmts.flatMap fun stmt => ' ' :: stmt.chars

/-- What is written before a second branch. -/
def elseChars : List Char := " else ".toList

/-- Texts in sequence within braces stand behind a blank each. -/
theorem toList_bracedText (texts : List String) :
    (bracedText texts).toList =
      '\x7b' :: (texts.flatMap (fun text => ' ' :: text.toList) ++ [' ', '\x7d']) := by
  have hjoin (first : String) (rest : List String) :
      ' ' :: (joinTexts " " (first :: rest)).toList =
        (first :: rest).flatMap fun text => ' ' :: text.toList := by
    induction rest generalizing first with
    | nil => simp [joinTexts]
    | cons second rest ih => simp [joinTexts, ih second]
  cases texts with
  | nil => rfl
  | cons first rest => simp [bracedText, ← hjoin first rest]

section

variable (name : String) (nameSpan span : Span) (rest : List Char)

/-- The text of an empty statement, with what is behind it. -/
theorem chars_empty_append : chars (.empty span) ++ rest = ';' :: rest := by
  simp [chars, text]

/-- The text of a name that is evaluated, with what is behind it. -/
theorem chars_expr_append :
    chars (.expr (.name name nameSpan) span) ++ rest = name.toList ++ ';' :: rest := by
  simp [chars, text, Expr.text]

/-- The text of a block, with what is behind it. -/
theorem chars_block_append (statements : List Stmt) :
    chars (.block ⟨statements, span⟩) ++ rest =
      '\x7b' :: (bodyChars statements ++ ' ' :: '\x7d' :: rest) := by
  rw [chars, text, Block.text, toList_bracedText, stmtTexts_eq_map, List.flatMap_map]
  exact congrArg _ (List.append_assoc _ _ _)

/-- The text of a branch without an alternative, with what is behind it. -/
theorem chars_branch_append (thenBranch : Stmt) :
    chars (.branch (.name name nameSpan) thenBranch none span) ++ rest =
      ['i', 'f', ' ', '('] ++ (name.toList ++ ')' :: ' ' :: (thenBranch.chars ++ rest)) := by
  simp [chars, text, elseText, Expr.text]

/-- The text of a branch with an alternative, with what is behind it. -/
theorem chars_branchElse_append (thenBranch elseBranch : Stmt) :
    chars (.branch (.name name nameSpan) thenBranch (some elseBranch) span) ++ rest =
      ['i', 'f', ' ', '('] ++
        (name.toList ++
          ')' :: ' ' :: (thenBranch.chars ++ (elseChars ++ (elseBranch.chars ++ rest)))) := by
  simp [chars, text, elseText, Expr.text, elseChars]

/-- The text of a loop, with what is behind it. -/
theorem chars_loop_append (body : Stmt) :
    chars (.loop (.name name nameSpan) body span) ++ rest =
      ['w', 'h', 'i', 'l', 'e', ' ', '('] ++
        (name.toList ++ ')' :: ' ' :: (body.chars ++ rest)) := by
  simp [chars, text, Expr.text]

/-- The texts of statements in a block stand one behind the other. -/
theorem bodyChars_cons_append (stmt : Stmt) (stmts : List Stmt) :
    bodyChars (stmt :: stmts) ++ rest = ' ' :: (stmt.chars ++ (bodyChars stmts ++ rest)) := by
  simp [bodyChars]

end

/-! ## How statements begin -/

/-- The characters of a name that a statement begins with, and the one behind them. -/
def opening : Stmt → List Char × Char
  | .empty _ => ([], ';')
  | .expr e _ => (e.text.toList, ';')
  | .block _ => ([], '\x7b')
  | .branch .. => (['i', 'f'], ' ')
  | .loop .. => (['w', 'h', 'i', 'l', 'e'], ' ')
  | .localVar .. | .ret .. => ([], ' ')

/-- A name is told from what is behind it. -/
theorem name_append_inj {xs ys s t : List Char} {c d : Char}
    (hxs : ∀ c ∈ xs, isNameChar c = true) (hys : ∀ c ∈ ys, isNameChar c = true)
    (hc : isNameChar c = false) (hd : isNameChar d = false) (h : xs ++ c :: s = ys ++ d :: t) :
    xs = ys ∧ c = d ∧ s = t := by
  obtain ⟨hnames, hrest⟩ := append_inj_of_kind hxs hys (by simpa using hc) (by simpa using hd) h
  exact ⟨hnames, List.cons.inj hrest⟩

namespace IsControl

variable {stmt other : Stmt} {u v : List Char}

/-- The word that a statement begins with consists of the characters of names. -/
theorem isNameChar_opening (h : stmt.IsControl) : ∀ c ∈ stmt.opening.1, isNameChar c = true := by
  cases h with
  | empty | block => exact nofun
  | expr hname => exact hname.chars
  | branch | branchElse | loop => simp [opening, isNameChar]

/-- The word that a statement begins with ends where the next character is none of a name. -/
theorem opening_ends (h : stmt.IsControl) : isNameChar stmt.opening.2 = false := by
  cases h <;> rfl

/-- A statement begins with its opening. -/
theorem exists_chars (h : stmt.IsControl) (u : List Char) :
    ∃ rest, stmt.chars ++ u = stmt.opening.1 ++ stmt.opening.2 :: rest := by
  cases h with
  | empty => exact ⟨_, chars_empty_append _ u⟩
  | expr => exact ⟨_, chars_expr_append _ _ _ u⟩
  | block => exact ⟨_, chars_block_append _ u _⟩
  | branch => exact ⟨_, chars_branch_append _ _ _ u _⟩
  | branchElse => exact ⟨_, chars_branchElse_append _ _ _ u _ _⟩
  | loop => exact ⟨_, chars_loop_append _ _ _ u _⟩

/-- What a statement begins with is its opening. -/
theorem opening_eq (h : stmt.IsControl) {name rest : List Char} {sep : Char}
    (hname : ∀ c ∈ name, isNameChar c = true) (hsep : isNameChar sep = false)
    (heq : stmt.chars ++ u = name ++ sep :: rest) : stmt.opening = (name, sep) := by
  obtain ⟨behind, hchars⟩ := h.exists_chars u
  obtain ⟨hnames, hseps, -⟩ :=
    name_append_inj h.isNameChar_opening hname h.opening_ends hsep (hchars.symm.trans heq)
  exact Prod.ext hnames hseps

/-- Statements with one text have one opening. -/
theorem opening_eq_of_chars (h : stmt.IsControl) (hother : other.IsControl)
    (heq : stmt.chars ++ u = other.chars ++ v) : stmt.opening = other.opening := by
  obtain ⟨behind, hchars⟩ := hother.exists_chars v
  exact h.opening_eq hother.isNameChar_opening hother.opening_ends (heq.trans hchars)

/-- No statement begins as a second branch does. -/
theorem not_else (h : stmt.IsControl) : ¬ elseChars <+: ' ' :: (stmt.chars ++ u) := by
  rintro ⟨rest, hrest⟩
  have heq : stmt.chars ++ u = ['e', 'l', 's', 'e'] ++ ' ' :: rest := (List.cons.inj hrest).2.symm
  have hopening := h.opening_eq (List.all_eq_true.mp (by decide)) (by decide) heq
  cases h <;> simp [opening] at hopening

/-- No statement begins as a block ends. -/
theorem not_close (h : stmt.IsControl) {rest : List Char} : stmt.chars ++ u ≠ '\x7d' :: rest := by
  intro heq
  have hopening : stmt.opening = ([], '\x7d') := h.opening_eq nofun (by decide) heq
  cases h <;> simp [opening] at hopening

end IsControl

/-! ## Telling statements from their texts -/

/-- Behind a keyword a condition is told from what is behind it. -/
theorem condition_inj {keyword u v : List Char} {name name' : String} (hname : IsName name)
    (hname' : IsName name')
    (h : keyword ++ (name.toList ++ ')' :: ' ' :: u) =
      keyword ++ (name'.toList ++ ')' :: ' ' :: v)) :
    name = name' ∧ u = v := by
  obtain ⟨hnames, -, hrest⟩ :=
    name_append_inj hname.chars hname'.chars rfl rfl (List.append_cancel_left h)
  exact ⟨String.toList_inj.mp hnames, (List.cons.inj hrest).2⟩

/-- What is written behind a statement is not taken for a part of it. -/
def EndsBefore (stmt : Stmt) (rest : List Char) : Prop :=
  stmt.isOpen = true → ¬ elseChars <+: rest

/-- Behind a statement that is not open anything may be written. -/
theorem endsBefore_of_closed {stmt : Stmt} (h : (!stmt.isOpen) = true) (rest : List Char) :
    stmt.EndsBefore rest := by
  intro hopen
  rw [hopen] at h
  cases h

/-- The statement can be told from a text that it begins. -/
def Unambiguous (stmt : Stmt) : Prop :=
  ∀ {other : Stmt} {u v : List Char}, other.IsControl → other.elsesNearest = true →
    stmt.EndsBefore u → other.EndsBefore v → stmt.chars ++ u = other.chars ++ v →
      stmt.withoutSpans = other.withoutSpans ∧ u = v

/-- Sequences within a block are told from their texts if their statements are. -/
theorem body_unambiguous {stmts others : List Stmt} {u v : List Char}
    (hstmts : ∀ stmt ∈ stmts, stmt.IsControl ∧ stmt.Unambiguous)
    (hothers : ∀ stmt ∈ others, stmt.IsControl ∧ stmt.elsesNearest = true)
    (heq : bodyChars stmts ++ (' ' :: '\x7d' :: u) = bodyChars others ++ (' ' :: '\x7d' :: v)) :
    stmtsWithoutSpans stmts = stmtsWithoutSpans others ∧ u = v := by
  -- behind a statement of a block there is another one or the end of the block
  have hends {stmt : Stmt} {stmts : List Stmt} {u : List Char} (h : ∀ stmt ∈ stmts, stmt.IsControl) :
      stmt.EndsBefore (bodyChars stmts ++ (' ' :: '\x7d' :: u)) := by
    intro _
    cases stmts with
    | nil => simp [bodyChars, elseChars]
    | cons next rest =>
      rw [bodyChars_cons_append]
      exact (h next List.mem_cons_self).not_else
  induction stmts generalizing others with
  | nil =>
    cases others with
    | nil => exact ⟨rfl, by simpa [bodyChars] using heq⟩
    | cons other others =>
      rw [bodyChars_cons_append] at heq
      exact absurd (List.cons.inj heq).2.symm (hothers other List.mem_cons_self).1.not_close
  | cons stmt stmts ih =>
    obtain ⟨⟨hstmt, htold⟩, hrest⟩ := List.forall_mem_cons.mp hstmts
    rw [bodyChars_cons_append] at heq
    cases others with
    | nil => exact absurd (List.cons.inj heq).2 hstmt.not_close
    | cons other others =>
      obtain ⟨⟨hother, hnearest⟩, hothers⟩ := List.forall_mem_cons.mp hothers
      rw [bodyChars_cons_append] at heq
      obtain ⟨hfirst, heq⟩ := htold hother hnearest (hends fun stmt h => (hrest stmt h).1)
        (hends fun stmt h => (hothers stmt h).1) (List.cons.inj heq).2
      obtain ⟨hrests, hbehind⟩ := ih hrest hothers heq
      exact ⟨congrArg₂ List.cons hfirst hrests, hbehind⟩

/-- A conditional is told from its text if its branch is: where the other statement goes on with a
second branch, that one would be the nearest of this statement. -/
theorem branch_unambiguous {name : String} {thenBranch : Stmt} (hname : IsName name)
    (hthen : thenBranch.IsControl) (htold : thenBranch.Unambiguous) (nameSpan span : Span) :
    (Stmt.branch (.name name nameSpan) thenBranch none span).Unambiguous := by
  intro other u v hother hnear hu hv heq
  have hopening := (IsControl.branch hname hthen nameSpan span).opening_eq_of_chars hother heq
  rw [chars_branch_append] at heq
  cases hother with
  | branch hname' hthen' =>
    rw [chars_branch_append] at heq
    obtain ⟨rfl, hbehind⟩ := condition_inj hname hname' heq
    obtain ⟨hbranch, hrest⟩ := htold hthen' hnear (fun _ => hu rfl) (fun _ => hv rfl) hbehind
    exact ⟨congrArg (Stmt.branch (.name name default) · none default) hbranch, hrest⟩
  | branchElse hname' hthen' =>
    rw [chars_branchElse_append] at heq
    obtain ⟨rfl, hbehind⟩ := condition_inj hname hname' heq
    rw [elsesNearest, Bool.and_eq_true, Bool.and_eq_true] at hnear
    obtain ⟨-, hrest⟩ := htold hthen' hnear.2.1 (fun _ => hu rfl) (endsBefore_of_closed hnear.1 _)
      hbehind
    exact absurd ⟨_, hrest.symm⟩ (hu rfl)
  | empty | expr | block | loop => simp [opening] at hopening

/-- A conditional with a second branch is told from its text if both branches are, and the first one
leaves no second branch open. -/
theorem branchElse_unambiguous {name : String} {thenBranch elseBranch : Stmt} (hname : IsName name)
    (hthen : thenBranch.IsControl) (helse : elseBranch.IsControl)
    (hclosed : (!thenBranch.isOpen) = true) (htold : thenBranch.Unambiguous)
    (htold' : elseBranch.Unambiguous) (nameSpan span : Span) :
    (Stmt.branch (.name name nameSpan) thenBranch (some elseBranch) span).Unambiguous := by
  intro other u v hother hnear hu hv heq
  have hopening :=
    (IsControl.branchElse hname hthen helse nameSpan span).opening_eq_of_chars hother heq
  rw [chars_branchElse_append] at heq
  cases hother with
  | branch hname' hthen' =>
    rw [chars_branch_append] at heq
    obtain ⟨rfl, hbehind⟩ := condition_inj hname hname' heq
    obtain ⟨-, hrest⟩ := htold hthen' hnear (endsBefore_of_closed hclosed _) (fun _ => hv rfl)
      hbehind
    exact absurd ⟨_, hrest⟩ (hv rfl)
  | branchElse hname' hthen' helse' =>
    rw [chars_branchElse_append] at heq
    obtain ⟨rfl, hbehind⟩ := condition_inj hname hname' heq
    rw [elsesNearest, Bool.and_eq_true, Bool.and_eq_true] at hnear
    obtain ⟨hfirst, hrests⟩ := htold hthen' hnear.2.1 (endsBefore_of_closed hclosed _)
      (endsBefore_of_closed hnear.1 _) hbehind
    obtain ⟨hsecond, hrest⟩ := htold' helse' hnear.2.2 hu hv (List.append_cancel_left hrests)
    exact ⟨congrArg₂ (fun first second => Stmt.branch (.name name default) first (some second) default)
      hfirst hsecond, hrest⟩
  | empty | expr | block | loop => simp [opening] at hopening

/-- A statement in which all second branches are nearest can be told from its text. -/
theorem IsControl.unambiguous {stmt : Stmt} (h : stmt.IsControl)
    (hnearest : stmt.elsesNearest = true) : stmt.Unambiguous := by
  induction h with
  | empty span =>
    intro other u v hother _ _ _ heq
    have hopening := (IsControl.empty span).opening_eq_of_chars hother heq
    cases hother with
    | empty =>
      rw [chars_empty_append, chars_empty_append] at heq
      exact ⟨rfl, (List.cons.inj heq).2⟩
    | expr hname => exact absurd (congrArg Prod.fst hopening).symm hname.nonempty
    | block | branch | branchElse | loop => simp [opening] at hopening
  | @expr name hname nameSpan span =>
    intro other u v hother _ _ _ heq
    have hopening := (IsControl.expr hname nameSpan span).opening_eq_of_chars hother heq
    cases hother with
    | empty => exact absurd (congrArg Prod.fst hopening) hname.nonempty
    | expr hname' =>
      rw [chars_expr_append, chars_expr_append] at heq
      obtain ⟨hnames, -, hrest⟩ := name_append_inj hname.chars hname'.chars rfl rfl heq
      obtain rfl := String.toList_inj.mp hnames
      exact ⟨rfl, hrest⟩
    | block | branch | branchElse | loop => simp [opening] at hopening
  | @block statements hstmts span ih =>
    intro other u v hother hnear _ _ heq
    have hopening := (IsControl.block hstmts span).opening_eq_of_chars hother heq
    cases hother with
    | @block statements' hstmts' =>
      rw [chars_block_append, chars_block_append] at heq
      have hnearest := stmtsElsesNearest_iff.mp hnearest
      have hnear := stmtsElsesNearest_iff.mp hnear
      obtain ⟨hsame, hbehind⟩ :=
        body_unambiguous (fun stmt h => ⟨hstmts stmt h, ih stmt h (hnearest stmt h)⟩)
          (fun stmt h => ⟨hstmts' stmt h, hnear stmt h⟩) (List.cons.inj heq).2
      exact ⟨congrArg (fun stmts => Stmt.block ⟨stmts, default⟩) hsame, hbehind⟩
    | empty | expr | branch | branchElse | loop => simp [opening] at hopening
  | branch hname hthen nameSpan span ih =>
    exact branch_unambiguous hname hthen (ih hnearest) nameSpan span
  | branchElse hname hthen helse nameSpan span ihThen ihElse =>
    rw [elsesNearest, Bool.and_eq_true, Bool.and_eq_true] at hnearest
    obtain ⟨hclosed, hnearThen, hnearElse⟩ := hnearest
    exact branchElse_unambiguous hname hthen helse hclosed (ihThen hnearThen) (ihElse hnearElse)
      nameSpan span
  | @loop name body hname hbody nameSpan span ih =>
    intro other u v hother hnear hu hv heq
    have hopening := (IsControl.loop hname hbody nameSpan span).opening_eq_of_chars hother heq
    cases hother with
    | loop hname' hbody' =>
      rw [chars_loop_append, chars_loop_append] at heq
      obtain ⟨rfl, hbehind⟩ := condition_inj hname hname' heq
      obtain ⟨hsame, hrest⟩ := ih hnearest hbody' hnear hu hv hbehind
      exact ⟨congrArg (Stmt.loop (.name name default) · default) hsame, hrest⟩
    | empty | expr | block | branch | branchElse => simp [opening] at hopening

/-! ## The statement that is read -/

/-- Where spans stand does not show in a text. -/
theorem IsControl.text_withoutSpans {stmt : Stmt} (h : stmt.IsControl) :
    stmt.withoutSpans.text = stmt.text := by
  induction h with
  | empty | expr => rfl
  | @block statements _ span ih =>
    have htexts : stmtTexts (stmtsWithoutSpans statements) = stmtTexts statements := by
      rw [stmtTexts_eq_map, stmtTexts_eq_map, stmtsWithoutSpans_eq_map, List.map_map]
      exact List.map_congr_left ih
    rw [withoutSpans, Block.withoutSpans, text, text, Block.text, Block.text, htexts]
  | branch _ _ _ _ ih =>
    rw [withoutSpans, text, text, ih]
    rfl
  | branchElse _ _ _ _ _ ihThen ihElse =>
    rw [withoutSpans, text, text, elseText, elseText, ihThen, ihElse]
    rfl
  | loop _ _ _ _ ih =>
    rw [withoutSpans, text, text, ih]
    rfl

/-- A statement of names with another one as a branch behind it is one. -/
theorem IsControl.attachElse {stmt orElse : Stmt} (h : stmt.IsControl) (helse : orElse.IsControl) :
    (stmt.attachElse orElse).IsControl := by
  induction h with
  | empty span => exact .empty span
  | expr hname nameSpan span => exact .expr hname nameSpan span
  | block hstmts span => exact .block hstmts span
  | branch hname hthen nameSpan span ih =>
    rw [Stmt.attachElse]
    split
    · exact .branch hname ih nameSpan span
    · exact .branchElse hname hthen helse nameSpan span
  | branchElse hname hthen _ nameSpan span _ ih => exact .branchElse hname hthen ih nameSpan span
  | loop hname _ nameSpan span ih => exact .loop hname ih nameSpan span

/-- The statement that is read is made of names, too. -/
theorem IsControl.regrouped {stmt : Stmt} (h : stmt.IsControl) : stmt.regrouped.IsControl := by
  induction h with
  | empty span => exact .empty span
  | expr hname nameSpan span => exact .expr hname nameSpan span
  | @block statements _ span ih =>
    refine .block ?_ span
    rw [stmtsRegrouped_eq_map]
    exact List.forall_mem_map.mpr ih
  | branch hname _ nameSpan span ih => exact .branch hname ih nameSpan span
  | branchElse hname _ _ nameSpan span ihThen ihElse =>
    exact (IsControl.branch hname ihThen nameSpan span).attachElse ihElse
  | loop hname _ nameSpan span ih => exact .loop hname ih nameSpan span

/-- Where all second branches are nearest, a statement is told from its text. -/
theorem IsControl.eq_of_text {stmt other : Stmt} (h : stmt.IsControl) (hother : other.IsControl)
    (hnearest : stmt.elsesNearest = true) (hnearest' : other.elsesNearest = true)
    (htext : stmt.text = other.text) : stmt.withoutSpans = other.withoutSpans := by
  have hnothing (stmt : Stmt) : stmt.EndsBefore [] := fun _ => by simp [elseChars]
  exact (h.unambiguous hnearest hother hnearest' (hnothing stmt) (hnothing other)
    (congrArg (·.toList ++ []) htext)).1

end Stmt

/-- Texts keep the control structure of statements, but for which conditional a second branch belongs
to. Two statements of names, conditionals, loops and blocks have one text just if they are the same but
for their spans once every second branch is taken for that of the nearest conditional; and where it is
that of the nearest one from the start, they are the same themselves, but for their spans. -/
theorem control_structure_of_text {stmt other : Stmt} (h : stmt.IsControl) (hother : other.IsControl) :
    (stmt.text = other.text ↔
        stmt.regrouped.withoutSpans = other.regrouped.withoutSpans) ∧
      (stmt.elsesNearest = true → other.elsesNearest = true → stmt.text = other.text →
        stmt.withoutSpans = other.withoutSpans) := by
  refine ⟨⟨fun htext => ?_, fun hsame => ?_⟩, h.eq_of_text hother⟩
  · refine h.regrouped.eq_of_text hother.regrouped stmt.elsesNearest_regrouped
      other.elsesNearest_regrouped ?_
    rw [stmt.text_regrouped, other.text_regrouped, htext]
  · rw [← stmt.text_regrouped, ← other.text_regrouped, ← h.regrouped.text_withoutSpans, hsame,
      hother.regrouped.text_withoutSpans]

/-- One text of two statements: a conditional with two branches, the first of which is a conditional, and
a conditional with the one branch that its reader finds in it. -/
theorem control_structure_of_text_nested :
    let name (text : String) : Expr := .name text ⟨0, 1⟩
    let call (text : String) : Stmt := .expr (name text) ⟨0, 2⟩
    let outer : Stmt :=
      .branch (name "a") (.branch (name "b") (call "x") none ⟨0, 9⟩) (some (call "y")) ⟨0, 20⟩
    let inner : Stmt :=
      .branch (name "a") (.branch (name "b") (call "x") (some (call "y")) ⟨0, 18⟩) none ⟨0, 20⟩
    outer.text = "if (a) if (b) x; else y;" ∧ inner.text = outer.text ∧
      outer.withoutSpans ≠ inner.withoutSpans ∧
      outer.regrouped.withoutSpans = inner.regrouped.withoutSpans := by
  intro name call outer inner
  have hname : ∀ text ∈ ["a", "b", "x", "y"], IsName text := by
    have hchars : ∀ text ∈ ["a", "b", "x", "y"],
        text.toList ≠ [] ∧ text.toList.all isNameChar = true := by decide
    exact fun text htext => ⟨(hchars text htext).1, List.all_eq_true.mp (hchars text htext).2⟩
  have houter : outer.IsControl :=
    .branchElse (hname "a" (by decide))
      (.branch (hname "b" (by decide)) (.expr (hname "x" (by decide)) _ _) _ _)
      (.expr (hname "y" (by decide)) _ _) _ _
  have hinner : inner.IsControl :=
    .branch (hname "a" (by decide))
      (.branchElse (hname "b" (by decide)) (.expr (hname "x" (by decide)) _ _)
        (.expr (hname "y" (by decide)) _ _) _ _) _ _
  have htext : outer.text = inner.text := by decide
  exact ⟨by decide, htext.symm, nofun, (control_structure_of_text houter hinner).1.mp htext⟩

end MacroExpansion
