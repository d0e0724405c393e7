import MacroExpansion.Proofs.Readings
import MacroExpansion.Tree.Build

/-! # Texts of operations

An expression of names, numbers, calls and operators has a reading, and its text is what its reading is
written as (`Expr.IsOperation.toList_text`). So two such expressions have one text just if they have one
reading. Where no unary operator is applied to the result of another one, they are then the same but for
their spans (`operation_of_text`). Where one is, they need not be: no parentheses are written around the
inner operation. -/

namespace MacroExpansion

/-! ## Expressions of operators -/

/-- A name in the widest sense: a word that does not begin with a digit. -/
structure IsIdentifier (name : String) : Prop extends IsWord name where
  head : ∀ c ∈ name.toList.head?, c.isDigit = false

/-- Expressions of names, numbers that are not negative, calls by name, and operators. -/
inductive Expr.IsOperation : Expr → Prop where
  | name {name : String} {span : Span} (hname : IsIdentifier name) : IsOperation (.name name span)
  | int {value : Int64} {span : Span} (hvalue : 0 ≤ value) :
      IsOperation (.literal (.int value) span)
  | call {callee : String} {args : List Expr} {span : Span} (hcallee : IsIdentifier callee)
      (hargs : ∀ arg ∈ args, IsOperation arg) : IsOperation (.call ⟨callee, [], args, span⟩)
  | unary {op : UnaryOp} {operand : Expr} {span : Span} (hoperand : IsOperation operand) :
      IsOperation (.unary op operand span)
  | binary {op : BinaryOp} {lhs rhs : Expr} {span : Span} (hlhs : IsOperation lhs)
      (hrhs : IsOperation rhs) : IsOperation (.binary op lhs rhs span)

mutual

/-- What the text of an expression tells of it. Assignments and lambdas are taken as they are written. -/
def Expr.reading : Expr → Reading
  | .literal value _ => .word "" value.text ""
  | .name name _ => .word "" name ""
  | .call call => call.reading
  | .unary op operand _ => operand.reading.mark op.leading op.trailing
  | .binary op lhs rhs _ => .binary "" op lhs.reading rhs.reading ""
  | .assign target value _ => .word "" (target.text ++ " = " ++ value.text) ""
  | .lambda lambda => .word "" lambda.text ""

/-- What the text of a call without type arguments tells of it. -/
def Call.reading : Call → Reading
  | ⟨callee, _, args, _⟩ => .call "" callee (readings args) ""

/-- The readings of a list of expressions. -/
def readings : List Expr → List Reading
  | [] => []
  | expr :: rest => expr.reading :: readings rest

end

/-- Readings are taken one by one. -/
theorem readings_eq_map (exprs : List Expr) : readings exprs = exprs.map Expr.reading := by
  induction exprs with
  | nil => rfl
  | cons expr rest ih => rw [readings, ih, List.map_cons]

/-! ## Numbers -/

/-- A number is written in digits. -/
theorem toList_text_int {value : Int64} (h : 0 ≤ value) :
    (Literal.text (.int value)).toList = Nat.toDigits 10 value.toInt.toNat := by
  have hnonneg : 0 ≤ value.toInt := by simpa using Int64.le_iff_toInt_le.mp h
  obtain ⟨n, hn⟩ := Int.eq_ofNat_of_zero_le hnonneg
  rw [Literal.text, hn]
  exact Nat.toList_repr

/-- Digits belong to words. -/
theorem isWordChar_of_isDigit {c : Char} (h : c.isDigit = true) : isWordChar c = true := by
  by_contra hother
  simp only [isWordChar, isMark, Bool.not_eq_true, Bool.not_eq_false', Bool.or_eq_true, beq_iff_eq]
    at hother
  rcases hother with (((((rfl | rfl) | rfl) | rfl) | rfl) | rfl) | rfl <;> cases h

/-- A number is a word. -/
theorem isWord_int {value : Int64} (h : 0 ≤ value) : IsWord (Literal.text (.int value)) where
  nonempty := by
    rw [toList_text_int h]
    exact Nat.toDigits_ne_nil
  chars c hc := by
    rw [toList_text_int h] at hc
    exact isWordChar_of_isDigit (Nat.isDigit_of_mem_toDigits (by decide) (by decide) hc)

/-- Numbers are told by their digits. -/
theorem int_text_injective {value value' : Int64} (h : 0 ≤ value) (h' : 0 ≤ value')
    (htext : Literal.text (.int value) = Literal.text (.int value')) : value = value' := by
  have hdigits := congrArg String.toList htext
  rw [toList_text_int h, toList_text_int h'] at hdigits
  have hnat : value.toInt.toNat = value'.toInt.toNat := by
    rw [← Nat.ofDigitChars_ten_toDigits (n := value.toInt.toNat), hdigits,
      Nat.ofDigitChars_ten_toDigits]
  have hnonneg : 0 ≤ value.toInt := by simpa using Int64.le_iff_toInt_le.mp h
  have hnonneg' : 0 ≤ value'.toInt := by simpa using Int64.le_iff_toInt_le.mp h'
  exact Int64.toInt_inj.mp (by omega)

/-- A number is no name. -/
theorem int_text_ne_identifier {value : Int64} (h : 0 ≤ value) {name : String}
    (hname : IsIdentifier name) : Literal.text (.int value) ≠ name := by
  rintro rfl
  obtain ⟨c, rest, hcons⟩ := List.exists_cons_of_ne_nil hname.nonempty
  have hdigits := hcons.symm.trans (toList_text_int h)
  have hdigit : c.isDigit = true :=
    Nat.isDigit_of_mem_toDigits (by decide) (by decide) (hdigits ▸ List.mem_cons_self)
  rw [hname.head c (by rw [hcons]; rfl)] at hdigit
  cases hdigit

/-! ## Texts and readings -/

namespace Reading

/-- Without marks there is nothing around an operand but its parentheses. -/
theorem operandChars_unmarked (reading : Reading) :
    reading.unmarked.operandChars = reading.enclosed reading.core := by
  cases reading <;> exact List.append_nil _

/-- Marks around an operand are written around it. -/
theorem operandChars_mark (reading : Reading) (before behind : String) :
    (reading.mark before behind).operandChars =
      before.toList ++ (reading.operandChars ++ behind.toList) := by
  cases reading <;>
    simp [mark, operandChars, around, enclosed, core, leading, trailing, List.append_assoc]

/-- With marks around it an operation is in parentheses. -/
theorem chars_mark (reading : Reading) (op : UnaryOp) :
    (reading.mark op.leading op.trailing).chars = (reading.mark op.leading op.trailing).operandChars := by
  refine chars_of_not_bare ?_
  cases reading with
  | word | call => rfl
  | binary leading _ _ _ trailing =>
    refine Bool.eq_false_iff.mpr fun hbare => op.marks_ne_empty ?_
    obtain ⟨hleading, htrailing⟩ := Bool.and_eq_true_iff.mp hbare
    exact ⟨(String.append_eq_empty_iff.mp (beq_iff_eq.mp hleading)).1,
      (String.append_eq_empty_iff.mp (beq_iff_eq.mp htrailing)).2⟩

/-- With further marks a reading is still well-formed. -/
theorem WellFormed.mark {reading : Reading} (h : reading.WellFormed) (op : UnaryOp) :
    (reading.mark op.leading op.trailing).WellFormed := by
  have happend {first second : String} (hfirst : IsMarks first) (hsecond : IsMarks second) :
      IsMarks (first ++ second) := by
    intro c hc
    rw [String.toList_append] at hc
    exact (List.mem_append.mp hc).elim (hfirst c) (hsecond c)
  have hbefore := op.isMarks_leading
  have hbehind := op.isMarks_trailing
  cases h with
  | word hleading htext htrailing =>
    exact .word (happend hbefore hleading) htext (happend htrailing hbehind)
  | call hleading hcallee hargs htrailing =>
    exact .call (happend hbefore hleading) hcallee hargs (happend htrailing hbehind)
  | binary hleading hlhs hrhs htrailing =>
    exact .binary (happend hbefore hleading) hlhs hrhs (happend htrailing hbehind)

end Reading

namespace Expr.IsOperation

/-- An expression of operators has a well-formed reading. -/
theorem reading_wellFormed {expr : Expr} (h : expr.IsOperation) : expr.reading.WellFormed := by
  have hnone : IsMarks "" := nofun
  induction h with
  | name hname => exact .word hnone hname.toIsWord hnone
  | int hvalue => exact .word hnone (isWord_int hvalue) hnone
  | call hcallee _ ih =>
    refine .call hnone hcallee.toIsWord ?_ hnone
    rw [readings_eq_map]
    exact List.forall_mem_map.mpr ih
  | unary _ ih => exact ih.mark _
  | binary _ _ hlhs hrhs => exact .binary hnone hlhs hrhs hnone

/-- Arguments are written as their readings are. -/
theorem toList_joinTexts {args : List Expr} (h : ∀ arg ∈ args, arg.text.toList = arg.reading.chars) :
    (joinTexts ", " (exprTexts args)).toList = Reading.argChars (readings args) := by
  induction args with
  | nil => rfl
  | cons arg rest ih =>
    obtain ⟨harg, hrest⟩ := List.forall_mem_cons.mp h
    have ih := ih hrest
    cases rest with
    | nil => exact harg
    | cons next rest =>
      have hreadings : Reading.argChars (readings (arg :: next :: rest)) =
          arg.reading.chars ++ ',' :: ' ' :: Reading.argChars (readings (next :: rest)) := by
        rw [readings, Reading.argChars]
        · rfl
        · exact List.cons_ne_nil _ _
      rw [hreadings, exprTexts, joinTexts, String.toList_append, String.toList_append, harg, ih,
        List.append_assoc]
      · rfl
      · exact List.cons_ne_nil _ _

/-- The text of an expression is what its reading is written as, alone and as an operand. -/
theorem toList_text {expr : Expr} (h : expr.IsOperation) :
    expr.text.toList = expr.reading.chars ∧
      (parenthesizeIf expr.needsParens expr.text).toList = expr.reading.operandChars := by
  induction h with
  | @name name span hname =>
    have htext := (Reading.operandChars_unmarked (.word "" name "")).symm
    exact ⟨htext, htext⟩
  | @int value span hvalue =>
    have htext := (Reading.operandChars_unmarked (.word "" (Literal.int value).text "")).symm
    exact ⟨htext, htext⟩
  | @call callee args span hcallee hargs ih =>
    have htext : (Call.text ⟨callee, [], args, span⟩).toList =
        (Reading.call "" callee (readings args) "").operandChars := by
      refine Eq.trans ?_ (Reading.operandChars_unmarked (.call "" callee (readings args) "")).symm
      rw [Reading.enclosed, Reading.core, ← toList_joinTexts fun arg hmem => (ih arg hmem).1, Call.text]
      simp [angleList, String.toList_append]
    exact ⟨htext, htext⟩
  | @unary op operand span hoperand ih =>
    have htext : (Expr.text (.unary op operand span)).toList =
        (operand.reading.mark op.leading op.trailing).operandChars := by
      rw [Reading.operandChars_mark, ← ih.2, Expr.text]
      simp only [String.toList_append, List.append_assoc]
    exact ⟨htext.trans (operand.reading.chars_mark op).symm, htext⟩
  | @binary op lhs rhs span hlhs hrhs ihl ihr =>
    have htext : (Expr.text (.binary op lhs rhs span)).toList =
        (Reading.binary "" op lhs.reading rhs.reading "").chars := by
      have hcore : (Reading.binary "" op lhs.reading rhs.reading "").chars =
          lhs.reading.operandChars ++ ' ' :: (op.symbol.toList ++ ' ' :: rhs.reading.operandChars) := rfl
      rw [hcore, ← ihl.2, ← ihr.2, Expr.text]
      simp [String.toList_append]
    -- as an operand it stands in parentheses
    refine ⟨htext, ?_⟩
    refine Eq.trans ?_
      (Reading.operandChars_unmarked (.binary "" op lhs.reading rhs.reading "")).symm
    change ("(" ++ Expr.text (.binary op lhs rhs span) ++ ")").toList = _
    rw [String.toList_append, String.toList_append, htext]
    rfl

end Expr.IsOperation

/-- Two expressions of operators have one text just if they have one reading. -/
theorem Expr.IsOperation.text_eq_iff {expr other : Expr} (h : expr.IsOperation)
    (hother : other.IsOperation) : expr.text = other.text ↔ expr.reading = other.reading := by
  rw [← String.toList_inj, h.toList_text.1, hother.toList_text.1]
  refine ⟨fun hchars => ?_, fun hreading => by rw [hreading]⟩
  exact (h.reading_wellFormed.unambiguous.whole hother.reading_wellFormed .nil .nil
    (congrArg (· ++ []) hchars)).1

/-! ## Marks that stand apart -/

/-- An expression that applies a unary operator. -/
def Expr.isUnary : Expr → Bool
  | .unary .. => true
  | .literal .. | .name .. | .call _ | .binary .. | .assign .. | .lambda _ => false

mutual

/-- No unary operator is applied to the result of another one. -/
def Expr.marksApart : Expr → Bool
  | .unary _ operand _ => !operand.isUnary && operand.marksApart
  | .binary _ lhs rhs _ => lhs.marksApart && rhs.marksApart
  | .call call => call.marksApart
  | .literal .. | .name .. | .assign .. | .lambda _ => true

/-- So it is in all arguments. -/
def Call.marksApart : Call → Bool
  | ⟨_, _, args, _⟩ => argsMarksApart args

/-- So it is in all expressions of a list. -/
def argsMarksApart : List Expr → Bool
  | [] => true
  | expr :: rest => expr.marksApart && argsMarksApart rest

end

mutual

/-- An expression that tells no longer where it is written. Lambdas are left as they are. -/
def Expr.withoutSpans : Expr → Expr
  | .literal value _ => .literal value default
  | .name name _ => .name name default
  | .call call => .call call.withoutSpans
  | .unary op operand _ => .unary op operand.withoutSpans default
  | .binary op lhs rhs _ => .binary op lhs.withoutSpans rhs.withoutSpans default
  | .assign target value _ => .assign target.withoutSpans value.withoutSpans default
  | .lambda lambda => .lambda lambda

/-- A call that tells no longer where it is written. -/
def Call.withoutSpans : Call → Call
  | ⟨callee, typeArgs, args, _⟩ => ⟨callee, typeArgs, argsWithoutSpans args, default⟩

/-- Expressions that tell no longer where they are written. -/
def argsWithoutSpans : List Expr → List Expr
  | [] => []
  | expr :: rest => expr.withoutSpans :: argsWithoutSpans rest

end

namespace Reading

/-- A mark before a reading comes before its other leading marks. -/
theorem leading_mark (reading : Reading) (before behind : String) :
    (reading.mark before behind).leading = before ++ reading.leading := by
  cases reading <;> rfl

/-- A mark behind a reading comes behind its other trailing marks. -/
theorem trailing_mark (reading : Reading) (before behind : String) :
    (reading.mark before behind).trailing = reading.trailing ++ behind := by
  cases reading <;> rfl

/-- Marks change nothing between the marks. -/
theorem unmarked_mark (reading : Reading) (before behind : String) :
    (reading.mark before behind).unmarked = reading.unmarked := by
  cases reading <;> rfl

/-- A reading with the marks of an operator is not one without marks. -/
theorem mark_ne_unmarked (reading other : Reading) (op : UnaryOp) :
    reading.mark op.leading op.trailing ≠ other.unmarked := by
  intro h
  have hnone : other.unmarked.leading = "" ∧ other.unmarked.trailing = "" := by
    cases other <;> exact ⟨rfl, rfl⟩
  rw [← h, leading_mark, trailing_mark] at hnone
  exact op.marks_ne_empty ⟨(String.append_eq_empty_iff.mp hnone.1).1,
    (String.append_eq_empty_iff.mp hnone.2).2⟩

/-- Around readings without marks, the operator can be told. -/
theorem mark_unmarked_inj {reading other : Reading} {op op' : UnaryOp}
    (h : reading.unmarked.mark op.leading op.trailing = other.unmarked.mark op'.leading op'.trailing) :
    op = op' ∧ reading.unmarked = other.unmarked := by
  have hnone (reading : Reading) : reading.unmarked.leading = "" ∧ reading.unmarked.trailing = "" := by
    cases reading <;> exact ⟨rfl, rfl⟩
  have hleading := congrArg Reading.leading h
  have htrailing := congrArg Reading.trailing h
  have hunmarked := congrArg Reading.unmarked h
  rw [leading_mark, leading_mark, (hnone _).1, (hnone _).1, String.append_empty, String.append_empty]
    at hleading
  rw [trailing_mark, trailing_mark, (hnone _).2, (hnone _).2, String.empty_append, String.empty_append]
    at htrailing
  rw [unmarked_mark, unmarked_mark] at hunmarked
  have htwice (reading : Reading) : reading.unmarked.unmarked = reading.unmarked := by
    cases reading <;> rfl
  rw [htwice, htwice] at hunmarked
  exact ⟨UnaryOp.eq_of_marks hleading htrailing, hunmarked⟩

end Reading

/-- The reading of an expression without a unary operator around it has no marks. -/
theorem Expr.unmarked_reading {expr : Expr} (h : expr.isUnary = false) :
    expr.reading.unmarked = expr.reading := by
  cases expr with
  | unary => cases h
  | call call =>
    cases call
    rfl
  | literal | name | binary | assign | lambda => rfl

/-- The reading of an expression with a unary operator around it is no such reading. -/
theorem Expr.unary_reading_ne {op : UnaryOp} {operand other : Expr} {span : Span}
    (h : other.isUnary = false) : (Expr.unary op operand span).reading ≠ other.reading := by
  rw [← unmarked_reading h]
  exact operand.reading.mark_ne_unmarked other.reading op

/-- A list of expressions is told by its readings if each of them is. -/
theorem argsWithoutSpans_inj {args args' : List Expr} (h : readings args = readings args')
    (hargs : ∀ arg ∈ args, ∀ arg' ∈ args', arg.reading = arg'.reading →
      arg.withoutSpans = arg'.withoutSpans) : argsWithoutSpans args = argsWithoutSpans args' := by
  induction args generalizing args' with
  | nil =>
    cases args' with
    | nil => rfl
    | cons arg' rest' => cases h
  | cons arg rest ih =>
    cases args' with
    | nil => cases h
    | cons arg' rest' =>
      obtain ⟨hreading, hreadings⟩ := List.cons.inj h
      rw [argsWithoutSpans, argsWithoutSpans,
        hargs arg List.mem_cons_self arg' List.mem_cons_self hreading,
        ih hreadings fun first hfirst second hsecond =>
          hargs first (List.mem_cons_of_mem _ hfirst) second (List.mem_cons_of_mem _ hsecond)]

/-- In a list in which marks stand apart they do so in each expression. -/
theorem marksApart_of_mem {args : List Expr} (h : argsMarksApart args = true) :
    ∀ arg ∈ args, arg.marksApart = true := by
  induction args with
  | nil => exact nofun
  | cons arg rest ih =>
    obtain ⟨harg, hrest⟩ := Bool.and_eq_true_iff.mp h
    exact List.forall_mem_cons.mpr ⟨harg, ih hrest⟩

namespace Expr.IsOperation

/-- Where marks stand apart, an expression is told by its reading. -/
theorem eq_of_reading {expr other : Expr} (h : expr.IsOperation) (hother : other.IsOperation)
    (hapart : expr.marksApart = true) (hapart' : other.marksApart = true)
    (hreading : expr.reading = other.reading) : expr.withoutSpans = other.withoutSpans := by
  induction h generalizing other with
  | @name name span hname =>
    cases hother with
    | name _ =>
      cases hreading
      rfl
    | int hvalue =>
      exact absurd (Reading.word.inj hreading).2.1.symm (int_text_ne_identifier hvalue hname)
    | call | binary => cases hreading
    | unary => exact absurd hreading.symm (unary_reading_ne rfl)
  | @int value span hvalue =>
    cases hother with
    | name hname => exact absurd (Reading.word.inj hreading).2.1 (int_text_ne_identifier hvalue hname)
    | int hvalue' =>
      obtain rfl := int_text_injective hvalue hvalue' (Reading.word.inj hreading).2.1
      rfl
    | call | binary => cases hreading
    | unary => exact absurd hreading.symm (unary_reading_ne rfl)
  | @call callee args span hcallee hargs ih =>
    cases hother with
    | name | int | binary => cases hreading
    | call hcallee' hargs' =>
      obtain ⟨-, rfl, hreadings, -⟩ := Reading.call.inj hreading
      have hsame := argsWithoutSpans_inj hreadings fun arg hmem arg' hmem' =>
        ih arg hmem (hargs' arg' hmem') (marksApart_of_mem hapart arg hmem)
          (marksApart_of_mem hapart' arg' hmem')
      rw [withoutSpans, withoutSpans, Call.withoutSpans, Call.withoutSpans, hsame]
    | unary => exact absurd hreading.symm (unary_reading_ne rfl)
  | @unary op operand span hoperand ih =>
    cases hother with
    | name | int | call | binary => exact absurd hreading (unary_reading_ne rfl)
    | @unary op' operand' _ hoperand' =>
      obtain ⟨hplain, hinner⟩ := Bool.and_eq_true_iff.mp hapart
      obtain ⟨hplain', hinner'⟩ := Bool.and_eq_true_iff.mp hapart'
      -- marks stand apart, so those of the operand are not taken for those of the operator
      have hsame := unmarked_reading (Bool.not_eq_true' _ ▸ hplain)
      have hsame' := unmarked_reading (Bool.not_eq_true' _ ▸ hplain')
      have hmarked : operand.reading.unmarked.mark op.leading op.trailing =
          operand'.reading.unmarked.mark op'.leading op'.trailing := by
        rw [hsame, hsame']
        exact hreading
      obtain ⟨rfl, hreadings⟩ := Reading.mark_unmarked_inj hmarked
      rw [hsame, hsame'] at hreadings
      rw [withoutSpans, withoutSpans, ih hoperand' hinner hinner' hreadings]
  | @binary op lhs rhs span hlhs hrhs ihl ihr =>
    cases hother with
    | name | int | call => cases hreading
    | binary hlhs' hrhs' =>
      obtain ⟨-, rfl, hl, hr, -⟩ := Reading.binary.inj hreading
      obtain ⟨hapartLhs, hapartRhs⟩ := Bool.and_eq_true_iff.mp hapart
      obtain ⟨hapartLhs', hapartRhs'⟩ := Bool.and_eq_true_iff.mp hapart'
      rw [withoutSpans, withoutSpans, ihl hlhs' hapartLhs hapartLhs' hl,
        ihr hrhs' hapartRhs hapartRhs' hr]
    | unary => exact absurd hreading.symm (unary_reading_ne rfl)

end Expr.IsOperation

/-- Texts keep the structure of operations. Two expressions of names, numbers, calls and operators have
one text just if the texts tell the same of both; and where no unary operator is applied to the result
of another one, they are then the same expression, but for its spans. -/
theorem operation_of_text {expr other : Expr} (h : expr.IsOperation) (hother : other.IsOperation) :
    (expr.text = other.text ↔ expr.reading = other.reading) ∧
      (expr.marksApart = true → other.marksApart = true → expr.text = other.text →
        expr.withoutSpans = other.withoutSpans) :=
  ⟨h.text_eq_iff hother, fun hapart hapart' htext =>
    h.eq_of_reading hother hapart hapart' ((h.text_eq_iff hother).mp htext)⟩

/-- One negated sum at two places. -/
theorem operation_of_text_negated_sum :
    let sum (span : Span) : Expr :=
      .unary .neg (.binary .add (.name "x" span) (.literal (.int 1) span) span) span
    (sum ⟨0, 8⟩).text = "-(x + 1)" ∧ (sum ⟨0, 8⟩).withoutSpans = (sum ⟨20, 28⟩).withoutSpans := by
  intro sum
  have hx : IsIdentifier "x" :=
    ⟨⟨by simp, by simp [isWordChar, isMark]⟩, by simp [Char.isDigit]⟩
  have hsum (span : Span) : (sum span).IsOperation :=
    .unary (.binary (.name hx) (.int (by decide)))
  have htext : (sum ⟨0, 8⟩).text = (sum ⟨20, 28⟩).text := rfl
  exact ⟨by decide, (operation_of_text (hsum _) (hsum _)).2 rfl rfl htext⟩

/-- A negation of a negation is written as a decrement. -/
example : (Expr.apply .neg (.apply .neg (.ofName "x"))).text = "--x" ∧
    (Expr.apply .preDecrement (.ofName "x")).text = "--x" := by
  decide

end MacroExpansion
