import MacroExpansion.Tree.Text
import Mathlib.Data.List.Basic

/-! # Readings

The text of an operation tells its reader the operands and the marks of the unary operators around
each of them, but not in which order these operators apply, as no parentheses stand between them. What
it tells is a *reading*. Readings are written without ambiguity: a reading can be told from its
characters, whatever follows it, as long as that does not go on with a mark or a word
(`Reading.Unambiguous`, by induction on the reading, with one lemma for what is between the marks, one
for operands and one for whole expressions). -/

namespace MacroExpansion

/-! ## Characters -/

/-- The characters of unary operators. -/
def isMark (c : Char) : Bool :=
  c == '+' || c == '-' || c == '!'

/-- The characters that may belong to a name or a number: all but those that may stand next to one. -/
def isWordChar (c : Char) : Bool :=
  !(isMark c || c == ' ' || c == '(' || c == ')' || c == ',')

/-- A word is not empty and has no other characters. -/
structure IsWord (text : String) : Prop where
  nonempty : text.toList ≠ []
  chars : ∀ c ∈ text.toList, isWordChar c = true

/-- A text of marks. -/
def IsMarks (text : String) : Prop :=
  ∀ c ∈ text.toList, isMark c = true

/-- Two texts of characters of one kind are told apart from what follows, if that begins with another
kind. -/
theorem append_inj_of_kind {p : Char → Bool} {xs ys s t : List Char} (hxs : ∀ c ∈ xs, p c = true)
    (hys : ∀ c ∈ ys, p c = true) (hs : ∀ c ∈ s.head?, p c = false) (ht : ∀ c ∈ t.head?, p c = false)
    (h : xs ++ s = ys ++ t) : xs = ys ∧ s = t := by
  induction xs generalizing ys with
  | nil =>
    cases ys with
    | nil => exact ⟨rfl, h⟩
    | cons y ys =>
      have hs' := hs y (by rw [show s = _ from h]; rfl)
      rw [hys y List.mem_cons_self] at hs'
      cases hs'
  | cons x xs ih =>
    cases ys with
    | nil =>
      have ht' := ht x (by rw [← show _ = t from h]; rfl)
      rw [hxs x List.mem_cons_self] at ht'
      cases ht'
    | cons y ys =>
      obtain ⟨rfl, hrest⟩ := List.cons.inj h
      obtain ⟨rfl, rfl⟩ := ih (fun c hc => hxs c (List.mem_cons_of_mem _ hc))
        (fun c hc => hys c (List.mem_cons_of_mem _ hc)) hrest
      exact ⟨rfl, rfl⟩

/-! ## Operators -/

/-- Unary operators are told by their marks. -/
theorem UnaryOp.eq_of_marks {op op' : UnaryOp} (hleading : op.leading = op'.leading)
    (htrailing : op.trailing = op'.trailing) : op = op' := by
  revert hleading htrailing
  cases op <;> cases op' <;> decide

/-- A unary operator has a mark. -/
theorem UnaryOp.marks_ne_empty (op : UnaryOp) : ¬ (op.leading = "" ∧ op.trailing = "") := by
  cases op <;> decide

/-- What an operator writes before its operand are marks. -/
theorem UnaryOp.isMarks_leading (op : UnaryOp) : IsMarks op.leading := by
  cases op <;> simp [IsMarks, isMark, UnaryOp.leading]

/-- What an operator writes behind its operand are marks. -/
theorem UnaryOp.isMarks_trailing (op : UnaryOp) : IsMarks op.trailing := by
  cases op <;> simp [IsMarks, isMark, UnaryOp.trailing]

/-- Binary operators are told by their symbols. -/
theorem BinaryOp.symbol_injective : Function.Injective BinaryOp.symbol := by
  intro op op'
  cases op <;> cases op' <;> decide

/-- No blank is in a symbol. -/
theorem BinaryOp.symbol_ne_blank (op : BinaryOp) : ∀ c ∈ op.symbol.toList, (c != ' ') = true := by
  cases op <;> simp [BinaryOp.symbol]

/-! ## Readings -/

/-- What a text tells of an expression: its operands, with the marks before and behind each of them. -/
inductive Reading where
  /-- A name or a number. -/
  | word (leading text trailing : String)
  /-- A call. -/
  | call (leading callee : String) (args : List Reading) (trailing : String)
  /-- An operation on two operands. -/
  | binary (leading : String) (op : BinaryOp) (lhs rhs : Reading) (trailing : String)

namespace Reading

/-- The marks before it. -/
def leading : Reading → String
  | word leading _ _ | call leading _ _ _ | binary leading _ _ _ _ => leading

/-- The marks behind it. -/
def trailing : Reading → String
  | word _ _ trailing | call _ _ _ trailing | binary _ _ _ _ trailing => trailing

/-- A reading with further marks around it. -/
def mark (before behind : String) : Reading → Reading
  | word leading text trailing => word (before ++ leading) text (trailing ++ behind)
  | call leading callee args trailing => call (before ++ leading) callee args (trailing ++ behind)
  | binary leading op lhs rhs trailing => binary (before ++ leading) op lhs rhs (trailing ++ behind)

/-- A reading without the marks around it. -/
def unmarked : Reading → Reading
  | word _ text _ => word "" text ""
  | call _ callee args _ => call "" callee args ""
  | binary _ op lhs rhs _ => binary "" op lhs rhs ""

/-- An operation without marks around it. -/
def isBare : Reading → Bool
  | binary leading _ _ _ trailing => leading == "" && trailing == ""
  | word .. | call .. => false

/-- The parentheses around an operation. -/
def enclosed (reading : Reading) (core : List Char) : List Char :=
  match reading with
  | binary .. => '(' :: (core ++ [')'])
  | word .. | call .. => core

/-- The characters of an operand, given those between its marks. -/
def around (reading : Reading) (core : List Char) : List Char :=
  reading.leading.toList ++ (reading.enclosed core ++ reading.trailing.toList)

/-- The characters of a whole expression, given those between its marks. -/
def alone (reading : Reading) (core : List Char) : List Char :=
  if reading.isBare then core else reading.around core

mutual

/-- The characters between the marks. -/
def core : Reading → List Char
  | word _ text _ => text.toList
  | call _ callee args _ => callee.toList ++ '(' :: (argChars args ++ [')'])
  | binary _ op lhs rhs _ =>
      lhs.around lhs.core ++ ' ' :: (op.symbol.toList ++ ' ' :: rhs.around rhs.core)

/-- The characters of arguments. -/
def argChars : List Reading → List Char
  | [] => []
  | [arg] => arg.alone arg.core
  | arg :: rest => arg.alone arg.core ++ ',' :: ' ' :: argChars rest

end

/-- The characters of a reading as an operand. -/
def operandChars (reading : Reading) : List Char :=
  reading.around reading.core

/-- The characters of a reading alone. -/
def chars (reading : Reading) : List Char :=
  reading.alone reading.core

/-- Words are words, and marks are marks. -/
inductive WellFormed : Reading → Prop where
  | word {leading text trailing : String} (hleading : IsMarks leading) (htext : IsWord text)
      (htrailing : IsMarks trailing) : WellFormed (word leading text trailing)
  | call {leading callee trailing : String} {args : List Reading} (hleading : IsMarks leading)
      (hcallee : IsWord callee) (hargs : ∀ arg ∈ args, WellFormed arg) (htrailing : IsMarks trailing) :
      WellFormed (call leading callee args trailing)
  | binary {leading trailing : String} {op : BinaryOp} {lhs rhs : Reading} (hleading : IsMarks leading)
      (hlhs : WellFormed lhs) (hrhs : WellFormed rhs) (htrailing : IsMarks trailing) :
      WellFormed (binary leading op lhs rhs trailing)

/-! ## What may follow -/

/-- What may follow an operand. -/
def Closes (rest : List Char) : Prop :=
  ∀ c ∈ rest.head?, c = ' ' ∨ c = ')' ∨ c = ','

/-- What may follow a whole expression. -/
def Ends (rest : List Char) : Prop :=
  ∀ c ∈ rest.head?, c = ')' ∨ c = ','

/-- What may follow what is between the marks. -/
def Behind (rest : List Char) : Prop :=
  ∀ c ∈ rest.head?, isWordChar c = false ∧ c ≠ '('

/-- What may follow a whole expression may follow an operand. -/
theorem Closes.of_ends {rest : List Char} (h : Ends rest) : Closes rest :=
  fun c hc => .inr (h c hc)

/-- A whole expression may end the text. -/
theorem Ends.nil : Ends [] := nofun

/-- Behind an operand no further mark follows. -/
theorem Closes.not_mark {rest : List Char} (h : Closes rest) : ∀ c ∈ rest.head?, isMark c = false := by
  intro c hc
  rcases h c hc with rfl | rfl | rfl <;> rfl

/-- Behind what is between the marks no word goes on. -/
theorem Behind.not_word {rest : List Char} (h : Behind rest) :
    ∀ c ∈ rest.head?, isWordChar c = false :=
  fun c hc => (h c hc).1

/-- Marks may be behind what is between the marks, and then what follows the operand. -/
theorem Behind.of_marks {trailing : String} {rest : List Char} (htrailing : IsMarks trailing)
    (h : Closes rest) : Behind (trailing.toList ++ rest) := by
  intro c hc
  cases hmarks : trailing.toList with
  | nil =>
    rw [hmarks] at hc
    rcases h c hc with rfl | rfl | rfl <;> decide
  | cons mark more =>
    rw [hmarks] at hc
    obtain rfl : mark = c := Option.some.inj hc
    have hmark := htrailing mark (by rw [hmarks]; exact List.mem_cons_self)
    refine ⟨by simp [isWordChar, hmark], ?_⟩
    rintro rfl
    cases hmark

/-! ## How readings begin -/

/-- A word begins with a character of words. -/
theorem exists_word_cons {text : String} (h : IsWord text) (rest : List Char) :
    ∃ c more, text.toList ++ rest = c :: more ∧ isWordChar c = true := by
  obtain ⟨c, more, htext⟩ := List.exists_cons_of_ne_nil h.nonempty
  exact ⟨c, more ++ rest, by rw [htext]; rfl, h.chars c (by rw [htext]; exact List.mem_cons_self)⟩

/-- A word does not begin with a parenthesis. -/
theorem word_ne_open {text : String} (h : IsWord text) (rest more : List Char) :
    text.toList ++ rest ≠ '(' :: more := by
  intro hopen
  obtain ⟨c, _, hcons, hc⟩ := exists_word_cons h rest
  obtain rfl : c = '(' := (List.cons.inj (hcons.symm.trans hopen)).1
  cases hc

/-- A word ends before a parenthesis. -/
theorem open_not_word (rest : List Char) : ∀ c ∈ ('(' :: rest).head?, isWordChar c = false := by
  intro c hc
  obtain rfl : '(' = c := Option.some.inj hc
  rfl

/-- What is between the marks begins with a word or a parenthesis. -/
theorem WellFormed.exists_enclosed_cons {reading : Reading} (h : reading.WellFormed)
    (rest : List Char) :
    ∃ c more, reading.enclosed reading.core ++ rest = c :: more ∧
      (isWordChar c = true ∨ c = '(') := by
  cases h with
  | word _ htext _ =>
    obtain ⟨c, more, hcons, hc⟩ := exists_word_cons htext rest
    exact ⟨c, more, hcons, .inl hc⟩
  | @call _ callee _ args _ hcallee _ _ =>
    obtain ⟨c, more, hcons, hc⟩ := exists_word_cons hcallee ('(' :: (argChars args ++ [')']) ++ rest)
    exact ⟨c, more, by rw [enclosed, core, List.append_assoc, hcons], .inl hc⟩
  | binary => exact ⟨'(', _, rfl, .inr rfl⟩

/-- So it does not begin with a mark. -/
theorem WellFormed.enclosed_not_mark {reading : Reading} (h : reading.WellFormed) (rest : List Char) :
    ∀ c ∈ (reading.enclosed reading.core ++ rest).head?, isMark c = false := by
  intro c hc
  obtain ⟨d, more, hcons, hd⟩ := h.exists_enclosed_cons rest
  rw [hcons] at hc
  obtain rfl : d = c := Option.some.inj hc
  rcases hd with hword | rfl
  · revert hword
    unfold isWordChar
    cases isMark d <;> simp
  · rfl

/-- No operand begins with a closing parenthesis. -/
theorem WellFormed.operandChars_ne_close {reading : Reading} (h : reading.WellFormed)
    (rest more : List Char) : reading.operandChars ++ rest ≠ ')' :: more := by
  intro hclose
  have hmarks : IsMarks reading.leading := by cases h <;> assumption
  rw [operandChars, around, List.append_assoc, List.append_assoc] at hclose
  cases hleading : reading.leading.toList with
  | nil =>
    obtain ⟨c, _, hcons, hc⟩ := h.exists_enclosed_cons (reading.trailing.toList ++ rest)
    rw [hleading, List.nil_append, hcons] at hclose
    obtain rfl : c = ')' := (List.cons.inj hclose).1
    revert hc
    decide
  | cons mark marks =>
    rw [hleading] at hclose
    obtain rfl : mark = ')' := (List.cons.inj hclose).1
    have hmark := hmarks ')' (by rw [hleading]; exact List.mem_cons_self)
    cases hmark

/-- Nor does a whole expression. -/
theorem WellFormed.chars_ne_close {reading : Reading} (h : reading.WellFormed) (rest more : List Char) :
    reading.chars ++ rest ≠ ')' :: more := by
  unfold chars alone
  cases hbare : reading.isBare with
  | false => exact h.operandChars_ne_close rest more
  | true =>
    cases h with
    | word | call => cases hbare
    | binary _ hlhs _ _ =>
      rw [if_pos rfl, core, List.append_assoc]
      exact hlhs.operandChars_ne_close _ more

/-! ## Telling readings apart -/

/-- A reading can be told from its characters, whatever follows it. -/
structure Unambiguous (reading : Reading) : Prop where
  operand {other : Reading} {s t : List Char} (hother : other.WellFormed) (hs : Closes s)
    (ht : Closes t) (h : reading.operandChars ++ s = other.operandChars ++ t) :
    reading = other ∧ s = t
  whole {other : Reading} {s t : List Char} (hother : other.WellFormed) (hs : Ends s) (ht : Ends t)
    (h : reading.chars ++ s = other.chars ++ t) : reading = other ∧ s = t

/-- The operands and the operator of an operation can be told. -/
theorem core_binary_inj {lhs rhs lhs' rhs' : Reading} {op op' : BinaryOp} {s t : List Char}
    (hlhs : lhs.Unambiguous) (hrhs : rhs.Unambiguous) (hlhs' : lhs'.WellFormed)
    (hrhs' : rhs'.WellFormed) (hs : Closes s) (ht : Closes t)
    (h : lhs.operandChars ++ ' ' :: (op.symbol.toList ++ ' ' :: (rhs.operandChars ++ s)) =
      lhs'.operandChars ++ ' ' :: (op'.symbol.toList ++ ' ' :: (rhs'.operandChars ++ t))) :
    lhs = lhs' ∧ op = op' ∧ rhs = rhs' ∧ s = t := by
  have hblank (rest : List Char) : Closes (' ' :: rest) := fun c hc => .inl (Option.some.inj hc).symm
  obtain ⟨rfl, hbehind⟩ := hlhs.operand hlhs' (hblank _) (hblank _) h
  have hend (rest : List Char) : ∀ c ∈ (' ' :: rest).head?, (c != ' ') = false := by
    intro c hc
    obtain rfl : ' ' = c := Option.some.inj hc
    rfl
  obtain ⟨hsymbol, hbehind⟩ := append_inj_of_kind op.symbol_ne_blank op'.symbol_ne_blank (hend _)
    (hend _) (List.cons.inj hbehind).2
  obtain ⟨rfl, rfl⟩ := hrhs.operand hrhs' hs ht (List.cons.inj hbehind).2
  exact ⟨rfl, BinaryOp.symbol_injective (String.toList_inj.mp hsymbol), rfl, rfl⟩

/-- What follows an argument: the end of the arguments or the next one. -/
def argsBehind (rest : List Reading) (s : List Char) : List Char :=
  match rest with
  | [] => ')' :: s
  | _ :: _ => ',' :: ' ' :: (argChars rest ++ ')' :: s)

/-- The arguments of a call begin with the first one, and what follows it comes behind. -/
theorem argChars_cons (arg : Reading) (rest : List Reading) (s : List Char) :
    argChars (arg :: rest) ++ ')' :: s = arg.chars ++ argsBehind rest s := by
  cases rest with
  | nil => rfl
  | cons next rest =>
    rw [argChars, List.append_assoc]
    · rfl
    · exact List.cons_ne_nil next rest

/-- What follows an argument may follow a whole expression. -/
theorem ends_argsBehind (rest : List Reading) (s : List Char) : Ends (argsBehind rest s) := by
  intro c hc
  cases rest with
  | nil => exact .inl (Option.some.inj hc).symm
  | cons next rest => exact .inr (Option.some.inj hc).symm

/-- The arguments of a call can be told. -/
theorem argChars_inj {args args' : List Reading} {s t : List Char}
    (hargs : ∀ arg ∈ args, arg.Unambiguous) (hwell : ∀ arg ∈ args, arg.WellFormed)
    (hargs' : ∀ arg ∈ args', arg.WellFormed)
    (h : argChars args ++ ')' :: s = argChars args' ++ ')' :: t) : args = args' ∧ s = t := by
  induction args generalizing args' with
  | nil =>
    cases args' with
    | nil => exact ⟨rfl, (List.cons.inj h).2⟩
    | cons arg' rest' =>
      rw [argChars_cons] at h
      exact absurd h.symm ((hargs' arg' List.mem_cons_self).chars_ne_close _ _)
  | cons arg rest ih =>
    rw [argChars_cons] at h
    cases args' with
    | nil => exact absurd h ((hwell arg List.mem_cons_self).chars_ne_close _ _)
    | cons arg' rest' =>
      rw [argChars_cons] at h
      obtain ⟨rfl, hbehind⟩ := (hargs arg List.mem_cons_self).whole (hargs' arg' List.mem_cons_self)
        (ends_argsBehind _ _) (ends_argsBehind _ _) h
      -- behind an argument there is a separator, or the end of the call
      cases rest with
      | nil =>
        cases rest' with
        | nil => exact ⟨rfl, (List.cons.inj hbehind).2⟩
        | cons next' rest' => cases hbehind
      | cons next rest =>
        cases rest' with
        | nil => cases hbehind
        | cons next' rest' =>
          obtain ⟨hrest, rfl⟩ := ih (fun arg hmem => hargs arg (List.mem_cons_of_mem _ hmem))
            (fun arg hmem => hwell arg (List.mem_cons_of_mem _ hmem))
            (fun arg hmem => hargs' arg (List.mem_cons_of_mem _ hmem))
            (List.cons.inj (List.cons.inj hbehind).2).2
          rw [hrest]
          exact ⟨rfl, rfl⟩

/-- A reading is known from its marks and from what it is without them. -/
theorem eq_of_unmarked {reading other : Reading} (hleading : reading.leading = other.leading)
    (hunmarked : reading.unmarked = other.unmarked) (htrailing : reading.trailing = other.trailing) :
    reading = other := by
  cases reading <;> cases other <;> cases hleading <;> cases htrailing <;> cases hunmarked <;> rfl

/-- If what is between the marks can be told, then so can the operand. -/
theorem operand_of_enclosed {reading other : Reading} {s t : List Char} (hreading : reading.WellFormed)
    (hother : other.WellFormed) (hs : Closes s) (ht : Closes t)
    (henclosed : ∀ {s t}, Behind s → Behind t →
      reading.enclosed reading.core ++ s = other.enclosed other.core ++ t →
      reading.unmarked = other.unmarked ∧ s = t)
    (h : reading.operandChars ++ s = other.operandChars ++ t) : reading = other ∧ s = t := by
  have hmarks {reading : Reading} (h : reading.WellFormed) :
      IsMarks reading.leading ∧ IsMarks reading.trailing := by
    cases h <;> exact ⟨‹_›, ‹_›⟩
  obtain ⟨hleading, htrailing⟩ := hmarks hreading
  obtain ⟨hleading', htrailing'⟩ := hmarks hother
  simp only [operandChars, around, List.append_assoc] at h
  obtain ⟨hsame, h⟩ := append_inj_of_kind hleading hleading' (hreading.enclosed_not_mark _)
    (hother.enclosed_not_mark _) h
  obtain ⟨hunmarked, h⟩ := henclosed (.of_marks htrailing hs) (.of_marks htrailing' ht) h
  obtain ⟨hsame', rfl⟩ := append_inj_of_kind htrailing htrailing' hs.not_mark ht.not_mark h
  exact ⟨eq_of_unmarked (String.toList_inj.mp hsame) hunmarked (String.toList_inj.mp hsame'), rfl⟩

section

variable {other : Reading} {s t : List Char} (hother : other.WellFormed) (hs : Behind s) (ht : Behind t)

include hother hs ht

/-- A word can be told from what is between other marks. -/
theorem enclosed_word_inj {text : String} (htext : IsWord text)
    (h : text.toList ++ s = other.enclosed other.core ++ t) :
    word "" text "" = other.unmarked ∧ s = t := by
  cases hother with
  | word _ htext' _ =>
    obtain ⟨hsame, rfl⟩ := append_inj_of_kind htext.chars htext'.chars hs.not_word ht.not_word h
    rw [String.toList_inj.mp hsame]
    exact ⟨rfl, rfl⟩
  | call _ hcallee _ _ =>
    rw [enclosed, core, List.append_assoc] at h
    obtain ⟨-, rfl⟩ :=
      append_inj_of_kind htext.chars hcallee.chars hs.not_word (open_not_word _) h
    exact absurd rfl (hs '(' rfl).2
  | binary => exact absurd h (word_ne_open htext _ _)

/-- A call can be told from what is between other marks. -/
theorem enclosed_call_inj {callee : String} {args : List Reading} (hcallee : IsWord callee)
    (hargs : ∀ arg ∈ args, arg.Unambiguous) (hwell : ∀ arg ∈ args, arg.WellFormed)
    (h : callee.toList ++ '(' :: (argChars args ++ [')']) ++ s = other.enclosed other.core ++ t) :
    call "" callee args "" = other.unmarked ∧ s = t := by
  cases hother with
  | word _ htext _ =>
    have hcall : (call "" callee args "").WellFormed := .call nofun hcallee hwell nofun
    cases (enclosed_word_inj hcall ht hs htext h.symm).1
  | call _ hcallee' hargs' _ =>
    simp only [enclosed, core, List.append_assoc, List.cons_append, List.nil_append] at h
    obtain ⟨hsame, h⟩ :=
      append_inj_of_kind hcallee.chars hcallee'.chars (open_not_word _) (open_not_word _) h
    obtain ⟨rfl, rfl⟩ := argChars_inj hargs hwell hargs' (List.cons.inj h).2
    rw [String.toList_inj.mp hsame]
    exact ⟨rfl, rfl⟩
  | binary =>
    rw [List.append_assoc] at h
    exact absurd h (word_ne_open hcallee _ _)

end

/-- An operation in its parentheses can be told from what is between other marks. -/
theorem enclosed_binary_inj {other lhs rhs : Reading} {op : BinaryOp} {s t : List Char}
    (hother : other.WellFormed) (hlhs : lhs.Unambiguous) (hrhs : rhs.Unambiguous)
    (h : '(' :: ((binary "" op lhs rhs "").core ++ [')']) ++ s = other.enclosed other.core ++ t) :
    binary "" op lhs rhs "" = other.unmarked ∧ s = t := by
  cases hother with
  | word _ htext _ => exact absurd h.symm (word_ne_open htext _ _)
  | call _ hcallee _ _ =>
    simp only [enclosed, core, List.append_assoc] at h
    exact absurd h.symm (word_ne_open hcallee _ _)
  | binary _ hlhs' hrhs' _ =>
    have hclose (rest : List Char) : Closes (')' :: rest) :=
      fun c hc => .inr (.inl (Option.some.inj hc).symm)
    simp only [enclosed, core, List.append_assoc, List.cons_append, List.nil_append] at h
    obtain ⟨rfl, rfl, rfl, hrest⟩ :=
      core_binary_inj hlhs hrhs hlhs' hrhs' (hclose s) (hclose t) (List.cons.inj h).2
    exact ⟨rfl, (List.cons.inj hrest).2⟩

/-- An operation without marks around it is not in parentheses. -/
theorem exists_of_isBare {reading : Reading} (h : reading.isBare = true) :
    ∃ op lhs rhs, reading = binary "" op lhs rhs "" := by
  cases reading with
  | word | call => cases h
  | binary leading op lhs rhs trailing =>
    obtain ⟨hleading, htrailing⟩ := Bool.and_eq_true_iff.mp h
    rw [beq_iff_eq.mp hleading, beq_iff_eq.mp htrailing]
    exact ⟨op, lhs, rhs, rfl⟩

/-- Other readings are written alone as they are written as operands. -/
theorem chars_of_not_bare {reading : Reading} (h : reading.isBare = false) :
    reading.chars = reading.operandChars := by
  rw [chars, alone, h]
  rfl

/-- If operands can be told, then so can whole expressions. -/
theorem whole_of_operand {reading other : Reading} {s t : List Char} (hreading : reading.WellFormed)
    (hother : other.WellFormed) (hs : Ends s) (ht : Ends t)
    (hoperand : ∀ {other s t}, other.WellFormed → Closes s → Closes t →
      reading.operandChars ++ s = other.operandChars ++ t → reading = other ∧ s = t)
    (hparts : ∀ op lhs rhs, reading = binary "" op lhs rhs "" → lhs.Unambiguous ∧ rhs.Unambiguous)
    (h : reading.chars ++ s = other.chars ++ t) : reading = other ∧ s = t := by
  have hs' : Closes s := .of_ends hs
  have ht' : Closes t := .of_ends ht
  have hblank (rest : List Char) : Closes (' ' :: rest) := fun c hc => .inl (Option.some.inj hc).symm
  -- behind a whole expression there is no blank
  have hends {rest more : List Char} (hrest : Ends rest) : ' ' :: more ≠ rest := by
    rintro rfl
    rcases hrest ' ' rfl with h | h <;> cases h
  cases hbare : reading.isBare with
  | false =>
    rw [chars_of_not_bare hbare] at h
    cases hbare' : other.isBare with
    | false =>
      rw [chars_of_not_bare hbare'] at h
      exact hoperand hother hs' ht' h
    | true =>
      obtain ⟨op, lhs, rhs, rfl⟩ := exists_of_isBare hbare'
      cases hother with
      | binary _ hlhs _ _ =>
        simp only [chars, alone, hbare', if_pos, core, List.append_assoc, List.cons_append] at h
        exact absurd (hoperand hlhs hs' (hblank _) h).2.symm (hends hs)
  | true =>
    obtain ⟨op, lhs, rhs, rfl⟩ := exists_of_isBare hbare
    obtain ⟨hlhs, hrhs⟩ := hparts op lhs rhs rfl
    simp only [chars, alone, hbare, if_pos, core, List.append_assoc, List.cons_append] at h
    cases hbare' : other.isBare with
    | false =>
      change _ = other.chars ++ t at h
      rw [chars_of_not_bare hbare'] at h
      exact absurd (hlhs.operand hother (hblank _) ht' h).2 (hends ht)
    | true =>
      obtain ⟨op', lhs', rhs', rfl⟩ := exists_of_isBare hbare'
      cases hother with
      | binary _ hlhs' hrhs' _ =>
        simp only [hbare', if_pos, core, List.append_assoc, List.cons_append] at h
        obtain ⟨rfl, rfl, rfl, rfl⟩ := core_binary_inj hlhs hrhs hlhs' hrhs' hs' ht' h
        exact ⟨rfl, rfl⟩

/-- Readings are written without ambiguity. -/
theorem WellFormed.unambiguous {reading : Reading} (h : reading.WellFormed) : reading.Unambiguous := by
  induction h with
  | @word leading text trailing hleading htext htrailing =>
    have hwell : (Reading.word leading text trailing).WellFormed := .word hleading htext htrailing
    have hoperand {other s t} (hother : WellFormed other) (hs : Closes s) (ht : Closes t) :=
      operand_of_enclosed hwell hother hs ht fun hs ht => enclosed_word_inj hother hs ht htext
    exact ⟨hoperand, fun hother hs ht => whole_of_operand hwell hother hs ht hoperand nofun⟩
  | @call leading callee trailing args hleading hcallee hwells htrailing hargs =>
    have hwell : (Reading.call leading callee args trailing).WellFormed :=
      .call hleading hcallee hwells htrailing
    have hoperand {other s t} (hother : WellFormed other) (hs : Closes s) (ht : Closes t) :=
      operand_of_enclosed hwell hother hs ht fun hs ht =>
        enclosed_call_inj hother hs ht hcallee hargs hwells
    exact ⟨hoperand, fun hother hs ht => whole_of_operand hwell hother hs ht hoperand nofun⟩
  | @binary leading trailing op lhs rhs hleading hlhsWell hrhsWell htrailing hlhs hrhs =>
    have hwell : (Reading.binary leading op lhs rhs trailing).WellFormed :=
      .binary hleading hlhsWell hrhsWell htrailing
    have hoperand {other s t} (hother : WellFormed other) (hs : Closes s) (ht : Closes t) :=
      operand_of_enclosed hwell hother hs ht fun _ _ => enclosed_binary_inj hother hlhs hrhs
    refine ⟨hoperand, fun hother hs ht => whole_of_operand hwell hother hs ht hoperand ?_⟩
    rintro _ _ _ hsame
    cases hsame
    exact ⟨hlhs, hrhs⟩

end Reading

end MacroExpansion
