import MacroExpansion.Yaml.Text

/-! # YAML scalars, read

Plain scalars, quoted scalars and block scalars. Each reader gives the text of the scalar and what
comes after it. A scalar that goes on over lines is folded: a single break between two lines reads
as one space, and of several breaks all but the first are kept. -/

namespace MacroExpansion

namespace Yaml

/-! ## Gaps -/

/-- The blanks and breaks between two words of a scalar. -/
structure Gap where
  /-- The blanks before the first break. -/
  blanks : List Char := []
  /-- The breaks. -/
  breaks : List Char := []
  deriving DecidableEq, Repr, Inhabited

namespace Gap

/-- What a gap reads as. -/
def text (gap : Gap) : List Char :=
  match gap.breaks with
  | [] => gap.blanks
  | ['\n'] => [' ']
  | '\n' :: more => more
  | breaks => breaks

/-- The gap of the given blanks and breaks. -/
def ofChars (space : List Char) : Gap where
  blanks := space.takeWhile isBlank
  breaks := space.filter isBreak

end Gap

/-! ## Plain scalars -/

/-- The characters of a plain scalar up to the next space or to what ends the scalar: a colon before
a space, in a flow collection also a bracket or comma. A colon right before one of these or before
a question mark is refused there. -/
def plainWord? (flow : Bool) : List MarkedChar → Option (List Char × List MarkedChar)
  | [] => some ([], [])
  | c :: rest =>
      if isSpace c.char then some ([], c :: rest)
      else if flow && c.char == ':' && startsWithOneOf (flowMarks.push '?') rest then none
      else if (c.char == ':' && atSpace rest) || (flow && flowMarks.contains c.char) then
        some ([], c :: rest)
      else (plainWord? flow rest).map fun (word, rest) => (c.char :: word, rest)

/-- A word is read off the start of the text. -/
theorem length_of_plainWord? {flow : Bool} {cs rest : List MarkedChar} {word : List Char}
    (h : plainWord? flow cs = some (word, rest)) : rest.length ≤ cs.length := by
  induction cs generalizing word rest with
  | nil => simp_all [plainWord?]
  | cons c cs ih =>
    simp only [plainWord?] at h
    split at h
    · simp_all
    · split at h
      · simp at h
      · split at h
        · simp_all
        · obtain ⟨⟨_, _⟩, found, same⟩ := Option.map_eq_some_iff.1 h
          cases same
          exact Nat.le_succ_of_le (ih found)

/-- The rest of a plain scalar whose text so far is `acc`, last first, followed by `gap`. It ends
before a comment, before the marker of a document, and outside of flow collections before a line
that is indented by less than `least`. The gap at its end is given, too. -/
def plainRest? (flow : Bool) (least : Nat) (acc : List Char) (gap : Gap) (cs : List MarkedChar) :
    Option (List Char × Gap × List MarkedChar) :=
  if startsWithOneOf "#" cs || (marker? cs).isSome then some (acc.reverse, gap, cs)
  else
    match _h : plainWord? flow cs with
    | none => none
    | some (word, rest) =>
        let acc := if word.isEmpty then acc else word.reverse ++ (gap.text.reverse ++ acc)
        let gap := if word.isEmpty then gap else {}
        let space := rest.takeWhile fun c => isSpace c.char
        let indentation := space.dropWhile fun c => isBlank c.char
        if _hs : space.length = 0 then some (acc.reverse, gap, rest)
        else if indentation.any fun c => c.char == '\t' && c.column < least then none
        else
          let gap := Gap.ofChars (space.map MarkedChar.char)
          let next := rest.drop space.length
          if !flow && next.head?.any (·.column < least) then some (acc.reverse, gap, next)
          else plainRest? flow least acc gap next
termination_by cs.length
decreasing_by
  have := length_of_plainWord? _h
  have : space.length ≤ rest.length := (List.takeWhile_prefix _).length_le
  change (rest.drop space.length).length < cs.length
  rw [List.length_drop]
  omega

/-- A plain scalar, and whether a line ends between it and the rest. -/
def plain? (flow : Bool) (least : Nat) (cs : List MarkedChar) :
    Option (String × Bool × List MarkedChar) := do
  let (text, gap, rest) ← plainRest? flow least [] {} cs
  return (String.ofList text, !gap.breaks.isEmpty, rest)

/-! ## Quoted scalars -/

/-- The character that a letter after a backslash stands for. -/
def escaped? : Char → Option Char
  | 'n' => some '\n'
  | 't' => some '\t'
  | '\t' => some '\t'
  | 'r' => some '\r'
  | '0' => some '\x00'
  | 'a' => some '\x07'
  | 'b' => some '\x08'
  | 'v' => some '\x0b'
  | 'f' => some '\x0c'
  | 'e' => some '\x1b'
  | ' ' => some ' '
  | '"' => some '"'
  | '/' => some '/'
  | '\\' => some '\\'
  | 'N' => some '\u0085'
  | '_' => some '\u00a0'
  | 'L' => some '\u2028'
  | 'P' => some '\u2029'
  | _ => none

/-- How many hexadecimal digits give the number of a character after a letter. -/
def numberedDigits? : Char → Option Nat
  | 'x' => some 2
  | 'u' => some 4
  | 'U' => some 8
  | _ => none

/-- The character with a hexadecimal number of a given number of digits, and the rest of the text.
-/
def numbered? (digits : Nat) (cs : List MarkedChar) : Option (Char × List MarkedChar) := do
  let number := (cs.take digits).map MarkedChar.char
  let code ← digitsValue? 16 number
  if number.length = digits ∧ code.isValidChar then return (Char.ofNat code, cs.drop digits)
  else none

/-- The character of an escape after its backslash, and the rest of the text. -/
def escape? : List MarkedChar → Option (Char × List MarkedChar)
  | [] => none
  | c :: rest =>
      match numberedDigits? c.char with
      | some digits => numbered? digits rest
      | none => (escaped? c.char).map (·, rest)

/-- An escape is read off the start of the text. -/
theorem length_of_escape? {cs rest : List MarkedChar} {c : Char}
    (h : escape? cs = some (c, rest)) : rest.length ≤ cs.length := by
  cases cs with
  | nil => simp [escape?] at h
  | cons d cs =>
    simp only [escape?] at h
    split at h
    · simp only [numbered?, Option.pure_def, Option.bind_eq_bind, Option.bind_eq_some_iff] at h
      obtain ⟨_, _, h⟩ := h
      split at h
      · simp only [Option.some.injEq, Prod.mk.injEq] at h
        rw [← h.2, List.length_drop, List.length_cons]
        omega
      · simp at h
    · obtain ⟨_, _, h⟩ := Option.map_eq_some_iff.1 h
      simp_all

/-- The rest of a quoted scalar up to its closing mark. `acc` holds the characters read, last first.
A break after a backslash reads as nothing, with the blanks after it. -/
def quotedRest? (quote : Char) (acc : List Char) :
    List MarkedChar → Option (List Char × List MarkedChar)
  | [] => none
  | c :: rest =>
      if (marker? (c :: rest)).isSome then none
      else if isSpace c.char then
        let space := c.char :: (spanChars isSpace rest).1
        quotedRest? quote ((Gap.ofChars space).text.reverse ++ acc) (spanChars isSpace rest).2
      else if c.char == '\'' && quote == '\'' && startsWithOneOf "'" rest then
        quotedRest? quote ('\'' :: acc) (rest.drop 1)
      else if c.char == quote then some (acc.reverse, rest)
      else if c.char == '\\' && quote == '"' then
        -- an escaped break joins two lines
        if !rest.isEmpty && atBreak rest then
          let space := spanChars isSpace (rest.drop 1)
          quotedRest? quote ((space.1.filter isBreak).reverse ++ acc) space.2
        else
          match _h : escape? rest with
          | none => none
          | some (escaped, next) => quotedRest? quote (escaped :: acc) next
      else quotedRest? quote (c.char :: acc) rest
termination_by cs => cs.length
decreasing_by
  · exact Nat.lt_succ_of_le (length_spanChars_le isSpace rest)
  · simp only [List.length_drop, List.length_cons]; omega
  · have := length_spanChars_le isSpace (rest.drop 1)
    simp only [List.length_drop, List.length_cons] at this ⊢
    omega
  · exact Nat.lt_succ_of_le (length_of_escape? _h)
  · exact Nat.lt_succ_self _

/-- A quoted scalar after its opening mark. -/
def quoted? (quote : Char) (cs : List MarkedChar) : Option (String × List MarkedChar) := do
  let (text, rest) ← quotedRest? quote [] cs
  return (String.ofList text, rest)

/-! ## Block scalars -/

/-- What becomes of the breaks at the end of a block scalar. -/
inductive Chomping where
  /-- None is kept. -/
  | strip
  /-- The first one is kept. -/
  | clip
  /-- All are kept. -/
  | keep
  deriving DecidableEq, Repr, Inhabited

/-- A sign for the chomping, if there is one. -/
def chomping? (cs : List MarkedChar) : Option Chomping × List MarkedChar :=
  if startsWithOneOf "+" cs then (some .keep, cs.drop 1)
  else if startsWithOneOf "-" cs then (some .strip, cs.drop 1)
  else (none, cs)

/-- A digit for the indentation, if there is one. -/
def indentation? (cs : List MarkedChar) : Option Nat × List MarkedChar :=
  match cs with
  | c :: rest => if c.char.isDigit then (some (c.char.toNat - '0'.toNat), rest) else (none, cs)
  | [] => (none, [])

/-- The chomping and the indentation at the start of a block scalar, in either order, and the text
from the next line on. An indentation of zero is refused. -/
def blockHeader? (cs : List MarkedChar) :
    Option (Chomping × Option Nat × List MarkedChar) := do
  let (first, rest) := chomping? cs
  let (indentation, rest) := indentation? rest
  let (second, rest) := if first.isNone && indentation.isSome then chomping? rest else (none, rest)
  if indentation = some 0 then none
  return ((first.or second).getD .clip, indentation, ← endLine? rest)

/-- Passes over lines that hold nothing but their indentation, which is `indent`, or of any depth if
`indent` is zero. Gives their breaks, how deep the deepest of them and the next line is indented,
and the text from the next line on. `breaks` holds the breaks before, last first. -/
def emptyLines? (indent : Nat) : (breaks : List Char) → (deepest : Nat) → List MarkedChar →
    Option (List Char × Nat × List MarkedChar)
  | breaks, deepest, [] => some (breaks.reverse, deepest, [])
  | breaks, deepest, c :: rest =>
      let indenting := indent == 0 || c.column < indent
      if c.char == ' ' && indenting then emptyLines? indent breaks deepest rest
      else if c.char == '\t' && indenting then none
      else if isBreak c.char then
        emptyLines? indent (c.char :: breaks) (max deepest c.column) rest
      else some (breaks.reverse, max deepest c.column, c :: rest)

/-- Empty lines are read off the start of the text. -/
theorem length_of_emptyLines? {indent deepest deepest' : Nat} {breaks breaks' : List Char}
    {cs rest : List MarkedChar}
    (h : emptyLines? indent breaks deepest cs = some (breaks', deepest', rest)) :
    rest.length ≤ cs.length := by
  induction cs generalizing breaks deepest with
  | nil => simp_all [emptyLines?]
  | cons c cs ih =>
    simp only [emptyLines?] at h
    split at h
    · exact Nat.le_succ_of_le (ih h)
    · split at h
      · simp at h
      · split at h
        · exact Nat.le_succ_of_le (ih h)
        · simp_all

/-- The lines of a block scalar that are read already. -/
structure BlockText where
  /-- The characters without the breaks after the last line, last first. -/
  chars : List Char := []
  /-- The break of the last line. -/
  lineBreak : List Char := []
  /-- The breaks of empty lines after it. -/
  emptyBreaks : List Char := []
  /-- Whether the last line starts with a blank. -/
  startsBlank : Bool := false

namespace BlockText

/-- What the breaks after the last line read as before another line. Where breaks are folded, a
break between two lines that do not start with blanks reads as a space, or as nothing if empty lines
follow it. -/
def joint (block : BlockText) (folded startsBlank : Bool) : List Char :=
  if folded && block.lineBreak == ['\n'] && !block.startsBlank && !startsBlank then
    if block.emptyBreaks.isEmpty then [' '] else block.emptyBreaks
  else block.lineBreak ++ block.emptyBreaks

/-- The text with another line. -/
def addLine (block : BlockText) (folded : Bool) (line lineBreak : List Char) : BlockText :=
  let startsBlank := line.head?.any isBlank
  { chars := line.reverse ++ ((block.joint folded startsBlank).reverse ++ block.chars)
    lineBreak
    startsBlank }

/-- The text of a block scalar. -/
def chomp (block : BlockText) (chomping : Chomping) : List Char :=
  let breaks :=
    match chomping with
    | .strip => []
    | .clip => block.lineBreak
    | .keep => block.lineBreak ++ block.emptyBreaks
  block.chars.reverse ++ breaks

end BlockText

/-- The lines of a block scalar that are indented by `indent`, after those read already. -/
def blockLines? (folded : Bool) (indent : Nat) (block : BlockText) :
    List MarkedChar → Option (BlockText × List MarkedChar)
  | [] => some (block, [])
  | c :: cs =>
      if c.column == indent then
        let line := c.char :: (spanChars (fun c => !isBreak c) cs).1
        let rest := (spanChars (fun c => !isBreak c) cs).2
        let block := block.addLine folded line ((rest.take 1).map MarkedChar.char)
        match _h : emptyLines? indent [] 0 (rest.drop 1) with
        | none => none
        | some (emptyBreaks, _, next) => blockLines? folded indent { block with emptyBreaks } next
      else some (block, c :: cs)
termination_by cs => cs.length
decreasing_by
  have := length_of_emptyLines? _h
  have := length_spanChars_le (fun c => !isBreak c) cs
  simp only [List.length_drop, List.length_cons, rest] at *
  omega

/-- A block scalar after its mark. Its lines are indented by as much as its header says, or else as
the first of them, but by `least` and one space at least. -/
def block? (folded : Bool) (least : Nat) (cs : List MarkedChar) :
    Option (String × List MarkedChar) := do
  let (chomping, indentation, cs) ← blockHeader? cs
  let given := (indentation.map (least - 1 + ·)).getD 0
  let (emptyBreaks, deepest, cs) ← emptyLines? given [] 0 cs
  let indent := if given = 0 then max deepest (max least 1) else given
  let (block, rest) ← blockLines? folded indent { emptyBreaks } cs
  return (String.ofList (block.chomp chomping), rest)

/-- A gap without a break reads as it is. -/
@[simp] theorem Gap.text_blanks (blanks : List Char) : (Gap.mk blanks []).text = blanks := rfl

/-- A single line break reads as a space. -/
@[simp] theorem Gap.text_break (blanks : List Char) : (Gap.mk blanks ['\n']).text = [' '] := rfl

end Yaml

end MacroExpansion
