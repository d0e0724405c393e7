import MacroExpansion.Yaml.Basic

/-! # Places in YAML text

Indentation decides how YAML text is read, so each character comes with the place where it stands. A
carriage return and the line feed after it are one character here. The breaks that have no meaning
of their own all read as line feeds; the line and paragraph separators are kept. -/

namespace MacroExpansion

namespace Yaml

/-- A character of a text. -/
structure MarkedChar where
  /-- The character. -/
  char : Char
  /-- The number of characters before it. -/
  index : Nat
  /-- The number of lines before its own. -/
  line : Nat
  /-- The number of characters before it in its line. -/
  column : Nat
  deriving DecidableEq, Repr, Inhabited

/-- Whether a character may stand in a text. Most control characters may not. -/
def isAllowed (c : Char) : Bool :=
  "\t\n\r\u0085".contains c || (' ' ≤ c && c ≤ '~') || ('\u00a0' ≤ c && c ≤ '\ufffd')
    || 0x10000 ≤ c.toNat

/-- Blanks within a line. -/
def isBlank (c : Char) : Bool :=
  c == ' ' || c == '\t'

/-- The characters that end a line. -/
def isBreak (c : Char) : Bool :=
  c == '\n' || c == '\u2028' || c == '\u2029'

/-- Blanks and the characters that end a line. -/
def isSpace (c : Char) : Bool :=
  isBlank c || isBreak c

/-- The characters of a text with their places, from a place on. -/
def mark (index line column : Nat) : List Char → List MarkedChar
  | [] => []
  | '\r' :: '\n' :: rest => ⟨'\n', index, line, column⟩ :: mark (index + 2) (line + 1) 0 rest
  | c :: rest =>
      let read := if c == '\r' || c == '\u0085' then '\n' else c
      if isBreak read then ⟨read, index, line, column⟩ :: mark (index + 1) (line + 1) 0 rest
      else ⟨read, index, line, column⟩ :: mark (index + 1) line (column + 1) rest

/-- The characters of a text with their places, without a byte order mark at its start; `none` if
one of them may not stand there. -/
def marked? (text : String) : Option (List MarkedChar) :=
  if text.toList.all isAllowed then
    match mark 0 0 0 text.toList with
    | c :: rest => some (if c.char == '\ufeff' then rest else c :: rest)
    | [] => some []
  else none

/-! ## Looking ahead -/

/-- Whether the text ends or goes on with a blank or a break. -/
def atSpace : List MarkedChar → Bool
  | [] => true
  | c :: _ => isSpace c.char

/-- Whether the text ends or goes on with a break. -/
def atBreak : List MarkedChar → Bool
  | [] => true
  | c :: _ => isBreak c.char

/-- Whether the text goes on with one of the given characters. -/
def startsWithOneOf (chars : String) : List MarkedChar → Bool
  | [] => false
  | c :: _ => chars.contains c.char

/-- The character of which three in a row, alone at the start of a line, begin (`-`) or end (`.`) a
document, if that is what stands here. -/
def marker? : List MarkedChar → Option Char
  | a :: b :: c :: rest =>
      if a.column == 0 && "-.".contains a.char && b.char == a.char && c.char == a.char
          && atSpace rest then
        some a.char
      else none
  | _ => none

/-- Brackets and commas of flow collections. -/
def flowMarks : String := ",[]\x7b\x7d"

/-! ## Skipping -/

/-- The longest run at the start of the text of characters that pass a test, and the rest. -/
def spanChars (test : Char → Bool) (cs : List MarkedChar) : List Char × List MarkedChar :=
  ((cs.takeWhile fun c => test c.char).map MarkedChar.char, cs.dropWhile fun c => test c.char)

/-- The text after blanks. -/
def skipBlanks (cs : List MarkedChar) : List MarkedChar :=
  cs.dropWhile fun c => isBlank c.char

/-- The text from the start of the next line, if this line holds nothing more than blanks and a
comment. -/
def endLine? (cs : List MarkedChar) : Option (List MarkedChar) :=
  let rest := skipBlanks cs
  let rest := if startsWithOneOf "#" rest then rest.dropWhile fun c => !isBreak c.char else rest
  if atBreak rest then some (rest.drop 1) else none

/-- No character gets lost when a run is split off. -/
theorem spanChars_append (test : Char → Bool) (cs : List MarkedChar) :
    (spanChars test cs).1 ++ (spanChars test cs).2.map MarkedChar.char
      = cs.map MarkedChar.char := by
  rw [spanChars, ← List.map_append, List.takeWhile_append_dropWhile]

/-- What remains after a run is not longer than the text. -/
theorem length_spanChars_le (test : Char → Bool) (cs : List MarkedChar) :
    (spanChars test cs).2.length ≤ cs.length :=
  (List.dropWhile_suffix _).length_le

end Yaml

end MacroExpansion
