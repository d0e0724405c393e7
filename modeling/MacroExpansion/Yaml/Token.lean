import MacroExpansion.Yaml.Property
import MacroExpansion.Yaml.Scalar

/-! # YAML tokens

A text is cut into tokens first. The tokens make explicit what indentation says: where a block
collection starts and ends. They also tell which scalars are keys. That shows only at the colon, so
what may be a key is remembered by its position, and the tokens that announce it are put in front of
it later. -/

namespace MacroExpansion

namespace Yaml

/-- A token. -/
inductive Token where
  /-- A directive. -/
  | directive (directive : Directive)
  /-- The marker in front of a document. -/
  | documentStart
  /-- The marker behind a document. -/
  | documentEnd
  /-- The start of a block sequence. -/
  | blockSequence
  /-- The start of a block mapping. -/
  | blockMapping
  /-- The end of a block collection. -/
  | blockEnd
  /-- An opening square bracket. -/
  | flowSequence
  /-- A closing square bracket. -/
  | flowSequenceEnd
  /-- An opening brace. -/
  | flowMapping
  /-- A closing brace. -/
  | flowMappingEnd
  /-- A dash in front of an item. -/
  | dash
  /-- A comma in a flow collection. -/
  | comma
  /-- What announces a key. -/
  | key
  /-- What announces a value. -/
  | value
  /-- A reference to an anchor. -/
  | alias (name : String)
  /-- The name of the next node. -/
  | anchor (name : String)
  /-- The tag of the next node. -/
  | tag (handle : String) (suffix : List UInt8)
  /-- A scalar. -/
  | scalar (style : ScalarStyle) (text : String)
  deriving DecidableEq, Repr

/-- What may turn out to be a key. -/
structure PossibleKey where
  /-- The number of tokens before it. -/
  position : Nat
  /-- Its first character. -/
  start : MarkedChar
  /-- Whether it stands where only a key can stand. -/
  required : Bool
  deriving Repr

/-- Whether a possible key may still become one at a later character: a key lies within one line and
1024 characters. -/
def PossibleKey.isFresh (key : PossibleKey) (c : MarkedChar) : Bool :=
  c.line ≤ key.start.line && c.index ≤ key.start.index + 1024

/-- How far a text is cut into tokens. -/
structure Cut where
  /-- The tokens. -/
  tokens : Array Token := #[]
  /-- The columns of the open block collections, innermost first. -/
  columns : List Nat := []
  /-- Whether a key may start here. -/
  keyAllowed : Bool := true
  /-- What may be a key in the innermost open collection. -/
  possible : Option PossibleKey := none
  /-- What may be a key around each of the open flow collections, innermost first. -/
  around : List (Option PossibleKey) := []

namespace Cut

/-- Whether a flow collection is open. -/
def inFlow (cut : Cut) : Bool :=
  !cut.around.isEmpty

/-- The least indentation of what stands within the innermost block collection. -/
def least (cut : Cut) : Nat :=
  (cut.columns.head?.map (· + 1)).getD 0

/-- Adds a token. -/
def push (cut : Cut) (token : Token) : Cut :=
  { cut with tokens := cut.tokens.push token }

/-- Puts a token at a position. -/
def insert (cut : Cut) (position : Nat) (token : Token) : Cut :=
  { cut with tokens := cut.tokens.insertIdxIfInBounds position token }

/-! ## Block collections -/

/-- Opens a block collection with its start at a position, unless one is open at the column. Within
flow collections there are none. -/
def openBlock (cut : Cut) (column position : Nat) (start : Token) : Cut :=
  if !cut.inFlow && cut.least ≤ column then
    { cut.insert position start with columns := column :: cut.columns }
  else cut

/-- Ends the block collections at columns that pass a test, from the innermost outwards. -/
def closeBlocks (cut : Cut) (test : Nat → Bool) : Cut :=
  if cut.inFlow then cut
  else
    { (cut.columns.takeWhile test).foldl (fun cut _ => cut.push .blockEnd) cut with
      columns := cut.columns.dropWhile test }

/-! ## Possible keys -/

/-- Gives up a possible key; refused if it had to be one. -/
def giveUp? : Option PossibleKey → Option Unit
  | some key => if key.required then none else some ()
  | none => some ()

/-- Gives up what may be a key in the innermost collection. -/
def dropKey? (cut : Cut) : Option Cut := do
  giveUp? cut.possible
  return { cut with possible := none }

/-- Keeps a possible key only as long as it may become one. -/
def fresh? (c : MarkedChar) (possible : Option PossibleKey) : Option (Option PossibleKey) :=
  if possible.all (·.isFresh c) then some possible
  else do
    giveUp? possible
    return none

/-- Gives up the possible keys, of all open collections, that can be none at a character. -/
def dropStaleKeys? (cut : Cut) (c : MarkedChar) : Option Cut := do
  return { cut with
    possible := ← fresh? c cut.possible
    around := ← cut.around.mapM (fresh? c) }

/-- Remembers that what starts at a character may be a key. It has to be one where a block mapping
goes on. -/
def noteKey? (cut : Cut) (c : MarkedChar) : Option Cut := do
  if !cut.keyAllowed then return cut
  giveUp? cut.possible
  let required := !cut.inFlow && cut.columns.head? == some c.column
  return { cut with possible := some ⟨cut.tokens.size, c, required⟩ }

/-! ## Single tokens -/

/-- Adds the token of a node that may be a key, which starts at a character. -/
def pushNode? (cut : Cut) (c : MarkedChar) (token : Token) : Option Cut := do
  let cut ← cut.noteKey? c
  return { cut.push token with keyAllowed := false }

/-- Adds a directive or the marker of a document; all block collections end before it. -/
def pushOutside? (cut : Cut) (token : Token) : Option Cut := do
  let cut ← (cut.closeBlocks fun _ => true).dropKey?
  return { cut.push token with keyAllowed := false }

/-- Opens a flow collection at a character. -/
def openFlow? (cut : Cut) (c : MarkedChar) (token : Token) : Option Cut := do
  let cut ← cut.noteKey? c
  return { cut.push token with
    keyAllowed := true, possible := none, around := cut.possible :: cut.around }

/-- Closes a flow collection. -/
def closeFlow? (cut : Cut) (token : Token) : Option Cut := do
  let cut ← cut.dropKey?
  return { cut.push token with
    keyAllowed := false
    possible := cut.around.head?.getD none
    around := cut.around.tail }

/-- Adds a comma. -/
def pushComma? (cut : Cut) : Option Cut := do
  let cut ← cut.dropKey?
  return { cut.push .comma with keyAllowed := true }

/-- The block collection that a dash, a question mark or a colon at a column goes on with or starts.
In flow collections nothing is to be done. -/
def enterBlock? (cut : Cut) (column : Nat) (start : Token) : Option Cut :=
  if cut.inFlow || cut.keyAllowed then
    some (cut.openBlock column cut.tokens.size start)
  else none

/-- Adds a dash at a column. -/
def pushDash? (cut : Cut) (column : Nat) : Option Cut := do
  let cut ← (← cut.enterBlock? column .blockSequence).dropKey?
  return { cut.push .dash with keyAllowed := true }

/-- Adds a question mark at a column. -/
def pushKey? (cut : Cut) (column : Nat) : Option Cut := do
  let cut ← (← cut.enterBlock? column .blockMapping).dropKey?
  return { cut.push .key with keyAllowed := !cut.inFlow }

/-- Adds a colon at a column. What may be a key before it is one. -/
def pushValue? (cut : Cut) (column : Nat) : Option Cut :=
  match cut.possible with
  | some key =>
      -- the key came before anything told that it is one
      let announced :=
        (cut.insert key.position .key).openBlock key.start.column key.position .blockMapping
      some { announced.push .value with keyAllowed := false, possible := none }
  | none => do
      let cut ← cut.enterBlock? column .blockMapping
      return { cut.push .value with keyAllowed := !cut.inFlow }

/-! ## The whole text -/

/-- The text from the next token on, and whether a key may start there. Spaces and comments are
passed over, tabs only where no indentation is expected; outside of flow collections a key may start
in every line. -/
def skip (inFlow : Bool) : (keyAllowed inComment : Bool) → List MarkedChar →
    Bool × List MarkedChar
  | keyAllowed, _, [] => (keyAllowed, [])
  | keyAllowed, inComment, c :: rest =>
      if isBreak c.char then skip inFlow (keyAllowed || !inFlow) false rest
      else if inComment || c.char == '#' then skip inFlow keyAllowed true rest
      else if c.char == ' ' || (c.char == '\t' && (inFlow || !keyAllowed)) then
        skip inFlow keyAllowed false rest
      else (keyAllowed, c :: rest)

/-- Adds the plain scalar that starts at a character. -/
def plainToken? (cut : Cut) (c : MarkedChar) (cs : List MarkedChar) :
    Option (Cut × List MarkedChar) := do
  let cut ← cut.noteKey? c
  let (text, breaks, rest) ← plain? cut.inFlow cut.least cs
  return ({ cut.push (.scalar .plain text) with keyAllowed := breaks }, rest)

/-- Adds the block scalar after its mark. -/
def blockToken? (cut : Cut) (style : ScalarStyle) (cs : List MarkedChar) :
    Option (Cut × List MarkedChar) := do
  if cut.inFlow then none
  let cut ← cut.dropKey?
  let (text, rest) ← block? (style == .folded) cut.least cs
  return ({ cut.push (.scalar style text) with keyAllowed := true }, rest)

/-- Adds the token that starts with a character, and gives the text behind it. -/
def next? (cut : Cut) (c : MarkedChar) (rest : List MarkedChar) :
    Option (Cut × List MarkedChar) := do
  let alone := atSpace rest
  match c.char, marker? (c :: rest) with
  | '-', some _ => return (← cut.pushOutside? .documentStart, rest.drop 2)
  | '.', some _ => return (← cut.pushOutside? .documentEnd, rest.drop 2)
  | '[', _ => return (← cut.openFlow? c .flowSequence, rest)
  | '\x7b', _ => return (← cut.openFlow? c .flowMapping, rest)
  | ']', _ => return (← cut.closeFlow? .flowSequenceEnd, rest)
  | '\x7d', _ => return (← cut.closeFlow? .flowMappingEnd, rest)
  | ',', _ => return (← cut.pushComma?, rest)
  | '-', none =>
      if alone then return (← cut.pushDash? c.column, rest)
      else cut.plainToken? c (c :: rest)
  | '?', _ =>
      if alone || cut.inFlow then return (← cut.pushKey? c.column, rest)
      else cut.plainToken? c (c :: rest)
  | ':', _ =>
      if alone || cut.inFlow then return (← cut.pushValue? c.column, rest)
      else cut.plainToken? c (c :: rest)
  | '*', _ =>
      let (name, rest) ← anchorName? rest
      return (← cut.pushNode? c (.alias name), rest)
  | '&', _ =>
      let (name, rest) ← anchorName? rest
      return (← cut.pushNode? c (.anchor name), rest)
  | '!', _ =>
      let ((handle, suffix), rest) ← tag? cut.inFlow rest
      return (← cut.pushNode? c (.tag handle suffix), rest)
  | '|', _ => cut.blockToken? .literal rest
  | '>', _ => cut.blockToken? .folded rest
  | '\'', _ =>
      let (text, rest) ← quoted? '\'' rest
      return (← cut.pushNode? c (.scalar .quoted text), rest)
  | '"', _ =>
      let (text, rest) ← quoted? '"' rest
      return (← cut.pushNode? c (.scalar .quoted text), rest)
  | '%', _ =>
      if c.column != 0 then none
      let (directive, rest) ← directive? rest
      return (← cut.pushOutside? (.directive directive), rest)
  | '@', _ | '\x60', _ | '\t', _ => none
  | _, _ => cut.plainToken? c (c :: rest)

/-- Cuts a text into tokens. Each takes a character at least, so the length of the text bounds their
number. -/
def run? : (fuel : Nat) → Cut → List MarkedChar → Option Cut
  | 0, _, _ => none
  | fuel + 1, cut, cs => do
      let (keyAllowed, cs) := skip cut.inFlow cut.keyAllowed false cs
      let cut := { cut with keyAllowed }
      match cs with
      | [] => (cut.closeBlocks fun _ => true).dropKey?
      | c :: rest =>
          -- a token to the left of a block collection ends it
          let cut ← cut.dropStaleKeys? c
          let (cut, rest) ← (cut.closeBlocks (c.column < ·)).next? c rest
          run? fuel cut rest

end Cut

/-- The tokens of a text; `none` if it cannot be cut into tokens. -/
def Token.ofText? (text : String) : Option (List Token) := do
  let cs ← marked? text
  return (← Cut.run? (cs.length + 1) {} cs).tokens.toList

end Yaml

end MacroExpansion
