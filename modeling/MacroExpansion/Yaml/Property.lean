import MacroExpansion.Yaml.Text

/-! # YAML anchors, tags and directives, read

A tag is written as a handle and a suffix; what a handle stands for is said by the directives of the
document. Suffixes keep their octets, for an escaped octet need not be part of a character. -/

namespace MacroExpansion

namespace Yaml

/-- The characters of names. -/
def isNameChar (c : Char) : Bool :=
  c.isAlphanum || c == '_' || c == '-'

/-- The name of an anchor or alias after its mark. -/
def anchorName? (cs : List MarkedChar) : Option (String × List MarkedChar) :=
  let (name, rest) := spanChars isNameChar cs
  if !name.isEmpty && (atSpace rest || startsWithOneOf "?:,]\x7d%@\x60" rest) then
    some (String.ofList name, rest)
  else none

/-! ## Tags -/

/-- The characters of suffixes. Commas and brackets are among them where they cannot be taken for
marks of a flow collection. -/
def isSuffixChar (brackets : Bool) (c : Char) : Bool :=
  isNameChar c || ";/?:@&=+$.!~*'()".contains c || (brackets && ",[]".contains c)

/-- How many octets follow the first octet of a character. -/
def following? (octet : Nat) : Option Nat :=
  if octet < 0x80 then some 0
  else if octet < 0xC0 then none
  else if octet < 0xE0 then some 1
  else if octet < 0xF0 then some 2
  else if octet < 0xF8 then some 3
  else none

/-- The octets of a suffix, and the rest. An octet may be escaped by a percent sign and two digits;
`due` counts the escaped octets that the character begun asks for. -/
def suffixOctets? (brackets : Bool) :
    (due : Nat) → List MarkedChar → Option (List UInt8 × List MarkedChar)
  | 0, [] => some ([], [])
  | _ + 1, [] => none
  | due, c :: rest =>
      match c.char == '%', due with
      | true, due =>
          match rest with
          | a :: b :: rest => do
              let octet ← digitsValue? 16 [a.char, b.char]
              let due ←
                match due with
                | 0 => following? octet
                | due + 1 => if 0x80 ≤ octet ∧ octet < 0xC0 then some due else none
              let (octets, rest) ← suffixOctets? brackets due rest
              return (octet.toUInt8 :: octets, rest)
          | _ => none
      | false, 0 =>
          if isSuffixChar brackets c.char then do
            let (octets, rest) ← suffixOctets? brackets 0 rest
            return (c.char.toNat.toUInt8 :: octets, rest)
          else some ([], c :: rest)
      | false, _ + 1 => none

/-- The octets before the first one that is zero. -/
def beforeZero (octets : List UInt8) : List UInt8 :=
  octets.takeWhile (· != 0)

/-- A suffix that is not empty. -/
def suffix? (brackets : Bool) (cs : List MarkedChar) :
    Option (List UInt8 × List MarkedChar) := do
  let (octets, rest) ← suffixOctets? brackets 0 cs
  if octets.isEmpty then none else return (beforeZero octets, rest)

/-- The octets of a text. -/
def octetsOf (text : String) : List UInt8 :=
  text.toUTF8.toList

/-- A tag after its first exclamation mark: a full one in angle brackets, one with a named handle,
or one with the handle `!`. Full tags have the empty handle, as has the tag of a single exclamation
mark. -/
def tagParts? (cs : List MarkedChar) : Option ((String × List UInt8) × List MarkedChar) := do
  if startsWithOneOf "<" cs then
    let (suffix, rest) ← suffix? true (cs.drop 1)
    if startsWithOneOf ">" rest then return (("", suffix), rest.drop 1) else none
  else
    let (name, rest) := spanChars isNameChar cs
    if startsWithOneOf "!" rest then
      let (suffix, rest) ← suffix? false (rest.drop 1)
      return ((String.ofList ('!' :: name ++ ['!']), suffix), rest)
    else
      let (octets, rest) ← suffixOctets? false 0 cs
      let suffix := beforeZero octets
      return (if suffix.isEmpty then ("", octetsOf "!") else ("!", suffix), rest)

/-- A tag after its first exclamation mark. A space has to follow it, or in a flow collection a
comma. -/
def tag? (flow : Bool) (cs : List MarkedChar) :
    Option ((String × List UInt8) × List MarkedChar) := do
  let (tag, rest) ← tagParts? cs
  if atSpace rest || (flow && startsWithOneOf "," rest) then return (tag, rest) else none

/-! ## Directives -/

/-- What a line in front of a document says. -/
inductive Directive where
  /-- The version of the language. -/
  | version (major minor : Nat)
  /-- What a handle of tags stands for. -/
  | handle (name : String) (stem : List UInt8)
  deriving DecidableEq, Repr

/-- A number of a version, of at most nine digits. -/
def versionNumber? (cs : List MarkedChar) : Option (Nat × List MarkedChar) := do
  let (digits, rest) := spanChars Char.isDigit cs
  if digits.length ≤ 9 then return (← digitsValue? 10 digits, rest) else none

/-- A version after the name of its directive. -/
def version? (cs : List MarkedChar) : Option (Directive × List MarkedChar) := do
  let (major, rest) ← versionNumber? (skipBlanks cs)
  if startsWithOneOf "." rest then
    let (minor, rest) ← versionNumber? (rest.drop 1)
    return (.version major minor, rest)
  else none

/-- A handle and its meaning after the name of their directive. -/
def handle? (cs : List MarkedChar) : Option (Directive × List MarkedChar) := do
  let start := skipBlanks cs
  if !startsWithOneOf "!" start then none
  let (name, rest) := spanChars isNameChar (start.drop 1)
  let (name, rest) ←
    if startsWithOneOf "!" rest then some ('!' :: name ++ ['!'], rest.drop 1)
    else if name.isEmpty then some (['!'], rest)
    else none
  if !startsWithOneOf " \t" rest then none
  let (stem, rest) ← suffix? true (skipBlanks rest)
  if atSpace rest then return (.handle (String.ofList name) stem, rest) else none

/-- A directive after its percent sign, and the text from the next line on. -/
def directive? (cs : List MarkedChar) : Option (Directive × List MarkedChar) := do
  let (name, rest) := spanChars isNameChar cs
  if !atSpace rest then none
  let (directive, rest) ←
    match String.ofList name with
    | "YAML" => version? rest
    | "TAG" => handle? rest
    | _ => none
  return (directive, ← endLine? rest)

end Yaml

end MacroExpansion
