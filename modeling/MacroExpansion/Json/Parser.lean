import MacroExpansion.Json.Basic

/-! # JSON text, read

A reader for one JSON document. It follows the grammar strictly: no comments, no trailing commas, no
leading zeros, no raw control characters in strings, nothing but blanks after the value. Objects
keep repeated keys. An escaped half of a surrogate pair without its partner is refused only where it
matters, in the keys of the outermost object; elsewhere it reads as the replacement character. -/

namespace MacroExpansion

namespace Json

/-- The characters that may stand between tokens. -/
def isBlank (c : Char) : Bool :=
  c == ' ' || c == '\n' || c == '\t' || c == '\r'

/-- The text without blanks in front. -/
def skipBlanks (cs : List Char) : List Char :=
  cs.dropWhile isBlank

/-! ## Strings -/

/-- The value of a hexadecimal digit. -/
def hexValue? (c : Char) : Option Nat :=
  if '0' ≤ c ∧ c ≤ '9' then some (c.toNat - '0'.toNat)
  else if 'a' ≤ c ∧ c ≤ 'f' then some (c.toNat - 'a'.toNat + 10)
  else if 'A' ≤ c ∧ c ≤ 'F' then some (c.toNat - 'A'.toNat + 10)
  else none

/-- The value of four hexadecimal digits. -/
def hexUnit? (a b c d : Char) : Option Nat := do
  return (((← hexValue? a) * 16 + (← hexValue? b)) * 16 + (← hexValue? c)) * 16 + (← hexValue? d)

/-- The character after a backslash, for the escapes of one letter. -/
def simpleEscape? (c : Char) : Option Char :=
  match c with
  | '"' => some '"'
  | '\\' => some '\\'
  | '/' => some '/'
  | 'b' => some '\x08'
  | 'f' => some '\x0c'
  | 'n' => some '\n'
  | 'r' => some '\r'
  | 't' => some '\t'
  | _ => none

/-- One piece of a string as written. -/
inductive Piece where
  /-- A character, plain or escaped by one letter. -/
  | char (c : Char)
  /-- A 16-bit unit, escaped by its four digits. -/
  | unit (n : Nat)

/-- The pieces of a string after its opening quotation mark, last first, and the rest of the text
after the closing one. -/
def stringPieces : List Piece → List Char → Option (List Piece × List Char)
  | _, [] => none
  | acc, '"' :: rest => some (acc, rest)
  | acc, '\\' :: 'u' :: a :: b :: c :: d :: rest =>
      match hexUnit? a b c d with
      | some n => stringPieces (.unit n :: acc) rest
      | none => none
  | acc, '\\' :: e :: rest =>
      match simpleEscape? e with
      | some c => stringPieces (.char c :: acc) rest
      | none => none
  | acc, c :: rest => if c.toNat < 32 then none else stringPieces (.char c :: acc) rest

/-- First halves of a pair of units that stands for one character. -/
def isLeadingUnit (n : Nat) : Bool := 0xD800 ≤ n && n < 0xDC00

/-- Second halves of such a pair. -/
def isTrailingUnit (n : Nat) : Bool := 0xDC00 ≤ n && n < 0xE000

/-- The characters that pieces stand for. A half of a pair without its partner is no character and
reads as `none`. -/
def pieceChars : List Piece → List (Option Char)
  | [] => []
  | .char c :: rest => some c :: pieceChars rest
  | .unit n :: .unit m :: rest =>
      if isLeadingUnit n && isTrailingUnit m then
        some (Char.ofNat (0x10000 + (n - 0xD800) * 0x400 + (m - 0xDC00))) :: pieceChars rest
      else if isLeadingUnit n || isTrailingUnit n then none :: pieceChars (.unit m :: rest)
      else some (Char.ofNat n) :: pieceChars (.unit m :: rest)
  | .unit n :: rest =>
      (if isLeadingUnit n || isTrailingUnit n then none else some (Char.ofNat n)) :: pieceChars rest

/-- A string in which a lone half of a pair reads as the replacement character. -/
def readText (cs : List Char) : Option (String × List Char) := do
  let (pieces, rest) ← stringPieces [] cs
  return (String.ofList ((pieceChars pieces.reverse).map (·.getD '\uFFFD')), rest)

/-- A string in which a lone half of a pair is refused. -/
def readStrictText (cs : List Char) : Option (String × List Char) := do
  let (pieces, rest) ← stringPieces [] cs
  return (String.ofList (← (pieceChars pieces.reverse).mapM id), rest)

/-! ## Numbers -/

/-- The leading digits of a text and the rest. -/
def spanDigits (cs : List Char) : List Char × List Char :=
  cs.span Char.isDigit

/-- The value of decimal digits. -/
def digitsValue (digits : List Char) : Nat :=
  digits.foldl (fun n c => n * 10 + (c.toNat - '0'.toNat)) 0

/-- The digits of a fraction after its point, if there is a fraction. -/
def fractionPart (cs : List Char) : Option (List Char × List Char) :=
  match cs with
  | '.' :: rest =>
      let (digits, rest') := spanDigits rest
      if digits.isEmpty then none else some ('.' :: digits, rest')
  | _ => some ([], cs)

/-- The sign and digits of an exponent, if there is one. -/
def exponentPart (cs : List Char) : Option (List Char × List Char) :=
  match cs with
  | e :: rest =>
      if e = 'e' ∨ e = 'E' then
        let (sign, rest') :=
          match rest with
          | s :: r => if s = '+' ∨ s = '-' then ([s], r) else ([], rest)
          | [] => ([], [])
        let (digits, rest'') := spanDigits rest'
        if digits.isEmpty then none else some (e :: sign ++ digits, rest'')
      else some ([], cs)
  | [] => some ([], [])

/-- A number without its sign. -/
def readNumber (negative : Bool) (cs : List Char) : Option (Json × List Char) := do
  let (digits, rest) := spanDigits cs
  if digits.isEmpty || (digits.length > 1 && digits.head? == some '0') then none
  let (fraction, rest) ← fractionPart rest
  let (exponent, rest) ← exponentPart rest
  if fraction.isEmpty && exponent.isEmpty && !(negative && digits == ['0']) then
    let value : Int := digitsValue digits
    return (.int (if negative then -value else value), rest)
  let sign := if negative then ['-'] else []
  return (.decimal (String.ofList (sign ++ digits ++ fraction ++ exponent)), rest)

/-! ## Values -/

/-- The rest of the text after a given word. -/
def dropWord? : (word : List Char) → List Char → Option (List Char)
  | [], cs => some cs
  | w :: ws, c :: cs => if w = c then dropWord? ws cs else none
  | _ :: _, [] => none

mutual

/-- A value at the start of the text, and the rest. The first argument bounds the nesting; `strict`
tells whether an object is the outermost one. -/
def readValue : Nat → (strict : Bool) → List Char → Option (Json × List Char)
  | 0, _, _ => none
  | fuel + 1, strict, cs =>
      match skipBlanks cs with
      | 'n' :: rest => (dropWord? "ull".toList rest).map (Json.null, ·)
      | 't' :: rest => (dropWord? "rue".toList rest).map (Json.bool true, ·)
      | 'f' :: rest => (dropWord? "alse".toList rest).map (Json.bool false, ·)
      | '"' :: rest => (readText rest).map fun (s, rest') => (Json.string s, rest')
      | '[' :: rest =>
          match skipBlanks rest with
          | ']' :: rest' => some (Json.array [], rest')
          | _ => readItems fuel [] rest
      | '\x7b' :: rest =>
          match skipBlanks rest with
          | '\x7d' :: rest' => some (Json.object [], rest')
          | _ => readFields fuel strict [] rest
      | '-' :: rest => readNumber true rest
      | rest => readNumber false rest

/-- The items of a sequence up to its closing bracket; `acc` holds those read, last first. -/
def readItems : Nat → List Json → List Char → Option (Json × List Char)
  | 0, _, _ => none
  | fuel + 1, acc, cs =>
      match readValue fuel false cs with
      | none => none
      | some (item, rest) =>
          match skipBlanks rest with
          | ',' :: rest' => readItems fuel (item :: acc) rest'
          | ']' :: rest' => some (Json.array (item :: acc).reverse, rest')
          | _ => none

/-- The fields of an object up to its closing brace; `acc` holds those read, last first. -/
def readFields : Nat → (strict : Bool) → List (String × Json) → List Char →
    Option (Json × List Char)
  | 0, _, _, _ => none
  | fuel + 1, strict, acc, cs =>
      match skipBlanks cs with
      | '"' :: rest =>
          match if strict then readStrictText rest else readText rest with
          | none => none
          | some (key, rest') =>
              match skipBlanks rest' with
              | ':' :: rest'' =>
                  match readValue fuel false rest'' with
                  | none => none
                  | some (value, rest''') =>
                      match skipBlanks rest''' with
                      | ',' :: more => readFields fuel strict ((key, value) :: acc) more
                      | '\x7d' :: more => some (Json.object ((key, value) :: acc).reverse, more)
                      | _ => none
              | _ => none
      | _ => none

end

/-- Reads a whole document; `none` when it is malformed. At least every second step of the reader
passes a character, so twice the length of the text bounds the number of steps. -/
def parse? (text : String) : Option Json :=
  match readValue (2 * text.length + 2) true text.toList with
  | some (json, rest) => if (skipBlanks rest).isEmpty then some json else none
  | none => none

end Json

end MacroExpansion
