/-! # YAML values

A document is a node: a scalar, a sequence, a mapping, or an alias that stands for a node with an
anchor. Scalars keep their text and how they were written, for only a plain scalar can stand for a
number or a truth value. Tags matter where the name of an alternative is read. -/

namespace MacroExpansion

namespace Yaml

/-- How a scalar is written. -/
inductive ScalarStyle where
  /-- Without marks. -/
  | plain
  /-- Between quotation marks, single or double. -/
  | quoted
  /-- As a block that keeps its line breaks. -/
  | literal
  /-- As a block whose line breaks are folded. -/
  | folded
  deriving DecidableEq, Repr, Inhabited

/-- What may stand before a node. -/
structure Properties where
  /-- The number that aliases refer to. -/
  anchor : Option Nat := none
  /-- The octets of the full tag. -/
  tag : Option (List UInt8) := none
  deriving DecidableEq, Repr, Inhabited

/-- The text of the tag; none if it is not in UTF-8. -/
def Properties.tagText? (properties : Properties) : Option String :=
  properties.tag.bind fun octets => String.fromUTF8? (ByteArray.mk octets.toArray)

end Yaml

/-- A YAML node. -/
inductive Yaml where
  /-- The node with an anchor, by its number. -/
  | alias (anchor : Nat)
  /-- A text. -/
  | scalar (properties : Yaml.Properties) (style : Yaml.ScalarStyle) (text : String)
  /-- A sequence. -/
  | sequence (properties : Yaml.Properties) (items : List Yaml)
  /-- A mapping, in order. -/
  | mapping (properties : Yaml.Properties) (entries : List (Yaml × Yaml))
  deriving Inhabited

namespace Yaml

/-- What stands where nothing is written. -/
def nothing : Yaml := .scalar {} .plain ""

/-! ## Aliases -/

mutual

/-- The node with an anchor. A node counts before those within it; of several nodes with one number
the last is meant. -/
def anchored? (anchor : Nat) : Yaml → Option Yaml
  | .alias _ => none
  | .scalar properties style text =>
      if properties.anchor = some anchor then some (.scalar properties style text) else none
  | .sequence properties items =>
      (anchoredInItems? anchor items).or
        (if properties.anchor = some anchor then some (.sequence properties items) else none)
  | .mapping properties entries =>
      (anchoredInEntries? anchor entries).or
        (if properties.anchor = some anchor then some (.mapping properties entries) else none)

/-- The node with an anchor among or within items. -/
def anchoredInItems? (anchor : Nat) : List Yaml → Option Yaml
  | [] => none
  | item :: rest => (anchoredInItems? anchor rest).or (anchored? anchor item)

/-- The node with an anchor among or within the keys and values of entries. -/
def anchoredInEntries? (anchor : Nat) : List (Yaml × Yaml) → Option Yaml
  | [] => none
  | (key, value) :: rest =>
      (anchoredInEntries? anchor rest).or ((anchored? anchor value).or (anchored? anchor key))

end

/-- A node of a document, or the one that it is an alias of. -/
def resolve (document : Yaml) : Yaml → Yaml
  | .alias anchor => (document.anchored? anchor).getD nothing
  | node => node

/-! ## Texts and entries -/

/-- The text of a scalar, however it is written. -/
def asText? : Yaml → Option String
  | .scalar _ _ text => some text
  | _ => none

/-- The text of a scalar that may stand for a value of a kind: a plain one, or a literal block that
is tagged with the kind. -/
def asTextOf? (kind : String) : Yaml → Option String
  | .scalar _ .plain text => some text
  | .scalar properties .literal text => if properties.tagText? = some kind then some text else none
  | _ => none

/-- The entries of a mapping; where nothing is written there are none. -/
def asMapping? : Yaml → Option (List (Yaml × Yaml))
  | .mapping _ entries => some entries
  | .scalar _ .plain "" => some []
  | _ => none

/-- The name of an alternative that carries nothing: a tag of one exclamation mark before a name,
with null or nothing behind it, or else the text of a scalar. -/
def asName? : Yaml → Option String
  | .scalar properties style text =>
      match properties.tagText?.map String.toList with
      | some ('!' :: name) =>
          if style = .plain ∧ text ∈ ["", "~", "null", "Null", "NULL"] then some (String.ofList name)
          else none
      | _ => some text
  | _ => none

/-! ## Numbers and truth values -/

/-- The truth value of a scalar. -/
def asBool? (yaml : Yaml) : Option Bool :=
  match yaml.asTextOf? "tag:yaml.org,2002:bool" with
  | some "true" | some "True" | some "TRUE" => some true
  | some "false" | some "False" | some "FALSE" => some false
  | _ => none

/-- The value of a digit in a base up to sixteen. -/
def digitValue? (base : Nat) (c : Char) : Option Nat :=
  let value :=
    if '0' ≤ c ∧ c ≤ '9' then c.toNat - '0'.toNat
    else if 'a' ≤ c ∧ c ≤ 'f' then c.toNat - 'a'.toNat + 10
    else if 'A' ≤ c ∧ c ≤ 'F' then c.toNat - 'A'.toNat + 10
    else base
  if value < base then some value else none

/-- The number that digits in a base stand for; there has to be one digit at least. -/
def digitsValue? (base : Nat) (digits : List Char) : Option Nat :=
  if digits.isEmpty then none
  else digits.foldlM (fun n c => (digitValue? base c).map (n * base + ·)) 0

/-- The unsigned number that a text stands for. A plus sign may come first. Hexadecimal, octal and
binary digits follow `0x`, `0o` and `0b`; decimal digits have no leading zero. -/
def unsignedValue? (text : List Char) : Option Nat :=
  let digits :=
    match text with
    | '+' :: rest => rest
    | _ => text
  match digits with
  | '0' :: 'x' :: rest => digitsValue? 16 rest
  | '0' :: 'o' :: rest => digitsValue? 8 rest
  | '0' :: 'b' :: rest => digitsValue? 2 rest
  | '0' :: _ :: _ => none
  | _ => digitsValue? 10 digits

/-- The unsigned 64-bit integer of a scalar. -/
def asSize? (yaml : Yaml) : Option Nat := do
  let n ← unsignedValue? (← yaml.asTextOf? "tag:yaml.org,2002:int").toList
  if n < 18446744073709551616 then some n else none

/-- A quoted scalar is no truth value. -/
theorem asBool?_quoted (properties : Properties) (text : String) :
    (scalar properties .quoted text).asBool? = none := rfl

/-- A quoted scalar is no number. -/
theorem asSize?_quoted (properties : Properties) (text : String) :
    (scalar properties .quoted text).asSize? = none := rfl

/-- A node that is no alias stands for itself. -/
theorem resolve_of_not_alias (document : Yaml) {node : Yaml} (h : ∀ anchor, node ≠ .alias anchor) :
    document.resolve node = node := by
  cases node <;> simp_all [resolve]

end Yaml

end MacroExpansion
