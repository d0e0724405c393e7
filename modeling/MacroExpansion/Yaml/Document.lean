import MacroExpansion.Yaml.Token

/-! # YAML documents

The nodes of a document, read from its tokens. A text holds one document at most. -/

namespace MacroExpansion

namespace Yaml

/-- What is left of the tokens, and the names that are known there. -/
structure Reading where
  /-- The tokens. -/
  tokens : List Token
  /-- The anchors and their numbers. -/
  anchors : List (String × Nat) := []
  /-- The handles of tags and what they stand for. -/
  handles : List (String × List UInt8)

namespace Reading

/-- What remains after the first token. -/
def rest (reading : Reading) : Reading :=
  { reading with tokens := reading.tokens.drop 1 }

/-- Gives a number to the next node by the name of its anchor. A number is the count of the names
known before, so a name that is used again may share its new number with the next new name. -/
def name (reading : Reading) (anchor : String) : Nat × Reading :=
  let number := reading.anchors.length
  (number, { reading with
    anchors := (anchor, number) :: reading.anchors.filter (·.1 != anchor) })

/-- The full tag of a handle and a suffix; the handle has to be known. -/
def fullTag? (reading : Reading) (handle : String) (suffix : List UInt8) : Option (List UInt8) :=
  if handle.isEmpty then some suffix else (reading.handles.lookup handle).map (· ++ suffix)

/-- The anchor and the tag at the start of the tokens, in either order, each if it is there. -/
def properties? (reading : Reading) : Option (Properties × Reading) :=
  match reading.tokens with
  | .anchor anchor :: .tag handle suffix :: _ => do
      let (number, reading) := reading.name anchor
      return (⟨some number, some (← reading.fullTag? handle suffix)⟩, reading.rest.rest)
  | .tag handle suffix :: .anchor anchor :: _ => do
      let (number, reading) := reading.name anchor
      return (⟨some number, some (← reading.fullTag? handle suffix)⟩, reading.rest.rest)
  | .anchor anchor :: _ =>
      let (number, reading) := reading.name anchor
      some (⟨some number, none⟩, reading.rest)
  | .tag handle suffix :: _ => do
      return (⟨none, some (← reading.fullTag? handle suffix)⟩, reading.rest)
  | _ => some ({}, reading)

/-- Whether no node follows in a collection, because the next token is one of the given ones. -/
def atOneOf (reading : Reading) (tokens : List Token) : Bool :=
  reading.tokens.head?.any (tokens.contains ·)

mutual

/-- A node at the start of the tokens, and what remains. Block collections are read only if `block`
is set, the items of a sequence without a start of their own only if `dashes` is set. The first
argument bounds the nesting and the number of entries. -/
def node? : (fuel : Nat) → (block dashes : Bool) → Reading → Option (Yaml × Reading)
  | 0, _, _, _ => none
  | fuel + 1, block, dashes, start =>
      match start.tokens with
      | .alias name :: _ => do return (.alias (← start.anchors.lookup name), start.rest)
      | _ => do
          let (properties, reading) ← start.properties?
          match reading.tokens, block, dashes with
          | .scalar style text :: _, _, _ =>
              let tag := properties.tag.filter (· != octetsOf "!")
              return (.scalar { properties with tag } style text, reading.rest)
          | .dash :: _, _, true =>
              let (items, reading) ← dashedItems? fuel [] reading
              return (.sequence properties items, reading)
          | .flowSequence :: _, _, _ =>
              let (items, reading) ← flowItems? fuel [] reading.rest
              return (.sequence properties items, reading)
          | .flowMapping :: _, _, _ =>
              let (entries, reading) ← flowEntries? fuel [] reading.rest
              return (.mapping properties entries, reading)
          | .blockSequence :: _, true, _ =>
              let (items, reading) ← blockItems? fuel [] reading.rest
              return (.sequence properties items, reading)
          | .blockMapping :: _, true, _ =>
              let (entries, reading) ← blockEntries? fuel [] reading.rest
              return (.mapping properties entries, reading)
          | _, _, _ =>
              -- properties without a node of their own are those of an empty scalar
              if reading.tokens.length < start.tokens.length then
                return (.scalar properties .plain "", reading)
              else none

/-- The node before one of the given tokens; nothing if one of them comes at once. -/
def nodeBefore? : (fuel : Nat) → (block dashes : Bool) → (ends : List Token) → Reading →
    Option (Yaml × Reading)
  | 0, _, _, _, _ => none
  | fuel + 1, block, dashes, ends, reading =>
      if reading.atOneOf ends then some (nothing, reading) else node? fuel block dashes reading

/-- The node after a colon; nothing if there is no colon. -/
def valueBefore? : (fuel : Nat) → (block : Bool) → (ends : List Token) → Reading →
    Option (Yaml × Reading)
  | 0, _, _, _ => none
  | fuel + 1, block, ends, reading =>
      if reading.atOneOf [.value] then nodeBefore? fuel block block ends reading.rest
      else some (nothing, reading)

/-- The items of a block sequence up to its end; `acc` holds those read, last first. -/
def blockItems? : (fuel : Nat) → (acc : List Yaml) → Reading → Option (List Yaml × Reading)
  | 0, _, _ => none
  | fuel + 1, acc, reading =>
      match reading.tokens with
      | .dash :: _ => do
          let (item, reading) ← nodeBefore? fuel true false [.dash, .blockEnd] reading.rest
          blockItems? fuel (item :: acc) reading
      | .blockEnd :: _ => some (acc.reverse, reading.rest)
      | _ => none

/-- The items of a sequence that stands in a block mapping without indentation of its own. -/
def dashedItems? : (fuel : Nat) → (acc : List Yaml) → Reading → Option (List Yaml × Reading)
  | 0, _, _ => none
  | fuel + 1, acc, reading =>
      match reading.tokens with
      | .dash :: _ => do
          let (item, reading) ←
            nodeBefore? fuel true false [.dash, .key, .value, .blockEnd] reading.rest
          dashedItems? fuel (item :: acc) reading
      | _ => some (acc.reverse, reading)

/-- The entries of a block mapping up to its end; `acc` holds those read, last first. -/
def blockEntries? : (fuel : Nat) → (acc : List (Yaml × Yaml)) → Reading →
    Option (List (Yaml × Yaml) × Reading)
  | 0, _, _ => none
  | fuel + 1, acc, reading =>
      match reading.tokens with
      | .key :: _ => do
          let ends := [Token.key, .value, .blockEnd]
          let (key, reading) ← nodeBefore? fuel true true ends reading.rest
          let (value, reading) ← valueBefore? fuel true ends reading
          blockEntries? fuel ((key, value) :: acc) reading
      | .blockEnd :: _ => some (acc.reverse, reading.rest)
      | _ => none

/-- The items of a flow sequence up to its closing bracket; `acc` holds those read, last first. -/
def flowItems? : (fuel : Nat) → (acc : List Yaml) → Reading → Option (List Yaml × Reading)
  | 0, _, _ => none
  | fuel + 1, acc, reading =>
      if reading.atOneOf [.flowSequenceEnd] then some (acc.reverse, reading.rest)
      else if !acc.isEmpty && !reading.atOneOf [.comma] then none
      else
        let reading := if acc.isEmpty then reading else reading.rest
        match reading.tokens with
        | .flowSequenceEnd :: _ => some (acc.reverse, reading.rest)
        | .key :: _ => do
            let (entry, reading) ← flowPair? fuel reading.rest
            flowItems? fuel (entry :: acc) reading
        | _ => do
            let (item, reading) ← node? fuel false false reading
            flowItems? fuel (item :: acc) reading

/-- A mapping of one entry that stands in a flow sequence without braces, after what announces its
key. A key that is left out takes the next token with it. -/
def flowPair? : (fuel : Nat) → Reading → Option (Yaml × Reading)
  | 0, _ => none
  | fuel + 1, reading => do
      let (key, reading) ←
        if reading.atOneOf [.value, .comma, .flowSequenceEnd] then some (nothing, reading.rest)
        else node? fuel false false reading
      let (value, reading) ← valueBefore? fuel false [.comma, .flowSequenceEnd] reading
      return (.mapping {} [(key, value)], reading)

/-- The entries of a flow mapping up to its closing brace; `acc` holds those read, last first. -/
def flowEntries? : (fuel : Nat) → (acc : List (Yaml × Yaml)) → Reading →
    Option (List (Yaml × Yaml) × Reading)
  | 0, _, _ => none
  | fuel + 1, acc, reading =>
      if reading.atOneOf [.flowMappingEnd] then some (acc.reverse, reading.rest)
      else if !acc.isEmpty && !reading.atOneOf [.comma] then none
      else
        let reading := if acc.isEmpty then reading else reading.rest
        match reading.tokens with
        | .flowMappingEnd :: _ => some (acc.reverse, reading.rest)
        | .key :: _ => do
            let (key, reading) ←
              nodeBefore? fuel false false [.value, .comma, .flowMappingEnd] reading.rest
            let (value, reading) ← valueBefore? fuel false [.comma, .flowMappingEnd] reading
            flowEntries? fuel ((key, value) :: acc) reading
        | _ => do
            let (key, reading) ← node? fuel false false reading
            flowEntries? fuel ((key, nothing) :: acc) reading

end

end Reading

/-! ## Whole documents -/

/-- The handles that are known without directives. -/
def standardHandles : List (String × List UInt8) :=
  [("!", octetsOf "!"), ("!!", octetsOf "tag:yaml.org,2002:")]

/-- The handles that the directives at the start of the tokens define, and the tokens after the
marker that ends the directives. A version or a handle is given once; the version is 1.1 or 1.2. -/
def directives? : (versioned : Bool) → (handles : List (String × List UInt8)) → List Token →
    Option (List (String × List UInt8) × List Token)
  | versioned, handles, .directive (.version major minor) :: rest =>
      if !versioned && major == 1 && (minor == 1 || minor == 2) then directives? true handles rest
      else none
  | versioned, handles, .directive (.handle name stem) :: rest =>
      if (handles.lookup name).isSome then none
      else directives? versioned ((name, stem) :: handles) rest
  | _, handles, .documentStart :: rest => some (handles, rest)
  | _, _, _ => none

/-- Whether a document begins with directives or a marker. -/
def isMarked : List Token → Bool
  | .directive _ :: _ => true
  | .documentStart :: _ => true
  | _ => false

/-- Whether a document is over after its marker. -/
def isOver : List Token → Bool
  | [] => true
  | .documentEnd :: _ => true
  | tokens => isMarked tokens

/-- The document that tokens stand for: nothing if there are none. Only end markers may follow it.
At least every third step of the reader passes a token. -/
def ofTokens? (tokens : List Token) : Option Yaml := do
  if tokens.isEmpty then return nothing
  let (handles, content) ←
    if isMarked tokens then directives? false [] tokens else some ([], tokens)
  let reading : Reading := { tokens := content, handles := handles ++ standardHandles }
  let (document, reading) ←
    if isMarked tokens && isOver content then some (nothing, reading)
    else reading.node? (3 * content.length + 3) true false
  if reading.tokens.all (· == .documentEnd) then return document else none

/-- Reads a text that holds one document at most; `none` when it is malformed. -/
def parse? (text : String) : Option Yaml := do
  ofTokens? (← Token.ofText? text)

end Yaml

end MacroExpansion
