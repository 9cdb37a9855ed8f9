import Reentrancy.Table
import Reentrancy.Yaml.Token.Lexer

/-! YAML documents of nested mappings with scalars, in lines by indentation or in braces. An
anchor names a node and a reference stands for the node with its name. -/
namespace Reentrancy.Yaml

inductive Node where
  | scalar (anchor : Option Nat) (tag : Option Tag) (scalar : Scalar)
  | mapping (anchor : Option Nat) (entries : List (Node × Node))
  | reference (anchor : Nat)

mutual

def Node.anchored : Node → List (Nat × Node)
  | .scalar anchor tag text => anchor.toList.map fun number => (number, .scalar anchor tag text)
  | .mapping anchor entries =>
    (anchor.toList.map fun number => (number, .mapping anchor entries)) ++ entriesAnchored entries
  | .reference _ => []

def entriesAnchored : List (Node × Node) → List (Nat × Node)
  | [] => []
  | (key, value) :: rest => key.anchored ++ value.anchored ++ entriesAnchored rest

end

/-- The document of a text, with its anchored nodes, the last one first. -/
structure Document where
  root : Node
  anchored : List (Nat × Node)

namespace Document

def ofRoot (root : Node) : Document := ⟨root, root.anchored.reverse⟩

/-- Follows a reference to the last node with its anchor. -/
def follow? (document : Document) : Node → Option Node
  | .reference anchor => document.anchored.lookup anchor
  | node => some node

end Document

/-! ## Nodes from tokens -/

structure Reading where
  tokens : List Token
  handles : Handles := []
  anchors : Table Nat := .empty

abbrev Read := StateT Reading Option

namespace Read

def peek : Read (Option Token) := return (← get).tokens.head?

def skip : Read Unit := modify fun reading => { reading with tokens := reading.tokens.tail }

def accept (token : Token) : Read Bool := do
  if (← peek) == some token then
    skip
    return true
  else return false

def isNext (tokens : List Token) : Read Bool := return (← peek).any tokens.contains

end Read

/-- The number of an anchor is how many names there are when it is set, so that a name that
is set again shares its number with the next new name. -/
def setAnchor (name : List Char) : Read Nat := do
  let reading ← get
  let number := reading.anchors.keys.length
  set { reading with anchors := reading.anchors.insert (String.ofList name) number }
  return number

structure Properties where
  anchor : Option Nat := none
  tag : Option Tag := none

def readAnchor (properties : Properties) : Read Properties := do
  match properties.anchor, ← Read.peek with
  | none, some (.anchor name) =>
    Read.skip
    return { properties with anchor := some (← setAnchor name) }
  | _, _ => return properties

def readTag (properties : Properties) : Read Properties := do
  match properties.tag, ← Read.peek with
  | none, some (.tag text) =>
    Read.skip
    return { properties with tag := some (← text.resolve? (← get).handles) }
  | _, _ => return properties

/-- An anchor and a tag, at most one of each, in either order. -/
def readProperties : Read Properties := do
  readAnchor (← readTag (← readAnchor {}))

/-- A scalar with its properties. Before a written scalar the lone exclamation mark says
nothing. -/
def Properties.scalar (properties : Properties) (scalar : Scalar) : Node :=
  .scalar properties.anchor (properties.tag.filter (!·.isText "!")) scalar

def absent : Node := .scalar none none .absent

mutual

/-- A node; a mapping in lines only where `block` allows it. -/
def readNode (block : Bool) : (fuel : Nat) → Read Node
  | 0 => failure
  | fuel + 1 => do
    if let some (.reference name) ← Read.peek then
      Read.skip
      return .reference (← (← get).anchors.get? (String.ofList name))
    let properties ← readProperties
    match ← Read.peek with
    | some (.scalar scalar) =>
      Read.skip
      return properties.scalar scalar
    | some .openBrace =>
      Read.skip
      return .mapping properties.anchor (← readBraces true fuel)
    | some .mappingStart =>
      Read.skip
      if !block then failure
      return .mapping properties.anchor (← readLines fuel)
    | _ =>
      if properties.anchor.isNone && properties.tag.isNone then failure
      return .scalar properties.anchor properties.tag .absent

/-- The entries of a mapping in braces, up to the closing brace. A comma comes before each
entry but the first and may come before the brace. An entry without a key sign is a key
without a value. -/
def readBraces (first : Bool) : (fuel : Nat) → Read (List (Node × Node))
  | 0 => failure
  | fuel + 1 => do
    if ← Read.accept .closeBrace then return []
    if !first then
      unless ← Read.accept .comma do failure
      if ← Read.accept .closeBrace then return []
    if ← Read.accept .key then
      let key ← if ← Read.isNext [.value, .comma, .closeBrace] then pure absent
        else readNode false fuel
      let value ← if ← Read.accept .value then
          if ← Read.isNext [.comma, .closeBrace] then pure absent else readNode false fuel
        else pure absent
      return (key, value) :: (← readBraces false fuel)
    else
      let key ← readNode false fuel
      return (key, absent) :: (← readBraces false fuel)

def readLines : (fuel : Nat) → Read (List (Node × Node))
  | 0 => failure
  | fuel + 1 => do
    if ← Read.accept .mappingEnd then return []
    unless ← Read.accept .key do failure
    let key ← if ← Read.isNext [.key, .value, .mappingEnd] then pure absent
      else readNode true fuel
    let value ← if ← Read.accept .value then
        if ← Read.isNext [.key, .value, .mappingEnd] then pure absent else readNode true fuel
      else pure absent
    return (key, value) :: (← readLines fuel)

end

/-! ## Documents from tokens -/

/-- The directives before a document. The version is 1.1 or 1.2, and neither it nor what a
handle stands for may be given twice. -/
def readDirectives (versioned : Bool) : (fuel : Nat) → Read Unit
  | 0 => failure
  | fuel + 1 => do
    match ← Read.peek with
    | some (.version major minor) =>
      if versioned || major != 1 || (minor != 1 && minor != 2) then failure
      Read.skip
      readDirectives true fuel
    | some (.handle handle start) =>
      let reading ← get
      if (reading.handles.lookup handle).isSome then failure
      Read.skip
      modify fun reading => { reading with handles := (handle, start) :: reading.handles }
      readDirectives versioned fuel
    | _ => return

/-- After a start marker a document may be empty. Without directives the marker may be left
out. -/
def readDocument : Read Node := do
  let fuel := 2 * (← get).tokens.length + 2
  let directed := (← Read.peek).any (·.isDirective)
  readDirectives false fuel
  let marked ← Read.accept .documentStart
  if directed && !marked then failure
  let isEmpty := (← Read.peek).all fun token =>
    token.isDirective || token == .documentStart || token == .documentEnd
  if marked && isEmpty then return absent else readNode true fuel

/-- Reads a text with one document. Nothing but end markers may follow it. -/
def Document.ofText? (text : String) : Option Document := do
  let (root, after) ← readDocument.run { tokens := ← tokens? text }
  if after.tokens.all (· == .documentEnd) then some (.ofRoot root) else none

end Reentrancy.Yaml
