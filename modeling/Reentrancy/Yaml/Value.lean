import Reentrancy.Text.Decimal
import Reentrancy.Text.Hexadecimal
import Reentrancy.Yaml.Document

/-! What the nodes of a YAML document stand for: nothing, truth values, numbers, words, and
mappings with a fixed set of fields. -/
namespace Reentrancy.Yaml

def nullWords : List String := ["~", "null", "Null", "NULL"]

def Scalar.isNull (scalar : Scalar) : Bool :=
  scalar.style == .plain && (scalar.text.isEmpty || nullWords.contains scalar.text)

def scalarText? : Node → Option String
  | .scalar _ _ scalar => some scalar.text
  | _ => none

/-- The text of a scalar that may stand for more than its text: a plain one, or a literal one
whose tag says what it is. -/
def typedText? (kind : String) : Node → Option String
  | .scalar _ tag scalar =>
    let isTagged := tag.any (·.isText ("tag:yaml.org,2002:" ++ kind))
    if scalar.style == .plain || (scalar.style == .literal && isTagged) then some scalar.text
    else none
  | _ => none

def bool? (node : Node) : Option Bool :=
  match typedText? "bool" node with
  | some "true" | some "True" | some "TRUE" => some true
  | some "false" | some "False" | some "FALSE" => some false
  | _ => none

/-- A number without sign, or with a plus; in base ten without leading zeros. -/
def unsigned? (text : List Char) : Option Nat :=
  let digits := match text with
    | '+' :: rest => rest
    | rest => rest
  match digits with
  | '0' :: 'x' :: rest => Text.digitsIn? 16 rest
  | '0' :: 'o' :: rest => Text.digitsIn? 8 rest
  | '0' :: 'b' :: rest => Text.digitsIn? 2 rest
  | ['0'] => some 0
  | '0' :: _ => none
  | rest => Text.digits? rest

def natural? (limit : Nat) (node : Node) : Option Nat :=
  ((typedText? "int" node).bind fun text => unsigned? text.toList).filter (· < limit)

/-- The word that a local tag, one with an exclamation mark, puts before a node. -/
def Tag.word? (tag : Tag) : Option String :=
  match tag.octets with
  | [0x21] => tag.text?
  | 0x21 :: rest => (Tag.mk rest).text?
  | _ => none

/-- One of several words: the local tag of a node that stands for nothing, or else the text
of a scalar. -/
def word? : Node → Option String
  | .scalar _ tag scalar =>
    match tag.bind Tag.word? with
    | some word => if scalar.isNull then some word else none
    | none => some scalar.text
  | _ => none

namespace Document

/-- Whether a field is given. A plain scalar that is tagged as null has to be one. -/
def isGiven? : Node → Option Bool
  | .scalar _ (some tag) scalar =>
    if scalar.style == .plain && tag.isText "tag:yaml.org,2002:null" then
      if nullWords.contains scalar.text then some false else none
    else some true
  | .scalar _ none scalar => some !scalar.isNull
  | _ => some true

/-- Reads the value of a field that may be left out: `none` is a fault. -/
def optional? {α : Type} (document : Document) (read : Node → Option α) :
    Option Node → Option (Option α)
  | none => some none
  | some value => do
    let node ← document.follow? value
    if ← isGiven? node then (read node).map some else some none

/-- The entries of a node that stands for a mapping; an empty plain scalar has none. -/
def entries? : Node → Option (List (Node × Node))
  | .mapping _ entries => some entries
  | .scalar _ _ scalar => if scalar == .absent then some [] else none
  | .reference _ => none

def fields? (document : Document) (known : List String) (node : Node) :
    Option (List (String × Node)) := do
  let fields ← (← entries? node).mapM fun (key, value) => do
    return (← scalarText? (← document.follow? key), value)
  let keys := fields.map (·.1)
  if keys.all known.contains && keys.eraseDups.length == keys.length then some fields else none

end Document

end Reentrancy.Yaml
