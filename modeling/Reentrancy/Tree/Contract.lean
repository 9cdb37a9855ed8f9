import Reentrancy.Table
import Reentrancy.Tree.Reading

/-! Contracts and their members, read from the tree of one source file. -/
namespace Reentrancy

/-- The type of a declaration: what the compiler resolved, or else as written. -/
def declaredType (node : Json) : String :=
  if node.typeText = "" then typeNameText ((node.field? "typeName").getD .null)
  else node.typeText

mutual

def declarations : Json → List (String × String)
  | .object fields =>
    let node := Json.object fields
    (if node.tag == "VariableDeclaration" && node.name != "" then [(node.name, declaredType node)]
      else []) ++ fieldDeclarations fields
  | .list items => itemDeclarations items
  | _ => []

def fieldDeclarations : List (String × Json) → List (String × String)
  | [] => []
  | (_, value) :: rest => declarations value ++ fieldDeclarations rest

def itemDeclarations : List Json → List (String × String)
  | [] => []
  | item :: rest => declarations item ++ itemDeclarations rest

end

structure StateVariable where
  name : String
  type : String
  location : Location
deriving DecidableEq, Repr, Inhabited

structure Event where
  name : String
  location : Location
deriving DecidableEq, Repr, Inhabited

/-- A function without a body is only declared. `symbols` are the types of its parameters,
results and local variables. -/
structure FunctionDefinition where
  name : String
  visibility : String
  location : Location
  parameters : List String
  modifiers : List String
  body : Option (List Statement)
  symbols : Table String
deriving Inhabited

inductive Member where
  | state (declared : StateVariable)
  | function (defined : FunctionDefinition)
  | modifier (name : String)
  | event (declared : Event)
deriving Inhabited

structure Contract where
  name : String
  members : List Member
deriving Inhabited

/-- What one source file declares; `pragma` is empty if the file has none. -/
structure SourceUnit where
  pragma : String
  contracts : List Contract
deriving Inhabited

namespace FunctionDefinition

/-- Constructors and fallback functions go by their kind. -/
def ofJson (node : Json) : FunctionDefinition where
  name := if node.name = "" then node.textField "kind" else node.name
  visibility := node.textField "visibility"
  location := node.location
  parameters := (((node.field? "parameters").getD .null).children "parameters").map Json.name
  modifiers := ((node.children "modifiers").map fun modifier =>
    ((modifier.field? "modifierName").getD .null).name).filter (· != "")
  body := (node.child? "body").map bodyOfJson
  symbols := Table.ofList (declarations node)

def isEntry (function : FunctionDefinition) : Bool :=
  (function.visibility == "public" || function.visibility == "external") && function.body.isSome

end FunctionDefinition

def Member.ofJson (node : Json) : Option Member :=
  match node.tag with
  | "VariableDeclaration" => some (.state ⟨node.name, declaredType node, node.location⟩)
  | "FunctionDefinition" => some (.function (FunctionDefinition.ofJson node))
  | "ModifierDefinition" => some (.modifier node.name)
  | "EventDefinition" => some (.event ⟨node.name, node.location⟩)
  | _ => none

def Contract.ofJson (node : Json) : Contract where
  name := node.name
  members := (node.children "nodes").filterMap Member.ofJson

/-- The words of a pragma: the first one, a blank, and the rest without blanks. -/
def pragmaOfWords : List String → String
  | [] => ""
  | [word] => word
  | word :: rest => word ++ " " ++ String.join rest

def pragmaOfJson (unit : Json) : String :=
  match (unit.children "nodes").find? fun node => node.tag == "PragmaDirective" with
  | some pragma => pragmaOfWords (pragma.textElements "literals")
  | none => ""

def SourceUnit.ofJson (unit : Json) : SourceUnit where
  pragma := pragmaOfJson unit
  contracts := ((unit.children "nodes").filter fun node =>
    node.tag == "ContractDefinition").map Contract.ofJson

end Reentrancy
