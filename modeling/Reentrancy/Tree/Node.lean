import Reentrancy.Json.Value
import Reentrancy.Location

/-! Compiler trees as JSON values. A node is an object tagged by `nodeType`; the schema
changes between compiler versions, so no accessor fails: an absent text is empty, an absent
list has no elements and an absent child is none. Only objects are nodes; other elements of
a child list are holes. -/
namespace Reentrancy.Json

/-! ## Fields -/

def textField (node : Json) (key : String) : String := ((node.field? key).bind text?).getD ""

def boolField (node : Json) (key : String) : Bool := ((node.field? key).bind bool?).getD false

def wordField? (node : Json) (key : String) : Option Int := (node.field? key).bind word?

def child? (node : Json) (key : String) : Option Json := (node.field? key).filter isObject

def elements (node : Json) (key : String) : List Json := ((node.field? key).bind list?).getD []

/-- Elements of a child list, with `none` at the holes. -/
def slots (node : Json) (key : String) : List (Option Json) :=
  (node.elements key).map fun item => if item.isObject then some item else none

def children (node : Json) (key : String) : List Json := (node.elements key).filter isObject

def textElements (node : Json) (key : String) : List String := (node.elements key).filterMap text?

/-! ## Nodes -/

def tag (node : Json) : String := node.textField "nodeType"

def name (node : Json) : String := node.textField "name"

def location (node : Json) : Location := Location.ofText (node.textField "src")

def typeText (node : Json) : String :=
  ((node.field? "typeDescriptions").map (textField · "typeString")).getD ""

def isBlock (node : Json) : Bool := node.tag == "Block" || node.tag == "UncheckedBlock"

/-- The statements of a block; any other node is a body of one statement. -/
def bodyNodes (node : Json) : List Json :=
  if node.isBlock then node.children "statements" else if node.isObject then [node] else []

def kinds : List String :=
  ["SourceUnit", "PragmaDirective", "ContractDefinition", "FunctionDefinition",
    "ModifierDefinition", "ModifierInvocation", "EventDefinition", "VariableDeclaration",
    "ParameterList", "Block", "UncheckedBlock", "ExpressionStatement",
    "VariableDeclarationStatement", "EmitStatement", "IfStatement", "ForStatement",
    "WhileStatement", "DoWhileStatement", "Return", "RevertStatement", "TryStatement",
    "TryCatchClause", "InlineAssembly", "Break", "Continue", "PlaceholderStatement",
    "Assignment", "BinaryOperation", "UnaryOperation", "Conditional", "FunctionCall",
    "FunctionCallOptions", "MemberAccess", "IndexAccess", "IndexRangeAccess", "Identifier",
    "Literal", "TupleExpression", "ElementaryTypeNameExpression", "NewExpression"]

def kind (node : Json) : String := if kinds.contains node.tag then node.tag else "Unknown"

/-! ## Recursion into nodes

A reader of nodes gets each child with the proof that it is smaller. -/

theorem sizeOf_field? {node inner : Json} {key : String} (found : node.field? key = some inner) :
    sizeOf inner < sizeOf node := by
  obtain ⟨entry, search, rfl⟩ := Option.map_eq_some_iff.mp found
  have member := List.mem_of_find?_eq_some search
  cases node with
  | object entries =>
    have smaller := List.sizeOf_lt_of_mem member
    obtain ⟨name, value⟩ := entry
    simp only [fields, object.sizeOf_spec, Prod.mk.sizeOf_spec] at *
    omega
  | _ => simp [fields] at member

theorem sizeOf_child? {node inner : Json} {key : String} (found : node.child? key = some inner) :
    sizeOf inner < sizeOf node :=
  sizeOf_field? (Option.filter_eq_some_iff.mp found).1

theorem sizeOf_element {node inner : Json} {key : String} (member : inner ∈ node.elements key) :
    sizeOf inner < sizeOf node := by
  unfold elements at member
  cases found : node.field? key with
  | none => simp [found] at member
  | some value =>
    cases value with
    | list items =>
      have inside : inner ∈ items := by simpa [found, list?] using member
      have outer := sizeOf_field? found
      have smaller := List.sizeOf_lt_of_mem inside
      simp only [list.sizeOf_spec] at outer
      omega
    | _ => simp [found, list?] at member

variable {α : Type}

def mapChild (node : Json) (key : String) (absent : α)
    (read : (inner : Json) → sizeOf inner < sizeOf node → α) : α :=
  match found : node.child? key with
  | some inner => read inner (sizeOf_child? found)
  | none => absent

def mapSlots (node : Json) (key : String) (hole : α)
    (read : (inner : Json) → sizeOf inner < sizeOf node → α) : List α :=
  (node.elements key).attach.map fun item =>
    if item.1.isObject then read item.1 (sizeOf_element item.2) else hole

def mapChildren (node : Json) (key : String)
    (read : (inner : Json) → sizeOf inner < sizeOf node → α) : List α :=
  (node.elements key).attach.filterMap fun item =>
    if item.1.isObject then some (read item.1 (sizeOf_element item.2)) else none

def mapBody (node : Json) (key : String)
    (read : (inner : Json) → sizeOf inner < sizeOf node → α) : List α :=
  node.mapChild key [] fun body smaller =>
    if body.isBlock then
      body.mapChildren "statements" fun inner inside => read inner (Nat.lt_trans inside smaller)
    else [read body smaller]

end Reentrancy.Json
