import Reentrancy.Tree.Node
import Reentrancy.Tree.Statement

/-! Expressions and statements read from compiler trees. Reading never fails: a child that
is not there reads as `Expression.missing`, an empty body or no statement. -/
namespace Reentrancy

def Literal.ofJson (node : Json) : Literal where
  value := (node.field? "value").bind fun value =>
    if value.isNull then none else some (value.text?.getD "")
  hex := node.textField "hexValue"
  quoted := node.textField "kind" == "string" || node.textField "kind" == "unicodeString"
  unit := node.textField "subdenomination"

def CallForm.ofText : String → CallForm
  | "typeConversion" => .conversion
  | "structConstructorCall" => .construction
  | "" => .unmarked
  | _ => .plain

mutual

def typeNameText (node : Json) : String :=
  match node.tag with
  | "ElementaryTypeName" => node.name
  | "UserDefinedTypeName" =>
    let path := ((node.field? "pathNode").map Json.name).getD ""
    if path = "" then node.name else path
  | "ArrayTypeName" =>
    (node.mapChild "baseType" "" fun inner _ => typeNameText inner) ++ "[" ++
      (node.mapChild "length" "" fun inner _ => (Expression.ofJson inner).text) ++ "]"
  | "Mapping" =>
    "mapping(" ++ (node.mapChild "keyType" "" fun inner _ => typeNameText inner) ++ " => " ++
      (node.mapChild "valueType" "" fun inner _ => typeNameText inner) ++ ")"
  | _ => node.typeText
termination_by sizeOf node

def Expression.ofJson (node : Json) : Expression :=
  let child := fun key =>
    node.mapChild key Expression.missing fun inner _ => Expression.ofJson inner
  let children := fun key => node.mapChildren key fun inner _ => Expression.ofJson inner
  match node.tag with
  | "Identifier" =>
    .identifier node.name ((node.wordField? "referencedDeclaration").any (· < 0))
  | "Literal" => .literal (Literal.ofJson node)
  | "MemberAccess" =>
    .member (child "expression") (((node.child? "expression").map Json.typeText).getD "")
      (node.textField "memberName")
  | "IndexAccess" =>
    .index (child "baseExpression") (child "indexExpression") (child "startExpression")
      (child "endExpression")
  | "IndexRangeAccess" =>
    .slice (child "baseExpression") (child "indexExpression") (child "startExpression")
      (child "endExpression")
  | "BinaryOperation" =>
    .binary (node.textField "operator") (child "leftExpression") (child "rightExpression")
  | "UnaryOperation" =>
    .unary (node.textField "operator") (node.boolField "prefix") (child "subExpression")
  | "Assignment" =>
    .assign (node.textField "operator") (child "leftHandSide") (child "rightHandSide")
  | "Conditional" =>
    .conditional (child "condition") (child "trueExpression") (child "falseExpression")
  | "TupleExpression" =>
    .tuple (node.boolField "isInlineArray")
      (node.mapSlots "components" .missing fun inner _ => Expression.ofJson inner)
  | "FunctionCall" =>
    .call (CallForm.ofText (node.textField "kind")) (child "expression") (children "arguments")
      (node.textElements "names") node.location
  | "FunctionCallOptions" =>
    .options (child "expression") ((node.elements "names").map Json.text?) (children "options")
  | "ElementaryTypeNameExpression" =>
    -- early compilers give the type as a plain text
    .typeName (node.mapChild "typeName" (node.textField "typeName") fun inner _ =>
      typeNameText inner)
  | "NewExpression" => .new (node.mapChild "typeName" "" fun inner _ => typeNameText inner)
  | tag => if node.isObject then .other tag else .missing
termination_by sizeOf node

end

namespace Expression

def ofChild (node : Json) (key : String) : Expression :=
  ((node.child? key).map ofJson).getD .missing

/-- Reads any node that has the fields of a call as a call. -/
def callOfJson (node : Json) : Expression :=
  .call (CallForm.ofText (node.textField "kind")) (ofChild node "expression")
    ((node.children "arguments").map ofJson) (node.textElements "names") node.location

def argumentsTextOfJson (node : Json) : String :=
  argumentsText (node.textElements "names") (((node.children "arguments").map ofJson).map text)

end Expression

def Declaration.ofJson (node : Json) : Declaration where
  name := node.name
  type := ((node.child? "typeName").map typeNameText).getD ""

def Invocation.ofJson (node : Json) : Invocation where
  text := (Expression.ofJson node).text
  callee := (Expression.ofChild node "expression").text
  arguments := (node.children "arguments").map Expression.ofJson
  location := node.location

/-! ## Loop counters -/

namespace Expression

def isOne : Expression → Bool
  | literal value => value.value == some "1"
  | _ => false

/-- The location that an expression steps by one: `x++`, `x--`, `x += 1`, `x -= 1`,
`x = x + 1` and `x = x - 1`. -/
def counter? : Expression → Option String
  | unary operator _ operand =>
    if (operator == "++" || operator == "--") && operand.isLocation then some operand.locationName
    else none
  | assign operator target value =>
    let steps := match operator, value with
      | "+=", amount => amount.isOne
      | "-=", amount => amount.isOne
      | "=", binary sign left right =>
        (sign == "+" || sign == "-") && left.isLocation &&
          left.locationName == target.locationName && right.isOne
      | _, _ => false
    if target.isLocation && steps then some target.locationName else none
  | _ => none

end Expression

def counterOfJson (node : Json) : List String :=
  if node.tag == "UnaryOperation" || node.tag == "Assignment" then
    (Expression.ofJson node).counter?.toList
  else []

mutual

/-- Counters of a node and of the nodes below it, fields in key order. -/
def counters : Json → List String
  | .object fields => counterOfJson (.object fields) ++ fieldCounters fields
  | _ => []

def fieldCounters : List (String × Json) → List String
  | [] => []
  | (_, .list items) :: rest => itemCounters items ++ fieldCounters rest
  | (_, value) :: rest => counters value ++ fieldCounters rest

def itemCounters : List Json → List String
  | [] => []
  | item :: rest => counters item ++ itemCounters rest

end

/-! ## Statements -/

def Statement.ofJson (node : Json) : Statement :=
  let body := fun key => node.mapBody key fun inner _ => Statement.ofJson inner
  let single := fun key => node.mapChild key [] fun inner _ => [Statement.ofJson inner]
  let counted := ((node.child? "body").map counters).getD []
  match node.tag with
  | "ExpressionStatement" => .expression (Expression.ofChild node "expression")
  | "VariableDeclarationStatement" =>
    .declare ((node.slots "declarations").map (·.map Declaration.ofJson))
      (Expression.ofChild node "initialValue")
  | "EmitStatement" => .emit ((node.child? "eventCall").map Invocation.ofJson)
  | "RevertStatement" => .revert ((node.child? "errorCall").map Invocation.ofJson)
  | "Return" => .ret (Expression.ofChild node "expression")
  | "IfStatement" =>
    .branch (Expression.ofChild node "condition") (body "trueBody") (body "falseBody")
  | "ForStatement" =>
    .forLoop (single "initializationExpression") (Expression.ofChild node "condition")
      (single "loopExpression") (body "body") counted
  | "WhileStatement" => .whileLoop (Expression.ofChild node "condition") (body "body") counted
  | "DoWhileStatement" => .doWhile (Expression.ofChild node "condition") (body "body") counted
  | "Block" | "UncheckedBlock" =>
    .block (node.mapChildren "statements" fun inner _ => Statement.ofJson inner)
  | "TryStatement" =>
    .tryCall (Expression.ofChild node "externalCall")
      (node.mapChildren "clauses" fun clause smaller =>
        (((clause.child? "parameters").map fun list =>
            (list.children "parameters").map Json.name).getD [],
          clause.mapBody "block" fun inner inside =>
            have : sizeOf inner < sizeOf node := Nat.lt_trans inside smaller
            Statement.ofJson inner))
  | "Break" => .other "break"
  | "Continue" => .other "continue"
  | "PlaceholderStatement" => .other "_"
  | "InlineAssembly" => .other "assembly \x7b ... \x7d"
  | tag => .other tag
termination_by sizeOf node

def bodyOfJson (node : Json) : List Statement := node.bodyNodes.map Statement.ofJson

end Reentrancy
