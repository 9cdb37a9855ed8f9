import Reentrancy.Location

/-! Expressions of the source language. Trees come from compilers of many versions, so
every child position may be empty (`missing`) and node kinds that the analysis does not
model are kept by their tag (`other`). `text` writes an expression on one line in a
canonical form. -/
namespace Reentrancy

/-- A literal keeps its value when the compiler could decode it, and its bytes in
hexadecimal. -/
structure Literal where
  value : Option String
  hex : String := ""
  quoted : Bool := false
  unit : String := ""
deriving DecidableEq, Repr, Inhabited

def Literal.text (literal : Literal) : String :=
  let digits :=
    if literal.value.isNone && literal.hex != "" then "hex\"" ++ literal.hex ++ "\""
    else if literal.quoted then "\"" ++ literal.value.getD "" ++ "\""
    else literal.value.getD ""
  if literal.unit = "" then digits else digits ++ " " ++ literal.unit

inductive CallForm where
  | conversion
  | construction
  | plain
  | unmarked
deriving DecidableEq, Repr, Inhabited

inductive Expression where
  | missing
  /-- Names that the language itself declares are `predefined`. -/
  | identifier (name : String) (predefined : Bool)
  | literal (value : Literal)
  /-- The text `baseType` is the compiler's type of the base, empty if not given. -/
  | member (base : Expression) (baseType name : String)
  /-- One element, `base[key]`; a range is only there in malformed trees. -/
  | index (base key lower upper : Expression)
  /-- A slice, `base[lower:upper]`; a key is only there in malformed trees. -/
  | slice (base key lower upper : Expression)
  | binary (operator : String) (left right : Expression)
  | unary (operator : String) (leading : Bool) (operand : Expression)
  | assign (operator : String) (target value : Expression)
  | conditional (condition yes no : Expression)
  | tuple (isArray : Bool) (components : List Expression)
  | call (form : CallForm) (callee : Expression) (arguments : List Expression)
      (labels : List String) (location : Location)
  /-- Options of a call, `callee{label: value}`; a label that is no text is `none`. -/
  | options (callee : Expression) (labels : List (Option String)) (values : List Expression)
  | typeName (text : String)
  | new (type : String)
  | other (tag : String)
deriving Inhabited

namespace Expression

/-- Arguments with a label each are written in braces. -/
def argumentsText (labels texts : List String) : String :=
  if !labels.isEmpty && labels.length == texts.length then
    let pairs := (labels.zip texts).map fun pair => pair.1 ++ ": " ++ pair.2
    "\x7b" ++ ", ".intercalate pairs ++ "\x7d"
  else ", ".intercalate texts

mutual

def text : Expression → String
  | missing => ""
  | identifier name _ => name
  | literal value => value.text
  | member base _ name => base.text ++ "." ++ name
  | index base key _ _ => base.text ++ "[" ++ key.text ++ "]"
  | slice base _ lower upper => base.text ++ "[" ++ lower.text ++ ":" ++ upper.text ++ "]"
  | binary operator left right => left.text ++ " " ++ operator ++ " " ++ right.text
  | unary operator leading operand =>
    if operator = "delete" then "delete " ++ operand.text
    else if leading then operator ++ operand.text
    else operand.text ++ operator
  | assign operator target value => target.text ++ " " ++ operator ++ " " ++ value.text
  | conditional condition yes no => condition.text ++ " ? " ++ yes.text ++ " : " ++ no.text
  | tuple isArray components =>
    let inside := ", ".intercalate (texts components)
    if isArray then "[" ++ inside ++ "]" else "(" ++ inside ++ ")"
  | call _ callee arguments labels _ =>
    callee.text ++ "(" ++ argumentsText labels (texts arguments) ++ ")"
  | options callee labels values =>
    let pairs := ((labels.filterMap id).zip (texts values)).map fun pair => pair.1 ++ ": " ++ pair.2
    callee.text ++ "\x7b" ++ ", ".intercalate pairs ++ "\x7d"
  | typeName text => text
  | new type => "new " ++ type
  | other _ => ""

def texts : List Expression → List String
  | [] => []
  | first :: rest => first.text :: texts rest

end

def tag : Expression → String
  | missing => ""
  | identifier .. => "Identifier"
  | literal .. => "Literal"
  | member .. => "MemberAccess"
  | index .. => "IndexAccess"
  | slice .. => "IndexRangeAccess"
  | binary .. => "BinaryOperation"
  | unary .. => "UnaryOperation"
  | assign .. => "Assignment"
  | conditional .. => "Conditional"
  | tuple .. => "TupleExpression"
  | call .. => "FunctionCall"
  | options .. => "FunctionCallOptions"
  | typeName .. => "ElementaryTypeNameExpression"
  | new .. => "NewExpression"
  | other tag => tag

def isSuper : Expression → Bool
  | identifier name _ => name == "super"
  | _ => false

/-! ## Locations -/

/-- An identifier with any chain of members and keys after it denotes a location. -/
def isLocation : Expression → Bool
  | identifier .. => true
  | member base .. => base.isLocation
  | index base .. => base.isLocation
  | _ => false

/-- The names of a location from its root down: `[m, m[k], m[k].x]`. -/
def path : Expression → List String
  | identifier name _ => [name]
  | member base type name =>
    if base.isLocation then base.path ++ [(member base type name).text] else []
  | index base key lower upper =>
    if base.isLocation then base.path ++ [(index base key lower upper).text] else []
  | _ => []

def locationName (expression : Expression) : String :=
  expression.path.getLast?.getD expression.text

def peeled : Expression → Expression
  | options callee _ _ => callee.peeled
  | expression => expression

end Expression
end Reentrancy
