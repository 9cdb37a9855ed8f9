import Reentrancy.Tree.Expression

/-! Statements of the source language, their kinds and their one-line text. Bodies are
lists of statements: the braces of a body carry no meaning. -/
namespace Reentrancy

structure Declaration where
  name : String
  type : String
deriving DecidableEq, Repr, Inhabited

/-- A declaration without a written type shows its name alone. -/
def Declaration.text (declaration : Declaration) : String :=
  if declaration.type = "" then declaration.name
  else declaration.type ++ " " ++ declaration.name

/-- An event emitted or an error thrown: `callee(arguments)`, with its whole text. -/
structure Invocation where
  text : String
  callee : String
  arguments : List Expression
  location : Location
deriving Inhabited

inductive StatementKind where
  | assignment
  | functionCall
  | expression
  | emitStatement
  | ifStatement
  | ret
  | variableDeclaration
  | forLoop
  | whileLoop
  | block
  | unknown
deriving DecidableEq, Repr, Inhabited

namespace StatementKind

def text : StatementKind → String
  | assignment => "Assignment"
  | functionCall => "FunctionCall"
  | expression => "Expression"
  | emitStatement => "EmitStatement"
  | ifStatement => "IfStatement"
  | ret => "Return"
  | variableDeclaration => "VariableDeclaration"
  | forLoop => "ForLoop"
  | whileLoop => "WhileLoop"
  | block => "Block"
  | unknown => "Unknown"

def isStructured : StatementKind → Bool
  | ifStatement | forLoop | whileLoop => true
  | _ => false

def alwaysSplits (kind : StatementKind) : Bool :=
  kind.isStructured || kind == ret || kind == emitStatement

/-- The last of its block unless no statement follows. -/
def isEffectful : StatementKind → Bool
  | functionCall | assignment | variableDeclaration => true
  | _ => false

end StatementKind

inductive Statement where
  | expression (value : Expression)
  /-- A hole among the targets drops that component of the value. -/
  | declare (targets : List (Option Declaration)) (value : Expression)
  | emit (event : Option Invocation)
  | revert (error : Option Invocation)
  | ret (value : Expression)
  | branch (condition : Expression) (yes no : List Statement)
  /-- Each of `start` and `step` holds at most one statement; `counters` are the names that the body
  steps by one. -/
  | forLoop (start : List Statement) (condition : Expression) (step body : List Statement)
      (counters : List String)
  | whileLoop (condition : Expression) (body : List Statement) (counters : List String)
  | doWhile (condition : Expression) (body : List Statement) (counters : List String)
  | block (body : List Statement)
  /-- Each clause names its parameters, an unnamed one by the empty text. -/
  | tryCall (call : Expression) (clauses : List (List String × List Statement))
  /-- A statement that is only carried along, such as `break` or inline assembly. -/
  | other (text : String)
deriving Inhabited

namespace Statement

def kind : Statement → StatementKind
  | expression (.assign ..) => .assignment
  | expression (.call ..) => .functionCall
  | expression _ => .expression
  | declare .. => .variableDeclaration
  | emit _ => .emitStatement
  | revert _ => .functionCall
  | ret _ => .ret
  | branch .. => .ifStatement
  | forLoop .. => .forLoop
  | whileLoop .. => .whileLoop
  | block _ => .block
  | doWhile .. | tryCall .. | other _ => .unknown

/-- Both `revert(..)` and `revert Error(..)`. -/
def isRevert : Statement → Bool
  | revert _ => true
  | expression (.call _ (.identifier name _) _ _ _) => name == "revert"
  | _ => false

def targetsText : List (Option Declaration) → String
  | [target] => (target.map Declaration.text).getD ""
  | targets => "(" ++ ", ".intercalate (targets.map fun target =>
      (target.map Declaration.text).getD "") ++ ")"

def invocationText (invocation : Option Invocation) : String := (invocation.map (·.text)).getD ""

mutual

def text : Statement → String
  | expression value => value.text
  | declare targets .missing => targetsText targets
  | declare targets value => targetsText targets ++ " = " ++ value.text
  | emit event => "emit " ++ invocationText event
  | revert error => "revert " ++ invocationText error
  | ret .missing => "return"
  | ret value => "return " ++ value.text
  | branch condition _ _ => "if (" ++ condition.text ++ ")"
  | forLoop start condition step _ _ =>
    "for (" ++ "; ".intercalate (texts start) ++ "; " ++ condition.text ++ "; " ++
      "; ".intercalate (texts step) ++ ")"
  | whileLoop condition _ _ => "while (" ++ condition.text ++ ")"
  | doWhile condition _ _ => "do while (" ++ condition.text ++ ")"
  | block body => "\x7b " ++ "; ".intercalate (texts body) ++ " \x7d"
  | tryCall call _ => "try " ++ call.text
  | other text => text

def texts : List Statement → List String
  | [] => []
  | first :: rest => first.text :: texts rest

end

end Statement
end Reentrancy
