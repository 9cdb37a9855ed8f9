import Reentrancy.Access
import Reentrancy.Call

/-! Instructions over versioned variables. Every definition of a name has a version of its
own; version 0 is the value on entry. Values are operands without effects: calls and
assignments inside an expression become instructions of their own. -/
namespace Reentrancy

structure Variable where
  name : String
  version : Nat
deriving DecidableEq, Repr, Inhabited

def Variable.text (versioned : Variable) : String :=
  versioned.name ++ "_" ++ toString versioned.version

inductive Value where
  | var (read : Variable)
  | literal (text : String)
  | binary (operator : String) (left right : Value)
  | unary (operator : String) (operand : Value)
  /-- A type conversion or a struct construction. -/
  | apply (name : String) (arguments : List Value)
  | tuple (items : List Value)
  | choice (condition yes no : Value)
  /-- An expression kept as its text only. -/
  | raw (text : String)
deriving Inhabited, Repr

namespace Value

def isCompound : Value → Bool
  | binary .. | choice .. => true
  | _ => false

def enclosed (value : Value) (text : String) : String :=
  if value.isCompound then "(" ++ text ++ ")" else text

mutual

def text : Value → String
  | var read => read.text
  | literal text => text
  | raw text => text
  | binary operator left right =>
    left.enclosed left.text ++ " " ++ operator ++ " " ++ right.enclosed right.text
  | unary operator operand => operator ++ operand.enclosed operand.text
  | apply name arguments => name ++ "(" ++ ", ".intercalate (texts arguments) ++ ")"
  | tuple items => "(" ++ ", ".intercalate (texts items) ++ ")"
  | choice condition yes no =>
    condition.enclosed condition.text ++ " ? " ++ yes.enclosed yes.text ++ " : " ++
      no.enclosed no.text

def texts : List Value → List String
  | [] => []
  | first :: rest => first.text :: texts rest

end

def operandText (value : Value) : String := value.enclosed value.text

mutual

def reads : Value → List Variable
  | var read => [read]
  | literal _ => []
  | raw _ => []
  | binary _ left right => left.reads ++ right.reads
  | unary _ operand => operand.reads
  | apply _ arguments => listReads arguments
  | tuple items => listReads items
  | choice condition yes no => condition.reads ++ yes.reads ++ no.reads

def listReads : List Value → List Variable
  | [] => []
  | first :: rest => first.reads ++ listReads rest

end

mutual

/-- Puts values in the place of variables; what is put in is not looked at again. -/
def substitute (rule : Variable → Option Value) : Value → Value
  | var read => (rule read).getD (var read)
  | literal text => literal text
  | raw text => raw text
  | binary operator left right => binary operator (left.substitute rule) (right.substitute rule)
  | unary operator operand => unary operator (operand.substitute rule)
  | apply name arguments => apply name (substituteList rule arguments)
  | tuple items => tuple (substituteList rule items)
  | choice condition yes no =>
    choice (condition.substitute rule) (yes.substitute rule) (no.substitute rule)

def substituteList (rule : Variable → Option Value) : List Value → List Value
  | [] => []
  | first :: rest => first.substitute rule :: substituteList rule rest

end

end Value

/-- Stands for `target = value`, or `target = previous operator value`. Writing a location also
defines the shorter names on its path, its `implied` targets. -/
structure Assignment where
  target : Variable
  implied : List Variable := []
  previous : Option Variable := none
  operator : Option String := none
  value : Value
deriving Inhabited, Repr

structure CallOperation where
  result : Variable
  callee : String
  type : CallType
  receiver : Option Value := none
  options : List (String × Value) := []
  arguments : List Value := []
  location : Location := {}
deriving Inhabited, Repr

inductive Instruction where
  | assign (assignment : Assignment)
  | call (operation : CallOperation)
  | condition (value : Value)
  | ret (values : List Value)
  | emit (event : String) (arguments : List Value)
  /-- Joins the versions that reach a block, one for each block before it. -/
  | phi (target : Variable) (sources : List (String × Variable))
  | expression (value : Value)
  | raw (text : String)
deriving Inhabited, Repr

namespace Assignment

def text (assignment : Assignment) : String :=
  match assignment.previous, assignment.operator with
  | some previous, some operator =>
    assignment.target.text ++ " = " ++ previous.text ++ " " ++ operator ++ " " ++
      assignment.value.operandText
  | _, _ => assignment.target.text ++ " = " ++ assignment.value.text

/-- Only a variable can take the place of the previous value. -/
def substitutePrevious (rule : Variable → Option Value) (previous : Variable) : Variable :=
  match rule previous with
  | some (.var replacement) => replacement
  | _ => previous

def substitute (rule : Variable → Option Value) (assignment : Assignment) : Assignment :=
  { assignment with
    previous := assignment.previous.map (substitutePrevious rule)
    value := assignment.value.substitute rule }

end Assignment

namespace CallOperation

def text (operation : CallOperation) : String :=
  operation.result.text ++ " = call[" ++ operation.type.tag ++ "](" ++ operation.callee ++
    String.join (operation.options.map fun option => ", " ++ option.1 ++ "=" ++ option.2.text) ++
    String.join (operation.arguments.map fun argument => ", " ++ argument.text) ++ ")"

def reads (operation : CallOperation) : List Variable :=
  (operation.receiver.map Value.reads).getD [] ++
    operation.options.flatMap (fun option => option.2.reads) ++
    operation.arguments.flatMap Value.reads

def substitute (rule : Variable → Option Value) (operation : CallOperation) : CallOperation :=
  { operation with
    receiver := operation.receiver.map (Value.substitute rule)
    options := operation.options.map fun option => (option.1, option.2.substitute rule)
    arguments := operation.arguments.map (Value.substitute rule) }

def site (operation : CallOperation) : CallSite :=
  ⟨operation.callee, operation.type, operation.location⟩

end CallOperation

namespace Instruction

def text : Instruction → String
  | assign assignment => assignment.text
  | call operation => operation.text
  | condition value => "if (" ++ value.text ++ ")"
  | ret [] => "return"
  | ret values => "return " ++ ", ".intercalate (values.map Value.text)
  | emit event arguments =>
    "emit " ++ event ++ "(" ++ ", ".intercalate (arguments.map Value.text) ++ ")"
  | phi target sources =>
    target.text ++ " = phi(" ++ ", ".intercalate (sources.map fun source => source.2.text) ++ ")"
  | expression value => value.text
  | raw text => text

def defs : Instruction → List Variable
  | assign assignment => assignment.target :: assignment.implied
  | call operation => [operation.result]
  | phi target _ => [target]
  | _ => []

def uses : Instruction → List Variable
  | assign assignment => assignment.previous.toList ++ assignment.value.reads
  | call operation => operation.reads
  | condition value => value.reads
  | ret values => values.flatMap Value.reads
  | emit _ arguments => arguments.flatMap Value.reads
  | phi _ sources => sources.map (·.2)
  | expression value => value.reads
  | raw _ => []

/-- Replaces what is read; the sources of a phi stay. -/
def substitute (rule : Variable → Option Value) : Instruction → Instruction
  | assign assignment => assign (assignment.substitute rule)
  | call operation => call (operation.substitute rule)
  | condition value => condition (value.substitute rule)
  | ret values => ret (values.map (Value.substitute rule))
  | emit event arguments => emit event (arguments.map (Value.substitute rule))
  | phi target sources => phi target sources
  | expression value => expression (value.substitute rule)
  | raw text => raw text

/-- Ends its block unless it is the last instruction. -/
def isEffectful : Instruction → Bool
  | assign _ | call _ | ret _ | emit _ _ => true
  | condition _ | phi _ _ | expression _ | raw _ => false

def isPhi : Instruction → Bool
  | phi _ _ => true
  | _ => false

/-- Reads and writes, of each variable and of the root of its name. -/
def accesses (instruction : Instruction) : List Access :=
  (instruction.uses.flatMap fun used => [.read used.name, .read (baseName used.name)]) ++
    instruction.defs.flatMap fun defined => [.write defined.name, .write (baseName defined.name)]

def listAccesses (instructions : List Instruction) : Accesses :=
  Accesses.ofList (instructions.flatMap accesses)

end Instruction
end Reentrancy
