import Reentrancy.Ssa.Versions
import Reentrancy.Tree.Statement

/-! Lowering of statements to instructions. A read sees the current version of a name, a
write takes a new one. Calls and assignments inside an expression become instructions in
evaluation order, and the expression goes on with the variable that holds the result. -/
namespace Reentrancy

structure Emission where
  instructions : List Instruction := []
  sites : List CallSite := []
  defined : List String := []
deriving Inhabited

def Emission.append (first second : Emission) : Emission :=
  ⟨first.instructions ++ second.instructions, first.sites ++ second.sites,
    first.defined ++ second.defined⟩

structure Lowered (α : Type) where
  value : α
  emission : Emission
  versions : Versions

/-- A step of lowering: it goes from version tables to version tables and emits. -/
def Lower (α : Type) : Type := Versions → Lowered α

namespace Lower

variable {α β : Type}

def pure (value : α) : Lower α := fun versions => ⟨value, {}, versions⟩

def bind (first : Lower α) (next : α → Lower β) : Lower β := fun versions =>
  let one := first versions
  let two := next one.value one.versions
  ⟨two.value, one.emission.append two.emission, two.versions⟩

instance : Monad Lower where
  pure := pure
  bind := bind

def emit (instruction : Instruction) : Lower Unit := fun versions =>
  ⟨(), { instructions := [instruction] }, versions⟩

def use (name : String) : Lower Variable := fun versions => ⟨versions.read name, {}, versions⟩

def define (name : String) : Lower Variable := fun versions =>
  let (defined, after) := versions.define name
  ⟨defined, { defined := [name] }, after⟩

def nextResult : Lower Variable := fun versions =>
  let (result, after) := versions.nextResult
  ⟨result, { defined := [result.name] }, after⟩

def note (site : CallSite) : Lower Unit := fun versions => ⟨(), { sites := [site] }, versions⟩

def defineAll : List String → Lower (List Variable)
  | [] => pure []
  | name :: rest => do
    let first ← define name
    let others ← defineAll rest
    return first :: others

def store (target : Expression) (operator : String) (value : Value) : Lower Variable := do
  let previous ← use target.locationName
  let defined ← define target.locationName
  let implied ← defineAll target.path.dropLast
  let assignment : Assignment :=
    if operator = "" then { target := defined, implied, value }
    else { target := defined, implied, previous := some previous, operator := some operator, value }
  emit (.assign assignment)
  return defined

def invoke (callee : String) (type : CallType) (receiver : Option Value)
    (options : List (String × Value)) (arguments : List Value) (location : Location) :
    Lower Variable := do
  let result ← nextResult
  note ⟨callee, type, location⟩
  emit (.call { result, callee, type, receiver, options, arguments, location })
  return result

/-- Assigns a value to each name by its position; empty names are passed over. -/
def bindNames (part : Nat → Value) (index : Nat) : List String → Lower Unit
  | [] => pure ()
  | name :: rest => do
    if name ≠ "" then
      let target ← define name
      emit (.assign { target, value := part index })
    bindNames part (index + 1) rest

end Lower

/-- The part of a value that goes to one of `count` targets: a component if the value is a
tuple of that size, else the whole value. Without a value it is zero. -/
def Value.component (count : Nat) (value : Option Value) (index : Nat) : Value :=
  match value with
  | some (.tuple items) =>
    if items.length = count then items[index]?.getD (.literal "0") else .tuple items
  | some whole => whole
  | none => .literal "0"

namespace Expression

/-- The operator of `a op= b`; a plain assignment has none. -/
def stepOperator (operator : String) : String :=
  match operator.toList.reverse with
  | '=' :: rest => String.ofList rest.reverse
  | _ => ""

/-- Names that stand for a namespace, not for a value. -/
def isNamespace : Expression → Bool
  | identifier name _ => ["abi", "super", "this"].contains name
  | _ => false

def isMissing : Expression → Bool
  | missing => true
  | _ => false

mutual

def lower (scope : Scope) : Expression → Lower Value
  | missing => pure (.raw "")
  | identifier name _ => do return .var (← Lower.use name)
  | literal value => pure (.literal value.text)
  | member base type name => do
    let whole := member base type name
    if base.isLocation then
      lowerKeys scope base
      return .var (← Lower.use whole.locationName)
    else
      let _ ← base.lower scope
      return .raw whole.text
  | index base key lower upper => do
    let whole := index base key lower upper
    if base.isLocation then
      let _ ← key.lower scope
      lowerKeys scope base
      return .var (← Lower.use whole.locationName)
    else
      let _ ← base.lower scope
      let _ ← key.lower scope
      let _ ← lower.lower scope
      let _ ← upper.lower scope
      return .raw whole.text
  | slice base key lower upper => do
    let _ ← base.lower scope
    let _ ← key.lower scope
    let _ ← lower.lower scope
    let _ ← upper.lower scope
    return .raw (slice base key lower upper).text
  | binary operator left right => do
    let first ← left.lower scope
    let second ← right.lower scope
    return .binary operator first second
  | unary operator leading operand => do
    if operand.isMissing then return .raw (unary operator leading operand).text
    else if operator = "++" ∨ operator = "--" then
      let before ← Lower.use operand.locationName
      lowerKeys scope operand
      let after ← Lower.store operand (if operator = "++" then "+" else "-") (.literal "1")
      return .var (if leading then after else before)
    else if operator = "delete" then
      lowerKeys scope operand
      let _ ← Lower.store operand "" (.literal "0")
      return .literal "0"
    else
      let inner ← operand.lower scope
      return .unary operator inner
  | assign operator target value => do
    let stored ← if value.isMissing then pure (.literal "0") else value.lower scope
    match target with
    | missing => return stored
    | tuple _ components =>
      return .tuple (← storeComponents scope (Value.component components.length (some stored)) 0
        components)
    | target =>
      lowerKeys scope target
      return .var (← Lower.store target (stepOperator operator) stored)
  | conditional condition yes no => do
    let test ← condition.lower scope
    let first ← yes.lower scope
    let second ← no.lower scope
    return .choice test first second
  | tuple isArray components => do
    let items ← lowerComponents scope components
    match isArray, components, items with
    | false, [component], [item] => return if component.isMissing then .tuple [item] else item
    | _, _, _ => return .tuple items
  | call form callee arguments _ location => do
    if isConversion form callee || form == .construction then
      return .apply callee.text (← lowerList scope arguments)
    else
      let receiver ← lowerReceiver scope callee
      let options ← lowerOptions scope callee
      let values ← lowerList scope arguments
      let result ← Lower.invoke callee.peeled.text (scope.classify callee) receiver options values
        location
      return .var result
  | options callee labels values => pure (.raw (options callee labels values).text)
  | typeName text => pure (.raw text)
  | new type => pure (.raw (new type).text)
  | other _ => pure (.raw "")

def lowerList (scope : Scope) : List Expression → Lower (List Value)
  | [] => pure []
  | first :: rest => do
    let value ← first.lower scope
    let others ← lowerList scope rest
    return value :: others

/-- A hole of a tuple is an empty text. -/
def lowerComponents (scope : Scope) : List Expression → Lower (List Value)
  | [] => pure []
  | first :: rest => do
    let value ← if first.isMissing then pure (.literal "") else first.lower scope
    let others ← lowerComponents scope rest
    return value :: others

/-- Keys along a location are evaluated, the outermost first. -/
def lowerKeys (scope : Scope) : Expression → Lower Unit
  | index base key _ _ => do
    let _ ← key.lower scope
    lowerKeys scope base
  | member base _ _ => lowerKeys scope base
  | _ => pure ()

def storeComponents (scope : Scope) (part : Nat → Value) (index : Nat) :
    List Expression → Lower (List Value)
  | [] => pure []
  | first :: rest => do
    if first.isMissing then storeComponents scope part (index + 1) rest
    else
      lowerKeys scope first
      let target ← Lower.store first "" (part index)
      let others ← storeComponents scope part (index + 1) rest
      return .var target :: others

/-- The receiver of a member call; a namespace is none. -/
def lowerReceiver (scope : Scope) : Expression → Lower (Option Value)
  | options callee _ _ => lowerReceiver scope callee
  | member base _ _ => do
    if base.isMissing || base.isNamespace then return none
    else return some (← base.lower scope)
  | _ => pure none

/-- Call options, the outermost first. -/
def lowerOptions (scope : Scope) : Expression → Lower (List (String × Value))
  | options callee labels values => do
    let here ← lowerLabelled scope labels values
    let inner ← lowerOptions scope callee
    return here ++ inner
  | _ => pure []

/-- Each value with its label; what has no partner is left out. -/
def lowerLabelled (scope : Scope) :
    List (Option String) → List Expression → Lower (List (String × Value))
  | label :: labels, first :: rest => do
    let value ← first.lower scope
    let others ← lowerLabelled scope labels rest
    return (label.getD "", value) :: others
  | _, _ => pure []

end

/-- A condition that is not there holds. -/
def lowerCondition (scope : Scope) (condition : Expression) : Lower Unit := do
  let value ← if condition.isMissing then pure (.literal "true") else condition.lower scope
  Lower.emit (.condition value)

def writesOperand (operator : String) : Bool := ["++", "--", "delete"].contains operator

/-- An expression that stands alone is kept unless lowering it already left an assignment
or a call. -/
def leavesInstruction : Expression → Bool
  | assign .. => true
  | call form callee _ _ _ => !(isConversion form callee || form == .construction)
  | unary operator _ _ => writesOperand operator
  | _ => false

end Expression

namespace Statement

mutual

def lower (scope : Scope) : Statement → Lower Unit
  | expression value => do
    if value.isMissing then return ()
    else if value.leavesInstruction then
      let _ ← value.lower scope
    else
      let lowered ← value.lower scope
      Lower.emit (.expression lowered)
  | declare targets value => do
    let initial ← if value.isMissing then pure none else some <$> value.lower scope
    Lower.bindNames (Value.component targets.length initial) 0
      (targets.map fun target => (target.map (·.name)).getD "")
  | emit none => pure ()
  | emit (some event) => do
    let arguments ← Expression.lowerList scope event.arguments
    Lower.emit (.emit event.callee arguments)
  | revert none => pure ()
  | revert (some error) => do
    let arguments ← Expression.lowerList scope error.arguments
    let _ ← Lower.invoke ("revert " ++ error.callee) .revert none [] arguments error.location
  | ret value => do
    if value.isMissing then Lower.emit (.ret [])
    else
      match ← value.lower scope with
      | .tuple items => Lower.emit (.ret items)
      | single => Lower.emit (.ret [single])
  | branch condition yes no => do
    condition.lowerCondition scope
    lowerBody scope yes
    lowerBody scope no
  | forLoop start condition step body _ => do
    lowerBody scope start
    condition.lowerCondition scope
    lowerBody scope body
    lowerBody scope step
  | whileLoop condition body _ => do
    condition.lowerCondition scope
    lowerBody scope body
  | doWhile condition body _ => do
    lowerBody scope body
    condition.lowerCondition scope
  | block body => lowerBody scope body
  | tryCall call clauses => do
    let result ← if call.isMissing then pure none else some <$> call.lower scope
    lowerClauses scope (fun count => Value.component count result) clauses
  | other text => if text = "" then pure () else Lower.emit (.raw text)

def lowerBody (scope : Scope) : List Statement → Lower Unit
  | [] => pure ()
  | first :: rest => do
    first.lower scope
    lowerBody scope rest

/-- The first clause binds the result of the call, the others the data of an error. -/
def lowerClauses (scope : Scope) (part : Nat → Nat → Value) :
    List (List String × List Statement) → Lower Unit
  | [] => pure ()
  | (parameters, body) :: rest => do
    Lower.bindNames (part parameters.length) 0 parameters
    lowerBody scope body
    lowerClauses scope (fun _ _ => .raw "catch") rest

end

/-- The instructions of the head alone: only the condition of a branch or of a loop that
tests first. -/
def lowerHead (scope : Scope) : Statement → Lower Unit
  | branch condition _ _ => condition.lowerCondition scope
  | forLoop _ condition _ _ _ => condition.lowerCondition scope
  | whileLoop condition _ _ => condition.lowerCondition scope
  | statement => statement.lower scope

end Statement
end Reentrancy
