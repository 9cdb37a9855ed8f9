import Mathlib.Logic.Function.Basic
import Reentrancy.Ssa.Lowering

/-! What scalar code means in the source language. A scalar expression is made of variables,
literals, operators and writes to variables; it is evaluated from left to right and has a value
and an effect on the store. -/
namespace Reentrancy

/-- What literals and operators stand for, and what calls give back. -/
structure Meaning (D : Type) where
  literal : String → D
  unary : String → D → D
  binary : String → D → D → D
  result : String → D

abbrev Store (D : Type) := String → D

variable {D : Type} (meaning : Meaning D)

def Store.setAll (store : Store D) : List String → List D → Store D
  | name :: names, value :: values => setAll (Function.update store name value) names values
  | _, _ => store

namespace Expression

def isVariable : Expression → Bool
  | identifier .. => true
  | _ => false

def variableName : Expression → String
  | identifier name _ => name
  | _ => ""

mutual

def isScalar : Expression → Bool
  | identifier .. => true
  | literal _ => true
  | binary _ left right => left.isScalar && right.isScalar
  | unary operator _ operand =>
    if writesOperand operator then operand.isVariable else operand.isScalar
  | assign operator target value =>
    operator.toList.getLast? == some '=' && target.isVariable && value.isScalar
  | tuple isArray components => !isArray && components.length == 1 && areScalar components
  | _ => false

def areScalar : List Expression → Bool
  | [] => true
  | first :: rest => first.isScalar && areScalar rest

end

mutual

/-- The value of a scalar expression and the store after it. An operator `op=` takes its target
after the right side; a postfix operator gives the old value. -/
def eval : Expression → Store D → D × Store D
  | identifier name _, store => (store name, store)
  | literal value, store => (meaning.literal value.text, store)
  | binary operator left right, store =>
    let (first, middle) := left.eval store
    let (second, after) := right.eval middle
    (meaning.binary operator first second, after)
  | unary operator leading operand, store =>
    if operator = "delete" then
      (meaning.literal "0", Function.update store operand.variableName (meaning.literal "0"))
    else if operator = "++" ∨ operator = "--" then
      let before := store operand.variableName
      let after := meaning.binary (if operator = "++" then "+" else "-") before
        (meaning.literal "1")
      (if leading then after else before, Function.update store operand.variableName after)
    else
      let (inner, after) := operand.eval store
      (meaning.unary operator inner, after)
  | assign operator target value, store =>
    let (right, after) := value.eval store
    let result :=
      if operator = "=" then right
      else meaning.binary (String.ofList operator.toList.dropLast) (after target.variableName) right
    (result, Function.update after target.variableName result)
  | tuple _ components, store =>
    let (values, after) := evalAll components store
    (values.headD (meaning.literal ""), after)
  | _, store => (meaning.literal "", store)

def evalAll : List Expression → Store D → List D × Store D
  | [], store => ([], store)
  | first :: rest, store =>
    let (value, middle) := first.eval store
    let (others, after) := evalAll rest middle
    (value :: others, after)

end

/-- Whether an expression can be given to `count` targets: it is left out, or it is one scalar, or
a tuple of scalars. -/
def suits (count : Nat) : Expression → Bool
  | missing => true
  | tuple isArray components =>
    !isArray && components.length == count && areScalar components
  | value => count == 1 && value.isScalar

/-- The values that go to `count` targets. All of them are computed before any is stored. -/
def evalParts (count : Nat) : Expression → Store D → List D × Store D
  | missing, store => (List.replicate count (meaning.literal "0"), store)
  | tuple _ components, store => evalAll meaning components store
  | value, store =>
    let (single, after) := value.eval meaning store
    ([single], after)

end Expression

namespace Statement

/-- Expressions, tuple assignments `(x, y) = (a, b)` and declarations of scalars. -/
def isScalar : Statement → Bool
  | expression (.assign operator (.tuple _ targets) value) =>
    operator == "=" && targets.all Expression.isVariable && !value.isMissing &&
      value.suits targets.length
  | expression value => value.isScalar
  | declare targets value =>
    targets.all (fun target => target.any fun declared => declared.name != "") &&
      value.suits targets.length
  | _ => false

def exec : Statement → Store D → Store D
  | expression (.assign _ (.tuple _ targets) value), store =>
    let (values, after) := value.evalParts meaning targets.length store
    after.setAll (targets.map Expression.variableName) values
  | expression value, store => (value.eval meaning store).2
  | declare targets value, store =>
    let (values, after) := value.evalParts meaning targets.length store
    after.setAll (targets.map fun target => (target.map (·.name)).getD "") values
  | _, store => store

def execAll (statements : List Statement) (store : Store D) : Store D :=
  statements.foldl (fun store statement => statement.exec meaning store) store

end Statement
end Reentrancy
