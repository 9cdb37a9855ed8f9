import Reentrancy.Proofs.Lowering.Laws

/-! What lowering does to names, read off the source. A statement looks names up, defines names by
assignments and takes names for the results of calls, in an order that its tree gives. Lowering
follows this order, and its operands are what was looked up or defined on the way. -/
namespace Reentrancy

inductive Action where
  | look (name : String)
  /-- One assignment to all the names. -/
  | define (names : List String)
  /-- A call, whose result takes the next free name. -/
  | result
deriving DecidableEq

/-- A definition, and whether a call makes it. -/
structure Mark where
  defined : Variable
  called : Bool
deriving DecidableEq

namespace Action

def apply : Action → Versions → Versions
  | look _, versions => versions
  | define names, versions => (Lower.defineAll names versions).versions
  | result, versions => versions.nextResult.2

def gets : Action → Versions → List Variable
  | look name, versions => [versions.read name]
  | define names, versions => (Lower.defineAll names versions).value
  | result, versions => [versions.nextResult.1]

def marks : Action → Versions → List Mark
  | look _, _ => []
  | define names, versions =>
    (Lower.defineAll names versions).value.map fun defined => ⟨defined, false⟩
  | result, versions => [⟨versions.nextResult.1, true⟩]

def applyAll : List Action → Versions → Versions
  | [], versions => versions
  | first :: rest, versions => applyAll rest (first.apply versions)

def along {α : Type} (give : Action → Versions → List α) : List Action → Versions → List α
  | [], _ => []
  | first :: rest, versions => give first versions ++ along give rest (first.apply versions)

theorem applyAll_append (first second : List Action) (versions : Versions) :
    applyAll (first ++ second) versions = applyAll second (applyAll first versions) := by
  induction first generalizing versions with
  | nil => rfl
  | cons action rest ih => exact ih (action.apply versions)

theorem along_append {α : Type} (give : Action → Versions → List α) (first second : List Action)
    (versions : Versions) :
    along give (first ++ second) versions =
      along give first versions ++ along give second (applyAll first versions) := by
  induction first generalizing versions with
  | nil => rfl
  | cons action rest ih =>
    rw [List.cons_append, along, along, ih, List.append_assoc]
    rfl

theorem mem_along_gets {actions : List Action} {versions : Versions} {read : Variable}
    (member : read ∈ along gets actions versions) :
    read ∈ (along marks actions versions).map Mark.defined ∨
      ∃ front back, actions = front ++ .look read.name :: back ∧
        read = (applyAll front versions).read read.name := by
  induction actions generalizing versions with
  | nil => cases member
  | cons first rest ih =>
    rw [along, List.map_append, List.mem_append]
    rcases List.mem_append.mp member with here | later
    · cases first with
      | look name =>
        obtain rfl := List.mem_singleton.mp here
        exact .inr ⟨[], rest, rfl, rfl⟩
      | define names => exact .inl (.inl (by simpa [marks, gets] using here))
      | result => exact .inl (.inl (by simpa [marks, gets] using here))
    · rcases ih later with defined | ⟨front, back, rfl, looked⟩
      · exact .inl (.inr defined)
      · exact .inr ⟨first :: front, back, rfl, looked⟩

end Action

def Instruction.marks : Instruction → List Mark
  | assign assignment =>
    (assignment.target :: assignment.implied).map fun defined => ⟨defined, false⟩
  | call operation => [⟨operation.result, true⟩]
  | _ => []

def Expression.storeActions (operator : String) (target : Expression) : List Action :=
  (if operator = "" then [] else [.look target.locationName]) ++
    [.define (target.locationName :: target.path.dropLast)]

namespace Expression

mutual

def actions : Expression → List Action
  | missing | literal _ | options .. | typeName _ | new _ | other _ => []
  | identifier name _ => [.look name]
  | member base type name =>
    if base.isLocation then base.keyActions ++ [.look (member base type name).locationName]
    else base.actions
  | index base key lower upper =>
    if base.isLocation then
      key.actions ++ (base.keyActions ++ [.look (index base key lower upper).locationName])
    else base.actions ++ (key.actions ++ (lower.actions ++ upper.actions))
  | slice base key lower upper =>
    base.actions ++ (key.actions ++ (lower.actions ++ upper.actions))
  | binary _ left right => left.actions ++ right.actions
  | unary operator _ operand =>
    if operand.isMissing then []
    else if operator = "++" ∨ operator = "--" then
      [.look operand.locationName] ++
        (operand.keyActions ++ operand.storeActions (if operator = "++" then "+" else "-"))
    else if operator = "delete" then operand.keyActions ++ operand.storeActions ""
    else operand.actions
  | assign operator target value =>
    value.actions ++ match target with
      | missing => []
      | tuple _ components => targetActions components
      | target => target.keyActions ++ target.storeActions (stepOperator operator)
  | conditional condition yes no => condition.actions ++ (yes.actions ++ no.actions)
  | tuple _ components => listActions components
  | call form callee arguments _ _ =>
    if isConversion form callee || form == .construction then listActions arguments
    else callee.receiverActions ++ (callee.optionActions ++ (listActions arguments ++ [.result]))

def listActions : List Expression → List Action
  | [] => []
  | first :: rest => first.actions ++ listActions rest

/-- Of a location only the keys act. -/
def keyActions : Expression → List Action
  | index base key _ _ => key.actions ++ base.keyActions
  | member base _ _ => base.keyActions
  | _ => []

def targetActions : List Expression → List Action
  | [] => []
  | first :: rest =>
    if first.isMissing then targetActions rest
    else first.keyActions ++ (first.storeActions "" ++ targetActions rest)

def receiverActions : Expression → List Action
  | options callee _ _ => callee.receiverActions
  | member base _ _ => if base.isMissing || base.isNamespace then [] else base.actions
  | _ => []

def optionActions : Expression → List Action
  | options callee labels values => labelledActions labels values ++ callee.optionActions
  | _ => []

def labelledActions : List (Option String) → List Expression → List Action
  | _ :: labels, first :: rest => first.actions ++ labelledActions labels rest
  | _, _ => []

end

end Expression

/-- Each name is defined by an assignment of its own; empty names are passed over. -/
def bindActions (names : List String) : List Action :=
  (names.filter (· ≠ "")).map fun name => .define [name]

namespace Statement

mutual

def actions : Statement → List Action
  | expression value => value.actions
  | declare targets value =>
    value.actions ++ bindActions (targets.map fun target => (target.map (·.name)).getD "")
  | emit none => []
  | emit (some event) => Expression.listActions event.arguments
  | revert none => []
  | revert (some error) => Expression.listActions error.arguments ++ [.result]
  | ret value => value.actions
  | branch condition yes no => condition.actions ++ (bodyActions yes ++ bodyActions no)
  | forLoop start condition step body _ =>
    bodyActions start ++ (condition.actions ++ (bodyActions body ++ bodyActions step))
  | whileLoop condition body _ => condition.actions ++ bodyActions body
  | doWhile condition body _ => bodyActions body ++ condition.actions
  | block body => bodyActions body
  | tryCall call clauses => call.actions ++ clauseActions clauses
  | other _ => []

def bodyActions : List Statement → List Action
  | [] => []
  | first :: rest => first.actions ++ bodyActions rest

def clauseActions : List (List String × List Statement) → List Action
  | [] => []
  | (parameters, body) :: rest =>
    bindActions parameters ++ (bodyActions body ++ clauseActions rest)

end

def headActions : Statement → List Action
  | branch condition _ _ => condition.actions
  | forLoop _ condition _ _ _ => condition.actions
  | whileLoop condition _ _ => condition.actions
  | statement => statement.actions

end Statement

def partsActions : List (Statement × Bool) → List Action
  | [] => []
  | (statement, headOnly) :: rest =>
    (if headOnly then statement.headActions else statement.actions) ++ partsActions rest

end Reentrancy
