import Reentrancy.Table
import Reentrancy.Tree.Statement

/-! The variables that expressions and statements read and write. Names are plain
identifiers and the composite names of locations; touching a location touches every name
on its path. -/
namespace Reentrancy

inductive Access where
  | read (name : String)
  | write (name : String)
deriving DecidableEq, Repr

/-- Names read and names written, without the empty name. -/
structure Accesses where
  reads : Names := Table.empty
  writes : Names := Table.empty
deriving Inhabited

namespace Accesses

def empty : Accesses := {}

def record (accesses : Accesses) : Access → Accesses
  | .read name => if name = "" then accesses else { accesses with reads := accesses.reads.add name }
  | .write name =>
    if name = "" then accesses else { accesses with writes := accesses.writes.add name }

def ofList (events : List Access) : Accesses := events.foldl record empty

def union (left right : Accesses) : Accesses :=
  ⟨left.reads.union right.reads, left.writes.union right.writes⟩

def names (accesses : Accesses) : List String := (accesses.reads.union accesses.writes).toList

def isEmpty (accesses : Accesses) : Bool := accesses.reads.isEmpty && accesses.writes.isEmpty

end Accesses

/-- The root of a composite name: what stands before the first `.` or `[`. -/
def baseName (name : String) : String :=
  String.ofList (name.toList.takeWhile fun c => c != '.' && c != '[')

namespace Expression

inductive Role where
  | value
  | target
  | callee
deriving DecidableEq, Repr

mutual

/-- The accesses of an expression. The path of a location is read, or written if it is a
target. A callee that is a plain name is no variable; the base of a member callee and call
options are values. -/
def accesses : Role → Expression → List Access
  | .callee, identifier .. => []
  | .callee, member base _ _ => base.accesses .value
  | .callee, typeName _ => []
  | .callee, new _ => []
  | role, identifier name _ => [if role = .target then .write name else .read name]
  | role, member base type name =>
    if base.isLocation then
      ((member base type name).path.map fun part =>
        if role = .target then Access.write part else .read part) ++ base.keyReads
    else base.accesses .value
  | role, index base key lower upper =>
    if base.isLocation then
      ((index base key lower upper).path.map fun part =>
        if role = .target then Access.write part else .read part) ++
        (key.accesses .value ++ base.keyReads)
    else base.accesses .value ++ key.accesses .value
  | _, slice base _ lower upper =>
    base.accesses .value ++ lower.accesses .value ++ upper.accesses .value
  | _, assign operator target value =>
    target.accesses .target ++
      (if operator = "=" then [] else target.accesses .value) ++ value.accesses .value
  | _, unary operator _ operand =>
    if operator = "++" ∨ operator = "--" then operand.accesses .value ++ operand.accesses .target
    else if operator = "delete" then operand.accesses .target
    else operand.accesses .value
  | _, binary _ left right => left.accesses .value ++ right.accesses .value
  | _, conditional condition yes no =>
    condition.accesses .value ++ yes.accesses .value ++ no.accesses .value
  | .target, tuple _ components => listAccesses .target components
  | _, tuple _ components => listAccesses .value components
  | _, call _ callee arguments _ _ => callee.accesses .callee ++ listAccesses .value arguments
  | _, options callee _ values => listAccesses .value values ++ callee.accesses .callee
  | _, _ => []

def listAccesses (role : Role) : List Expression → List Access
  | [] => []
  | first :: rest => first.accesses role ++ listAccesses role rest

/-- The keys along a location are read, the outermost first. -/
def keyReads : Expression → List Access
  | index base key _ _ => key.accesses .value ++ base.keyReads
  | member base _ _ => base.keyReads
  | _ => []

end

end Expression

namespace Invocation

def isZeroAddress (argument : Expression) : Bool := argument.text == "address(0)"

/-- A transfer from or to the zero address counts as reading the other party and the
amount as written. -/
def transferReads : List Expression → List Access
  | source :: target :: amount :: _ =>
    if isZeroAddress source then [.read target.text, .read amount.text]
    else if isZeroAddress target then [.read source.text, .read amount.text]
    else []
  | _ => []

def eventAccesses (event : Invocation) : List Access :=
  Expression.listAccesses .value event.arguments ++
    (if event.callee = "Transfer" then transferReads event.arguments else [])

end Invocation

namespace Statement

mutual

def accesses : Statement → List Access
  | expression value => value.accesses .value
  | declare targets value =>
    (targets.filterMap (·.map fun target => Access.write target.name)) ++ value.accesses .value
  | emit event => (event.map Invocation.eventAccesses).getD []
  | revert error => (error.map fun call => Expression.listAccesses .value call.arguments).getD []
  | ret value => value.accesses .value
  | branch condition yes no =>
    condition.accesses .value ++ bodyAccesses yes ++ bodyAccesses no
  | forLoop start condition step body _ =>
    condition.accesses .value ++ bodyAccesses start ++ bodyAccesses step ++ bodyAccesses body
  | whileLoop condition body _ => condition.accesses .value ++ bodyAccesses body
  | doWhile condition body _ => condition.accesses .value ++ bodyAccesses body
  | block body => bodyAccesses body
  | tryCall call clauses => call.accesses .value ++ clauseAccesses clauses
  | other _ => []

def bodyAccesses : List Statement → List Access
  | [] => []
  | first :: rest => first.accesses ++ bodyAccesses rest

def clauseAccesses : List (List String × List Statement) → List Access
  | [] => []
  | (parameters, body) :: rest =>
    parameters.map Access.write ++ bodyAccesses body ++ clauseAccesses rest

end

/-- The accesses of the head alone: a condition and, for a loop, the counters of its body.
Other statements have no head of their own. -/
def headAccesses : Statement → List Access
  | branch condition _ _ => condition.accesses .value
  | forLoop _ condition _ _ counters => condition.accesses .value ++ counters.map Access.read
  | whileLoop condition _ counters => condition.accesses .value ++ counters.map Access.read
  | doWhile condition _ counters => condition.accesses .value ++ counters.map Access.read
  | statement => statement.accesses

def accessesOf (statement : Statement) (headOnly : Bool) : Accesses :=
  Accesses.ofList (if headOnly then statement.headAccesses else statement.accesses)

end Statement
end Reentrancy
