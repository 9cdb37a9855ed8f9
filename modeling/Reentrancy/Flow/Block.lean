import Reentrancy.Ssa.Instruction
import Reentrancy.Tree.Statement

/-! Basic blocks: statements that run one after another, and where control goes after
them. -/
namespace Reentrancy

/-- How a block is left. Blocks that are still `pending` go to the block after them. -/
inductive Exit where
  | goto (target : String)
  | branch (condition : Expression) (yes no : String)
  | ret
  | revert
  | pending
deriving Inhabited

namespace Exit

def targets : Exit → List String
  | goto target => [target]
  | branch _ yes no => [yes, no]
  | _ => []

def isPending : Exit → Bool
  | pending => true
  | _ => false

def isBranch : Exit → Bool
  | branch .. => true
  | _ => false

def gotoOrPending : Option String → Exit
  | some target => goto target
  | none => pending

def text : Exit → String
  | goto target => "goto " ++ target
  | branch condition yes no =>
    "if (" ++ condition.text ++ ") then goto " ++ yes ++ " else goto " ++ no
  | ret => "return"
  | revert => "revert"
  | pending => "pending"

def closing (statements : List Statement) (otherwise : Exit) : Exit :=
  match statements.getLast? with
  | some last =>
    if last.kind = .ret then ret else if last.isRevert then revert else otherwise
  | none => otherwise

end Exit

inductive LoopRole where
  | init
  | header
  | body
  | increment
  | exit
deriving DecidableEq, Repr

namespace LoopRole

def text : LoopRole → String
  | init => "Init"
  | header => "Header"
  | body => "Body"
  | increment => "Increment"
  | exit => "Exit"

def ofText? : String → Option LoopRole
  | "Init" => some init
  | "Header" => some header
  | "Body" => some body
  | "Increment" => some increment
  | "Exit" => some exit
  | _ => none

end LoopRole

structure BlockVersions where
  reads : Table Nat := Table.empty
  writes : Table Nat := Table.empty
deriving Inhabited

/-- The field `side` tells the arms of a branch apart; the later passes fill in `accesses`,
`versions` and `instructions`. -/
structure Block where
  id : String
  statements : List Statement := []
  exit : Exit := .pending
  role : Option LoopRole := none
  side : Option Bool := none
  accesses : Accesses := {}
  versions : BlockVersions := {}
  instructions : List Instruction := []
deriving Inhabited

def blockId (number : Nat) : String := "Block" ++ toString number

/-- Marks the last statement if its bodies stand in other blocks. -/
def withHeads (branches : Bool) : List Statement → List (Statement × Bool)
  | [] => []
  | [last] => [(last, branches && last.kind.isStructured)]
  | first :: rest => (first, false) :: withHeads branches rest

namespace Block

/-- Each statement, and whether only its head belongs to the block. -/
def parts (block : Block) : List (Statement × Bool) :=
  withHeads block.exit.isBranch block.statements

def hasKind (block : Block) (kind : StatementKind) : Bool :=
  block.statements.any fun statement => statement.kind == kind

def track (block : Block) : Block :=
  { block with
    accesses := (block.parts.map fun part => part.1.accessesOf part.2).foldl Accesses.union {} }

/-- A block that is left open at the end returns. -/
def finalize (block : Block) : Block :=
  { block with exit := if block.exit.isPending then .ret else block.exit }

end Block
end Reentrancy
