import Reentrancy.Ssa.Piece

/-! What a list of finished blocks has to satisfy. -/
namespace Reentrancy

inductive Invalid where
  | pendingExit (id : String)
  | phiWithoutPredecessors (id : String)
  | repeatedId (id : String)
  | danglingTarget (id target : String)
deriving DecidableEq, Repr

namespace Invalid

def message : Invalid → String
  | pendingExit id => "Pending terminator in block '" ++ id ++ "'"
  | phiWithoutPredecessors id => "Phi in block '" ++ id ++ "' without predecessors"
  | repeatedId id => "Duplicate block id '" ++ id ++ "'"
  | danglingTarget id target =>
    "Block '" ++ id ++ "' jumps to unknown block '" ++ target ++ "'"

def report (invalid : Invalid) : String := "Invariant violated: " ++ invalid.message

end Invalid

def repeatedId? (seen : List String) : List String → Option String
  | [] => none
  | id :: rest => if seen.contains id then some id else repeatedId? (id :: seen) rest

def Piece.fault? (graph : Graph) (piece : Piece) : Option Invalid :=
  if piece.exit.isPending then some (.pendingExit piece.id)
  else match piece.exit.targets.find? fun target => (graph.position? target).isNone with
    | some target => some (.danglingTarget piece.id target)
    | none =>
      if piece.instructions.any Instruction.isPhi && (graph.predecessors piece.id).isEmpty then
        some (.phiWithoutPredecessors piece.id)
      else none

/-- The first fault; repeated ids come before all others. -/
def fault? (pieces : List Piece) : Option Invalid :=
  match repeatedId? [] (pieces.map (·.id)) with
  | some id => some (.repeatedId id)
  | none => pieces.findSome? (Piece.fault? (pieceGraph pieces))

end Reentrancy
