import Reentrancy.Ssa.Piece

/-! Reentrancy: an external call that is followed by a write to a state variable. What
follows is decided by block order or by reachability in the control-flow graph. -/
namespace Reentrancy

inductive DetectionMode where
  /-- Later in the list of blocks. -/
  | ordered
  /-- Reachable along at least one edge. -/
  | reachability
deriving DecidableEq, Repr, Inhabited

namespace DetectionMode

def text : DetectionMode → String
  | ordered => "ordered"
  | reachability => "reachability"

def ofText? : String → Option DetectionMode
  | "ordered" => some ordered
  | "reachability" => some reachability
  | _ => none

end DetectionMode

inductive Severity where
  | low
  | medium
  | high
deriving DecidableEq, Repr, Inhabited

def Severity.text : Severity → String
  | low => "Low"
  | medium => "Medium"
  | high => "High"

structure Finding where
  detector : String := "reentrancy"
  contract : String
  function : String
  description : String
  severity : Severity := .high
deriving DecidableEq, Repr, Inhabited

def Finding.qualifiedName (finding : Finding) : String :=
  finding.contract ++ "." ++ finding.function

def isGuard (modifier : String) : Bool :=
  let lowered := Text.lowerAscii modifier
  Text.contains lowered "nonreentrant" || Text.contains lowered "reentrancy"

namespace Instruction

def externalCallee? : Instruction → Option String
  | call operation => if operation.type.isExternal then some operation.callee else none
  | _ => none

/-- The state variable that an assignment writes to, possibly in part. -/
def stateWrite? (state : Names) : Instruction → Option String
  | assign assignment =>
    let base := baseName assignment.target.name
    if state.contains base then some base else none
  | _ => none

end Instruction

structure Hit where
  position : Nat
  id : String
  name : String
deriving DecidableEq, Repr

def hitsFrom (find : Instruction → Option String) (position : Nat) : List Piece → List Hit
  | [] => []
  | piece :: rest =>
    match piece.instructions.findSome? find with
    | some name => ⟨position, piece.id, name⟩ :: hitsFrom find (position + 1) rest
    | none => hitsFrom find (position + 1) rest

def externalCalls (pieces : List Piece) : List Hit := hitsFrom Instruction.externalCallee? 0 pieces

def stateWrites (state : Names) (pieces : List Piece) : List Hit :=
  hitsFrom (Instruction.stateWrite? state) 0 pieces

def describe (call write : Hit) : String :=
  "External call `" ++ call.name ++ "` in " ++ call.id ++
    " is followed by a write to state variable `" ++ write.name ++ "` in " ++ write.id

def writeAfter? (mode : DetectionMode) (graph : Graph) (writes : List Hit) (call : Hit) :
    Option Hit :=
  match mode with
  | .ordered => writes.find? fun write => call.position < write.position
  | .reachability =>
    let reached := graph.reachable call.position
    writes.find? fun write => reached.contains write.position

def exposure? (mode : DetectionMode) (state : Names) (pieces : List Piece) : Option (Hit × Hit) :=
  let graph := pieceGraph pieces
  let writes := stateWrites state pieces
  (externalCalls pieces).findSome? fun call =>
    (writeAfter? mode graph writes call).map fun write => (call, write)

structure Detector where
  mode : DetectionMode := .ordered
  honorGuards : Bool := false
deriving DecidableEq, Repr, Inhabited

namespace Detector

def check (detector : Detector) (state : Names) (contract function : String)
    (modifiers : List String) (pieces : List Piece) : Option Finding :=
  if detector.honorGuards && modifiers.any isGuard then none
  else (exposure? detector.mode state pieces).map fun exposure =>
    { contract, function, description := describe exposure.1 exposure.2 }

end Detector
end Reentrancy
