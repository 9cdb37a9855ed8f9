import Reentrancy.Flow.Block

/-! The control-flow graph of a list of blocks. Blocks are addressed by their position in
the list; of several blocks with one id the last is the target of jumps. -/
namespace Reentrancy

structure Vertex where
  id : String
  exit : Exit
deriving Inhabited

/-- Nodes found from `pending` along `next`, each once, among the `remaining` ones. -/
def gather (next : Nat → List Nat) (remaining pending : List Nat) : List Nat :=
  match pending with
  | [] => []
  | node :: rest =>
    if node ∈ remaining then node :: gather next (remaining.erase node) (next node ++ rest)
    else gather next remaining rest
termination_by (remaining.length, pending.length)
decreasing_by
  · exact Prod.Lex.left _ _ (by
      rw [List.length_erase_of_mem ‹_›]
      have := List.length_pos_of_mem ‹node ∈ remaining›
      omega)
  · exact Prod.Lex.right _ (by simp)

abbrev Graph := List Vertex

namespace Graph

def idAt (graph : Graph) (index : Nat) : String := (graph[index]?.map (·.id)).getD ""

/-- The last position of an id. -/
def position? (id : String) : Graph → Option Nat
  | [] => none
  | vertex :: rest =>
    match position? id rest with
    | some index => some (index + 1)
    | none => if vertex.id = id then some 0 else none

def exitAt (graph : Graph) (index : Nat) : Exit := (graph[index]?.map (·.exit)).getD .ret

/-- Positions that control can go to next; an open block falls through. -/
def successors (graph : Graph) (index : Nat) : List Nat :=
  if (graph.exitAt index).isPending then
    if index + 1 < graph.length then [index + 1] else []
  else ((graph.exitAt index).targets.filterMap fun id => graph.position? id).eraseDups

/-- Ids of the blocks before the blocks with an id, in block order and each once. -/
def predecessors (graph : Graph) (id : String) : List String :=
  (((List.range graph.length).filter fun index =>
    (graph.successors index).any fun next => graph.idAt next == id).map graph.idAt).eraseDups

def predecessorTable (graph : Graph) : Table (List String) :=
  Table.ofList (graph.map fun vertex => (vertex.id, graph.predecessors vertex.id))

/-- The target of an unconditional jump that does not go forward. -/
def backTarget? (graph : Graph) (index : Nat) : Option Nat :=
  match graph.exitAt index with
  | .goto target => (graph.position? target).filter (· ≤ index)
  | _ => none

def backEdges (graph : Graph) : List (Nat × Nat) :=
  (List.range graph.length).filterMap fun index =>
    (graph.backTarget? index).map fun target => (index, target)

def headers (graph : Graph) : List Nat :=
  (List.range graph.length).filter fun index => graph.backEdges.any fun edge => edge.2 == index

def edges (graph : Graph) : List (Nat × Nat) :=
  (List.range graph.length).flatMap fun source =>
    ((List.range graph.length).filter (graph.successors source).contains).map fun target =>
      (source, target)

/-- Positions that some path of at least one edge leads to. -/
def reachable (graph : Graph) (start : Nat) : List Nat :=
  let all := List.range graph.length
  let found := gather graph.successors all (graph.successors start)
  all.filter found.contains

end Graph

def Block.vertex (block : Block) : Vertex := ⟨block.id, block.exit⟩

def graphOf (blocks : List Block) : Graph := blocks.map Block.vertex

end Reentrancy
