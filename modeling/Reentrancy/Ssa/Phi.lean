import Reentrancy.Flow.Graph
import Reentrancy.Ssa.Versions

/-! Phis join the versions that reach a block along different edges. A block with several
predecessors, or one that a loop comes back to, gets a phi for a name if its predecessors
write different versions of it, or if one of them writes it and the block reads it. -/
namespace Reentrancy

def latestWrites (blocks : List Block) : Table Nat :=
  (blocks.flatMap fun block => block.versions.writes.entries).foldl (fun latest entry =>
    latest.insert entry.1 (max (latest.version entry.1) entry.2)) Table.empty

structure Incoming where
  id : String
  position : Nat
  writes : Table Nat

/-- Along a back edge everything that the loop writes comes in. -/
def incoming (blocks : List Block) (graph : Graph) (index : Nat) : List Incoming :=
  (graph.predecessors (graph.idAt index)).filterMap fun id =>
    (graph.position? id).map fun position =>
      { id, position
        writes :=
          if graph.backTarget? position = some index then
            latestWrites ((blocks.take (position + 1)).drop (index + 1))
          else ((blocks[position]?).map fun block => block.versions.writes).getD Table.empty }

def Graph.joins (graph : Graph) (index : Nat) : Bool :=
  let before := graph.predecessors (graph.idAt index)
  !before.isEmpty && (before.length ≥ 2 || graph.headers.contains index)

def needsPhi (reads : Names) (edges : List Incoming) (name : String) : Bool :=
  let written := edges.filterMap fun edge => edge.writes.get? name
  written.eraseDups.length > 1 || (written.length == 1 && reads.contains name)

/-- One version for each edge; a block that does not write the name passes on its own. -/
def phiSources (exits : List (Table Nat)) (edges : List Incoming) (name : String) :
    List (String × Variable) :=
  edges.map fun edge =>
    let passed := ((exits[edge.position]?).bind fun exit => exit.get? name).getD 0
    (edge.id, ⟨name, (edge.writes.get? name).getD passed⟩)

structure Phi where
  target : Variable
  sources : List (String × Variable)
deriving Inhabited

namespace Phi

def instruction (phi : Phi) : Instruction := .phi phi.target phi.sources

/-- A read of a joined version becomes a read of the join. -/
def joinsVariable (phi : Phi) (read : Variable) : Bool :=
  phi.target.name == read.name && phi.sources.any fun source => source.2.version == read.version

def rule (phis : List Phi) (read : Variable) : Option Value :=
  (phis.find? fun phi => phi.joinsVariable read).map fun phi => .var phi.target

end Phi

def placePhis (sources : String → List (String × Variable)) (versions : Versions) :
    List String → List Phi × Versions
  | [] => ([], versions)
  | name :: rest =>
    let (target, allocated) := versions.allocate name
    let (others, after) := placePhis sources allocated rest
    (⟨target, sources name⟩ :: others, after)

def Block.joinWith (block : Block) (phis : List Phi) : Block :=
  { block with
    instructions :=
      phis.map Phi.instruction ++ block.instructions.map (Instruction.substitute (Phi.rule phis))
    versions :=
      { block.versions with
        reads := phis.foldl (fun reads phi =>
          if reads.contains phi.target.name then reads.insert phi.target.name phi.target.version
          else reads) block.versions.reads } }

structure Joined where
  blocks : List Block := []
  inserted : Nat := 0
  versions : Versions := {}
deriving Inhabited

def phiNames (blocks : List Block) (graph : Graph) (index : Nat) (block : Block) : List String :=
  if graph.joins index then
    let edges := incoming blocks graph index
    (Names.ofList (edges.flatMap fun edge => edge.writes.keys)).toList.filter
      (needsPhi block.accesses.reads edges)
  else []

def joinFrom (blocks : List Block) (graph : Graph) (exits : List (Table Nat)) (index : Nat)
    (versions : Versions) : List Block → Joined
  | [] => { versions }
  | block :: rest =>
    let sources := phiSources exits (incoming blocks graph index)
    let (phis, after) := placePhis sources versions (phiNames blocks graph index block)
    let others := joinFrom blocks graph exits (index + 1) after rest
    { blocks := block.joinWith phis :: others.blocks
      inserted := phis.length + others.inserted
      versions := others.versions }

/-- Inserts the phis of all blocks; `exits` are the versions at the end of each block. -/
def insertPhis (exits : List (Table Nat)) (versions : Versions) (blocks : List Block) : Joined :=
  joinFrom blocks (graphOf blocks) exits 0 versions blocks

end Reentrancy
