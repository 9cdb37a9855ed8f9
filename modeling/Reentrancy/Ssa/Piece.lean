import Reentrancy.Flow.Cut
import Reentrancy.Flow.Graph

/-! Finished blocks. Each block is cut after its effects, so that a piece holds at most one
effect, as its last instruction. The first piece keeps the id of the block, the last one
its exit, and phis name the last piece of each block before theirs. -/
namespace Reentrancy

structure Piece where
  id : String
  instructions : List Instruction := []
  exit : Exit := .pending
  accesses : Accesses := {}
deriving Inhabited

def Piece.vertex (piece : Piece) : Vertex := ⟨piece.id, piece.exit⟩

def pieceGraph (pieces : List Piece) : Graph := pieces.map Piece.vertex

/-- Runs of instructions, one of them empty for a block without instructions. -/
def runsOf (instructions : List Instruction) : List (List Instruction) :=
  match cutAfter Instruction.isEffectful instructions with
  | [] => [[]]
  | runs => runs

/-- Pieces with the ids `id`, `number`, `number + 1` and so on, each but the last going to
the next. -/
def linkPieces (id : String) (number : Nat) (exit : Exit) : List (List Instruction) → List Piece
  | [] => []
  | [last] => [{ id, instructions := last, exit, accesses := Instruction.listAccesses last }]
  | run :: rest =>
    { id, instructions := run, exit := .goto (blockId number),
      accesses := Instruction.listAccesses run } ::
        linkPieces (blockId number) (number + 1) exit rest

def Block.pieces (block : Block) (number : Nat) : List Piece × Nat :=
  let runs := runsOf block.instructions
  (linkPieces block.id number block.exit runs, number + (runs.length - 1))

/-- The pieces of all blocks, with the last piece of each block id, and the next free
number. -/
def piecesFrom (number : Nat) : List Block → List Piece × List (String × String) × Nat
  | [] => ([], [], number)
  | block :: rest =>
    let (first, next) := block.pieces number
    let last := (first.getLast?.map (·.id)).getD block.id
    let (others, ends, free) := piecesFrom next rest
    (first ++ others, (block.id, last) :: ends, free)

def Instruction.redirect (ends : Table String) : Instruction → Instruction
  | .phi target sources =>
    .phi target (sources.map fun source => ((ends.get? source.1).getD source.1, source.2))
  | instruction => instruction

def Piece.redirect (ends : Table String) (piece : Piece) : Piece :=
  { piece with instructions := piece.instructions.map (Instruction.redirect ends) }

def splitBlocks (number : Nat) (blocks : List Block) : List Piece × Nat :=
  let (pieces, ends, free) := piecesFrom number blocks
  (pieces.map (Piece.redirect (Table.ofList ends)), free)

end Reentrancy
