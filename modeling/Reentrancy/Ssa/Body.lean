import Reentrancy.Flow.Refine
import Reentrancy.Inline.Walk
import Reentrancy.Ssa.Numbering
import Reentrancy.Ssa.Phi
import Reentrancy.Ssa.Piece

/-! A function body through all passes: cut, refined, numbered and joined by phis; then,
for a function that is called from outside, expanded and finished. -/
namespace Reentrancy

structure Body where
  blocks : List Block := []
  calls : List CallSite := []
  versions : Versions := {}
  /-- The next free block number. -/
  free : Nat := 0
deriving Inhabited

def flowBlocks (body : List Statement) : List Block × Nat :=
  let (built, next) := buildBlocks 0 body
  let (refined, free) := refineBlocks next built
  ((refined.map Block.finalize).map Block.track, free)

namespace Body

def build (scope : Scope) (statements : List Statement) : Body :=
  let (blocks, free) := flowBlocks statements
  let numbered := numberBlocks scope {} blocks
  let joined := insertPhis numbered.exits numbered.versions numbered.blocks
  { blocks := joined.blocks, calls := numbered.sites, versions := joined.versions, free }

def refresh (block : Block) : Block :=
  { block with accesses := block.accesses.union (Instruction.listAccesses block.instructions) }

def inline (body : Body) (templates : Table Template) (depth : Nat) (root : String) : Body :=
  let inlined := inlineBlocks templates depth root body.versions body.blocks
  if inlined.spliced = 0 then { body with blocks := inlined.blocks, versions := inlined.versions }
  else
    let joined := insertPhis inlined.exits inlined.versions (inlined.blocks.map refresh)
    { body with blocks := joined.blocks, versions := joined.versions }

def finish (body : Body) : List Piece × Nat := splitBlocks body.free body.blocks

end Body
end Reentrancy
