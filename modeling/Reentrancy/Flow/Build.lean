import Reentrancy.Flow.Block
import Reentrancy.Flow.Cut

/-! A body cut into blocks. Control flow, returns and events end a block, and so do calls,
assignments and declarations: whatever has an effect is the last statement of its block. -/
namespace Reentrancy

def Statement.endsBlock (statement : Statement) : Bool :=
  statement.kind.alwaysSplits || statement.kind.isEffectful

/-- Numbers the runs from `number` on and links each to the next; the last stays open. -/
def linkBlocks (number : Nat) : List (List Statement) → List Block
  | [] => []
  | [last] => [{ id := blockId number, statements := last, exit := Exit.closing last .pending }]
  | run :: rest =>
    { id := blockId number, statements := run,
      exit := Exit.closing run (.goto (blockId (number + 1))) } :: linkBlocks (number + 1) rest

def buildBlocks (number : Nat) (body : List Statement) : List Block × Nat :=
  let runs := cutAfter Statement.endsBlock body
  (linkBlocks number runs, number + runs.length)

end Reentrancy
