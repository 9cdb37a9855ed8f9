import Reentrancy.Flow.Build

/-! Blocks that end in a branch or in a loop that tests first become several blocks.

    if:     test -> yes | no -> next
    for:    init -> header -> body -> increment -> header | exit -> next
    while:  init -> header -> body -> header | exit -> next

Bodies are not refined again: what they nest is handled statement by statement. -/
namespace Reentrancy

namespace Block

def continuation (block : Block) : Option String :=
  match block.exit with
  | .goto target => some target
  | _ => none

def ofBody (id : String) (body : List Statement) (next : Exit) : Block :=
  { id, statements := body, exit := Exit.closing body next }

/-- A test that is not there always holds. -/
def testOf : Expression → Expression
  | .missing => .literal { value := some "true" }
  | condition => condition

def refineBranch (block : Block) (number : Nat) (condition : Expression)
    (yes no : List Statement) : List Block :=
  let next := Exit.gotoOrPending block.continuation
  [{ block with exit := .branch (testOf condition) (blockId number) (blockId (number + 1)) },
    { ofBody (blockId number) yes next with side := some true },
    { ofBody (blockId (number + 1)) no next with side := some false }]

def loopHeader (id : String) (loop : Statement) (condition : Expression) (body exit : String) :
    Block :=
  { id, statements := [loop], role := some .header, exit := .branch (testOf condition) body exit }

def loopExit (block : Block) (id : String) : Block :=
  { id, role := some .exit, exit := Exit.gotoOrPending block.continuation }

def loopInit (block : Block) (start : List Statement) (header : String) : Block :=
  { block with
    statements := block.statements.dropLast ++ start
    role := some .init
    exit := .goto header }

def refineFor (block : Block) (number : Nat) (loop : Statement) (start : List Statement)
    (condition : Expression) (step body : List Statement) : List Block :=
  let header := blockId number
  let inner := blockId (number + 1)
  let increment := blockId (number + 2)
  let exit := blockId (number + 3)
  [block.loopInit start header,
    loopHeader header loop condition inner exit,
    { ofBody inner body (.goto increment) with role := some .body },
    { id := increment, statements := step, role := some .increment, exit := .goto header },
    block.loopExit exit]

def refineWhile (block : Block) (number : Nat) (loop : Statement) (condition : Expression)
    (body : List Statement) : List Block :=
  let header := blockId number
  let inner := blockId (number + 1)
  let exit := blockId (number + 2)
  [block.loopInit [] header,
    loopHeader header loop condition inner exit,
    { ofBody inner body (.goto header) with role := some .body },
    block.loopExit exit]

def refine (block : Block) (number : Nat) : List Block × Nat :=
  match block.statements.getLast? with
  | some (.branch condition yes no) => (block.refineBranch number condition yes no, number + 2)
  | some (.forLoop start condition step body counters) =>
    (block.refineFor number (.forLoop start condition step body counters) start condition step body,
      number + 4)
  | some (.whileLoop condition body counters) =>
    (block.refineWhile number (.whileLoop condition body counters) condition body, number + 3)
  | _ => ([block], number)

end Block

def refineBlocks (number : Nat) : List Block → List Block × Nat
  | [] => ([], number)
  | block :: rest =>
    let (first, next) := block.refine number
    let (others, last) := refineBlocks next rest
    (first ++ others, last)

end Reentrancy
