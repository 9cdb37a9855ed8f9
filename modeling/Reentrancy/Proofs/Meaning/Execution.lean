import Reentrancy.Proofs.Flow.Straight
import Reentrancy.Proofs.Meaning.Scalar
import Reentrancy.Proofs.Ssa.Splitting
import Reentrancy.Ssa.Body

/-! Execution of scalar instructions. An environment holds a value for every version of every
name; a finished function is executed from its first piece along its jumps. -/
namespace Reentrancy

abbrev Env (D : Type) := Variable → D

variable {D : Type} (meaning : Meaning D)

/-- Only scalar values can be evaluated. -/
def Value.eval (env : Env D) : Value → Option D
  | var read => some (env read)
  | literal text => some (meaning.literal text)
  | binary operator left right => do
    return meaning.binary operator (← left.eval env) (← right.eval env)
  | unary operator operand => do return meaning.unary operator (← operand.eval env)
  | apply .. | tuple .. | choice .. | raw .. => none

def Assignment.result (env : Env D) (assignment : Assignment) : Option D :=
  match assignment.previous, assignment.operator with
  | some previous, some operator => do
    return meaning.binary operator (env previous) (← assignment.value.eval meaning env)
  | _, _ => assignment.value.eval meaning env

namespace Instruction

/-- Only what scalar code is made of can be executed: assignments to a single variable, calls
without operands, and expressions. -/
def run (env : Env D) : Instruction → Option (Env D)
  | assign assignment =>
    if assignment.implied.isEmpty then
      (assignment.result meaning env).map (Function.update env assignment.target)
    else none
  | call operation =>
    if operation.receiver.isNone && operation.options.isEmpty && operation.arguments.isEmpty then
      some (Function.update env operation.result (meaning.result operation.callee))
    else none
  | expression value => (value.eval meaning env).map fun _ => env
  | condition _ | ret _ | emit .. | phi .. | raw _ => none

def runAll : List Instruction → Env D → Option (Env D)
  | [], env => some env
  | first :: rest, env => (first.run meaning env).bind (runAll rest)

theorem runAll_append (first second : List Instruction) (env : Env D) :
    runAll meaning (first ++ second) env =
      (runAll meaning first env).bind (runAll meaning second) := by
  induction first generalizing env with
  | nil => rfl
  | cons head rest ih =>
    rw [List.cons_append, runAll, runAll, Option.bind_assoc]
    congr
    funext after
    exact ih after

end Instruction

def executeFrom (pieces : List Piece) : Nat → String → Env D → Option (Env D)
  | 0, _, _ => none
  | count + 1, id, env => do
    let piece ← pieces.find? fun piece => piece.id == id
    let after ← Instruction.runAll meaning piece.instructions env
    match piece.exit with
    | .goto target => executeFrom pieces count target after
    | .ret => some after
    | _ => none

/-- Executes a function from its first piece to a return; no piece of scalar code is executed
twice. -/
def execute (pieces : List Piece) (env : Env D) : Option (Env D) :=
  match pieces with
  | [] => some env
  | first :: _ => executeFrom meaning pieces pieces.length first.id env

section Chain

variable {pieces front rest : List Piece} {first : Piece}

theorem find?_piece (distinct : (pieces.map (·.id)).Nodup)
    (split : pieces = front ++ first :: rest) :
    pieces.find? (fun piece => piece.id == first.id) = some first := by
  rw [List.find?_eq_some_iff_append]
  refine ⟨by simp, front, rest, split, fun piece member => ?_⟩
  rw [split, List.map_append, List.nodup_append] at distinct
  simpa using distinct.2.2 _ (List.mem_map_of_mem member) _ List.mem_cons_self

theorem executeFrom_chain (distinct : (pieces.map (·.id)).Nodup)
    (split : pieces = front ++ first :: rest) (chain : (pieceGraph (first :: rest)).Chain)
    (env : Env D) :
    executeFrom meaning pieces (first :: rest).length first.id env =
      Instruction.runAll meaning ((first :: rest).flatMap (·.instructions)) env := by
  have found := find?_piece distinct split
  rw [List.length_cons, executeFrom, found, List.flatMap_cons, Instruction.runAll_append]
  change (Instruction.runAll meaning first.instructions env).bind _ = _
  congr
  funext after
  induction rest generalizing front first after with
  | nil =>
    have leaves : first.exit = .ret := chain.1
    rw [leaves]
    rfl
  | cons next others ih =>
    have leaves : first.exit = .goto next.id := chain.1
    have here : pieces = (front ++ [first]) ++ next :: others := by simp [split]
    have located := find?_piece distinct here
    rw [leaves]
    dsimp only
    rw [List.length_cons, executeFrom, located, List.flatMap_cons, Instruction.runAll_append]
    change (Instruction.runAll meaning next.instructions after).bind _ = _
    congr
    funext last
    exact ih here chain.2 located last

theorem execute_chain (distinct : (pieces.map (·.id)).Nodup) (chain : (pieceGraph pieces).Chain)
    (env : Env D) :
    execute meaning pieces env =
      Instruction.runAll meaning (pieces.flatMap (·.instructions)) env := by
  cases pieces with
  | nil => rfl
  | cons first rest =>
    have split : first :: rest = [] ++ first :: rest := rfl
    exact executeFrom_chain meaning distinct split chain env

end Chain

section Pieces

theorem linkPieces_chain (id : String) (number : Nat) (run : List Instruction)
    (rest : List (List Instruction)) {after : Graph} (chain : after.Chain) :
    (pieceGraph (linkPieces id number (Exit.into after) (run :: rest)) ++ after).Chain := by
  induction rest generalizing id number run with
  | nil => exact ⟨rfl, chain⟩
  | cons next others ih =>
    rw [linkPieces_cons_cons]
    refine ⟨?_, ih (blockId number) (number + 1) next⟩
    cases others with
    | nil => rfl
    | cons third more => rfl

theorem piecesFrom_chain (number : Nat) {blocks : List Block} (chain : (graphOf blocks).Chain) :
    (pieceGraph (piecesFrom number blocks).1).Chain ∧
      Exit.into (pieceGraph (piecesFrom number blocks).1) = Exit.into (graphOf blocks) := by
  induction blocks generalizing number with
  | nil => exact ⟨trivial, rfl⟩
  | cons block rest ih =>
    obtain ⟨leads, later⟩ := chain
    obtain ⟨inner, same⟩ := ih (block.pieces number).2 later
    obtain ⟨run, others, _, pieces⟩ := block.pieces_eq number
    have exit : block.exit = Exit.into (pieceGraph (piecesFrom (block.pieces number).2 rest).1) :=
      leads.trans same.symm
    have linked := linkPieces_chain block.id number run others inner
    rw [← exit] at linked
    obtain ⟨first, located, named⟩ := linkPieces_first block.id number block.exit run others
    rw [piecesFrom, pieceGraph_append, pieces]
    rw [pieces] at linked
    refine ⟨linked, ?_⟩
    cases made : linkPieces block.id number block.exit (run :: others) with
    | nil => simp [made] at located
    | cons head tail =>
      rw [made] at located
      obtain rfl := Option.some.inj located
      exact congrArg Exit.goto named

end Pieces

theorem redirect_of_noPhi (ends : Table String) {instructions : List Instruction}
    (noPhi : ∀ instruction ∈ instructions, instruction.isPhi = false) :
    instructions.map (Instruction.redirect ends) = instructions := by
  have same : ∀ instruction ∈ instructions, instruction.redirect ends = id instruction := by
    intro instruction member
    have plain := noPhi instruction member
    cases instruction with
    | phi => cases plain
    | _ => rfl
  rw [List.map_congr_left same, List.map_id]

theorem Body.execute_finish {body : Body} (settled : Settled body.free body.blocks)
    (chain : (graphOf body.blocks).Chain)
    (noPhi : ∀ instruction ∈ instructionsOf body.blocks, instruction.isPhi = false)
    (env : Env D) :
    execute meaning body.finish.1 env =
      Instruction.runAll meaning (instructionsOf body.blocks) env := by
  have flow : pieceGraph body.finish.1 = pieceGraph (piecesFrom body.free body.blocks).1 :=
    pieceGraph_splitBlocks body.free body.blocks
  have distinct : (body.finish.1.map (·.id)).Nodup := by
    have ids : body.finish.1.map (·.id) = (pieceGraph body.finish.1).ids := by
      simp [pieceGraph, Graph.ids, Piece.vertex]
    rw [ids, flow]
    exact settled.pieces_closed.distinct
  have linked : (pieceGraph body.finish.1).Chain :=
    flow ▸ (piecesFrom_chain body.free chain).1
  obtain ⟨ends, flat⟩ := splitBlocks_instructions body.free body.blocks
  rw [execute_chain meaning distinct linked, Body.finish, flat, redirect_of_noPhi ends noPhi]

end Reentrancy
