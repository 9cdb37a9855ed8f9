import Reentrancy.Proofs.Detector.Reachability
import Reentrancy.Proofs.Flow.Rings
import Reentrancy.Proofs.Inline.Depth
import Reentrancy.Proofs.Inline.Insertion

/-! Effects inside a loop. No pass moves or links blocks, so the ring of a loop goes through all of
them, and every piece of it is reached from every piece of it. By reachability, then, a write
follows a call of the same loop whichever stands first. -/
namespace Reentrancy

def Block.scaffold (block : Block) : Block :=
  { block with accesses := {}, versions := {}, instructions := [] }

section Passes

theorem scaffolds_of_shells {blocks others : List Block}
    (same : blocks.map Block.shell = others.map Block.shell) :
    blocks.map Block.scaffold = others.map Block.scaffold := by
  have kept := congrArg (List.map Block.scaffold) same
  rwa [List.map_map, List.map_map] at kept

theorem Body.scaffolds_inline (body : Body) (templates : Table Template) (depth : Nat)
    (root : String) :
    (body.inline templates depth root).blocks.map Block.scaffold =
      body.blocks.map Block.scaffold := by
  rcases body.inline_cases templates depth root with same | joined
  · rw [same]
  · rw [joined]
    have refreshed : ((body.expanded templates depth root).blocks.map refresh).map Block.scaffold =
        (body.expanded templates depth root).blocks.map Block.scaffold := List.map_map
    calc _ = ((body.expanded templates depth root).blocks.map refresh).map Block.scaffold :=
        scaffolds_of_shells (shells_joinFrom ..)
      _ = (body.expanded templates depth root).blocks.map Block.scaffold := refreshed
      _ = body.blocks.map Block.scaffold := scaffolds_of_shells (shells_inlineFrom ..)

variable {blocks others : List Block} {loop : Statement} {bodies : List (List Statement)}
  {index : Nat} {header : Block} {round : List Block}

theorem RingAt.of_scaffolds (same : blocks.map Block.scaffold = others.map Block.scaffold)
    (ring : RingAt blocks loop bodies index header round) :
    ∃ header round, RingAt others loop bodies index header round := by
  have slice : ((others.drop index).take (bodies.length + 1)).map Block.scaffold =
      (header :: round).map Block.scaffold := by
    rw [List.map_take, List.map_drop, ← same, ← List.map_drop, ← List.map_take, ring.listed]
  obtain ⟨head, rest, listed, asHeader, asRound⟩ := List.map_eq_cons_iff.mp slice
  refine ⟨head, rest, listed, ?_, ?_, ?_, ?_⟩
  · exact (congrArg Block.role asHeader).trans ring.role
  · exact (congrArg Block.statements asHeader).trans ring.holds
  · have texts := congrArg (List.map Block.statements) asRound
    rw [List.map_map, List.map_map] at texts
    exact texts.trans ring.runs
  · have closed : (head :: rest ++ [head]).map Block.scaffold =
        (header :: round ++ [header]).map Block.scaffold := by
      simp [asHeader, asRound]
    have leads : List.IsChain Block.Leads ((header :: round ++ [header]).map Block.scaffold) :=
      (List.isChain_map Block.scaffold).mpr ring.leads
    rw [← closed] at leads
    exact (List.isChain_map Block.scaffold).mp leads

end Passes

section Rings

variable {blocks : List Block} {loop : Statement} {bodies : List (List Statement)} {index : Nat}
  {header : Block} {round : List Block} (ring : RingAt blocks loop bodies index header round)

include ring

theorem RingAt.mem_blocks {block : Block} (member : block ∈ header :: round) : block ∈ blocks := by
  rw [← ring.listed] at member
  exact List.mem_of_mem_drop (List.mem_of_mem_take member)

theorem RingAt.mem_of_located {place : Nat} {block : Block} (located : blocks[place]? = some block)
    (above : index ≤ place) (below : place < index + bodies.length + 1) :
    block ∈ header :: round := by
  obtain ⟨offset, rfl⟩ := Nat.exists_eq_add_of_le above
  rw [← ring.listed]
  have found : ((blocks.drop index).take (bodies.length + 1))[offset]? = some block := by
    rw [List.getElem?_take_of_lt (by omega), List.getElem?_drop]
    exact located
  exact List.mem_of_getElem? found

theorem RingAt.reaches {one two : Block} (left : one ∈ header :: round)
    (right : two ∈ header :: round) :
    Relation.TransGen (graphOf blocks).Links one.id two.id := by
  let reach (one two : Block) : Prop := Relation.TransGen (graphOf blocks).Links one.id two.id
  have : Trans reach reach reach := ⟨fun first second => first.trans second⟩
  have chain : List.IsChain reach (header :: round ++ [header]) := by
    refine ring.leads.imp_of_mem_imp fun first second member _ leads => .single ?_
    have inside : first ∈ header :: round := by
      rcases List.mem_append.mp member with inner | closing
      · exact inner
      · exact List.mem_singleton.mp closing ▸ List.mem_cons_self
    exact ⟨first.vertex, List.mem_map_of_mem (ring.mem_blocks inside), rfl, leads⟩
  obtain ⟨ordered, _, back⟩ := List.pairwise_append.mp (List.isChain_iff_pairwise.mp chain)
  have home : reach one header := back one left header (List.mem_singleton_self header)
  rcases List.mem_cons.mp right with rfl | later
  · exact home
  · exact home.trans (List.rel_of_pairwise_cons ordered later)

end Rings

/-- One of the positions that the pieces of the blocks from `first` up to `last` have. -/
def PieceOf (blocks : List Block) (first last position : Nat) : Prop :=
  pieceStart blocks first ≤ position ∧ position < pieceStart blocks last

section Pieces

variable {number : Nat} {blocks : List Block}

theorem PieceOf.exists_cut {first last position : Nat}
    (within : PieceOf blocks first last position) (number : Nat) :
    ∃ (place : Nat) (cut : Cut) (offset : Nat) (piece : Piece),
      (piecesFrom number blocks).1[position]? = some piece ∧ first ≤ place ∧ place < last ∧
      cut ∈ cutsFrom number blocks ∧ blocks[place]? = some cut.block ∧
      cut.pieces[offset]? = some piece := by
  obtain ⟨above, below⟩ := within
  have bound : position < (piecesFrom number blocks).1.length := by
    rw [← pieceStart_eq number] at below
    rw [piecesFrom_eq_flatMap]
    exact Nat.lt_of_lt_of_le below (((List.take_sublist _ _).flatMap _).length_le)
  have found := List.getElem?_eq_getElem bound
  obtain ⟨place, cut, offset, located, block, inside, start⟩ := exists_cut_at found
  have ends := (List.getElem?_eq_some_iff.mp inside).1
  rw [Cut.pieces_length] at ends
  have next := pieceStart_succ block
  refine ⟨place, cut, offset, _, found, ?_, ?_, List.mem_of_getElem? located, block, inside⟩
  · by_contra early
    have far : pieceStart blocks (place + 1) ≤ pieceStart blocks first :=
      pieceStart_mono (by omega)
    omega
  · by_contra late
    have far : pieceStart blocks last ≤ pieceStart blocks place := pieceStart_mono (by omega)
    omega

variable {loop : Statement} {bodies : List (List Statement)} {index : Nat} {header : Block}
  {round : List Block} (ring : RingAt blocks loop bodies index header round)
  (settled : Settled number blocks)

include ring settled

theorem RingAt.pieces_reach {one two : Nat}
    (left : PieceOf blocks index (index + bodies.length + 1) one)
    (right : PieceOf blocks index (index + bodies.length + 1) two) :
    (pieceGraph (splitBlocks number blocks).1).Path one two := by
  obtain ⟨_, source, _, here, hereAt, low, high, sourceIn, sourceAt, hereIn⟩ :=
    left.exists_cut number
  obtain ⟨_, target, _, there, thereAt, low', high', targetIn, targetAt, thereIn⟩ :=
    right.exists_cut number
  have across := ring.reaches (ring.mem_of_located sourceAt low high)
    (ring.mem_of_located targetAt low' high')
  have path := pieceLinks_across settled.numbered sourceIn targetIn hereIn thereIn across
  have vertexAt {place : Nat} {piece : Piece}
      (found : (piecesFrom number blocks).1[place]? = some piece) :
      (pieceGraph (piecesFrom number blocks).1)[place]? = some piece.vertex := by
    simp [pieceGraph, found]
  rw [pieceGraph_splitBlocks]
  exact (settled.pieces_closed.path_iff (vertexAt hereAt) (vertexAt thereAt)).mpr path

theorem RingAt.exposed {state : Names} {call write : Instruction} {callee name : String}
    (called : call ∈ instructionsOf (header :: round))
    (written : write ∈ instructionsOf (header :: round)) (leaves : call.Leaves callee)
    (writes : write.Writes state name) :
    (exposure? .reachability state (splitBlocks number blocks).1).isSome = true := by
  obtain ⟨one, oneIn, inOne⟩ := List.mem_flatMap.mp called
  obtain ⟨two, twoIn, inTwo⟩ := List.mem_flatMap.mp written
  refine (exposure?_reachability_isSome settled).mpr ⟨call, write, callee, name, ?_, leaves, writes⟩
  exact .inr ⟨one, ring.mem_blocks oneIn, two, ring.mem_blocks twoIn, inOne, inTwo,
    ring.reaches oneIn twoIn⟩

end Pieces

/-- Every loop of a body that is not left at the end of its body is a ring of blocks, also after
expansion. All pieces of these blocks reach each other and themselves along at least one edge, so
by reachability an external call and a write to a state variable in them are always reported. -/
theorem loop_effects_found (scope : Scope) (statements : List Statement) (body : Body)
    (made : body = Body.build scope statements ∨ ∃ templates depth root,
      body = (Body.build scope statements).inline templates depth root)
    {front rest : List Statement} {loop : Statement} {bodies : List (List Statement)}
    (split : statements = front ++ loop :: rest) (repeats : loop.Repeats bodies) :
    ∃ index header round, RingAt body.blocks loop bodies index header round ∧
      ((body.blocks.take index).filter Block.isHeader).length =
        (front.filter (·.kind.isLoop)).length ∧
      (∀ one two, PieceOf body.blocks index (index + bodies.length + 1) one →
        PieceOf body.blocks index (index + bodies.length + 1) two →
          (pieceGraph body.finish.1).Path one two) ∧
      ∀ state contract function modifiers call write callee name,
        call ∈ instructionsOf (header :: round) → write ∈ instructionsOf (header :: round) →
          Instruction.Leaves call callee → Instruction.Writes state write name →
            (Detector.check { mode := .reachability } state contract function modifiers
              body.finish.1).isSome = true := by
  obtain ⟨templates, depth, root, rfl⟩ : ∃ templates depth root,
      body = (Body.build scope statements).inline templates depth root := by
    rcases made with rfl | expanded
    · exact ⟨Table.empty, 0, "", (Body.inline_idle _ _ _ rfl).symm⟩
    · exact expanded
  let body := (Body.build scope statements).inline templates depth root
  have settled : Settled body.free body.blocks :=
    Body.inline_settled scope statements templates depth root
  have scaffolds : body.blocks.map Block.scaffold =
      (flowBlocks statements).1.map Block.scaffold :=
    (Body.scaffolds_inline ..).trans (scaffolds_of_shells (Body.shells_build scope statements))
  obtain ⟨index, _, _, raw, count⟩ := exists_ring split repeats
  obtain ⟨header, round, ring⟩ := raw.of_scaffolds scaffolds.symm
  refine ⟨index, header, round, ring, ?_, fun _ _ => ring.pieces_reach settled, ?_⟩
  · have headers (blocks : List Block) : (blocks.filter Block.isHeader).length =
        ((blocks.map Block.scaffold).filter Block.isHeader).length := by
      rw [List.filter_map, List.length_map]
      rfl
    rw [headers, List.map_take, scaffolds, ← List.map_take, ← headers]
    exact count
  · intro state contract function modifiers call write callee name called written leaves writes
    exact Option.isSome_map.trans (ring.exposed settled called written leaves writes)

open Snippet in
/-- In `while (c) { x = 1; msg.sender.call(1); }` the write comes first, but the next round makes it
follow the call. -/
theorem write_before_call_found :
    let loop := Statement.whileLoop (named "c") [sets (named "x") one, sends] []
    let body := Body.build {} [loop]
    ∃ header round, RingAt body.blocks loop [[sets (named "x") one, sends]] 1 header round ∧
      (∀ one two, PieceOf body.blocks 1 3 one → PieceOf body.blocks 1 3 two →
        (pieceGraph body.finish.1).Path one two) ∧
      (Detector.check { mode := .reachability } (Names.ofList ["x"]) "C" "f" []
        body.finish.1).isSome = true := by
  intro loop body
  have repeats : loop.Repeats [[sets (named "x") one, sends]] := by
    refine .whileLoop (named "c") [] fun last found => ?_
    obtain rfl := Option.some.inj found
    exact ⟨by decide, rfl⟩
  have split : [loop] = [] ++ loop :: [] := rfl
  obtain ⟨index, header, round, ring, _, reach, found⟩ :=
    loop_effects_found {} [loop] body (.inl rfl) split repeats
  have size : body.blocks.length = 4 := by decide +kernel
  have only : ∀ place < 4, ((body.blocks.drop place).head?).any Block.isHeader = true →
      place = 1 := by decide +kernel
  have starts : (body.blocks.drop index).head? = some header := by
    have listed := congrArg List.head? ring.listed
    rwa [List.head?_take, if_neg (Nat.succ_ne_zero _)] at listed
  obtain rfl : index = 1 := by
    refine only index ?_ ?_
    · by_contra outside
      rw [List.drop_eq_nil_of_le (by omega)] at starts
      cases starts
    · rw [starts]
      simp [Block.isHeader, ring.role]
  have calls : (instructionsOf ((body.blocks.drop 1).take 2)).any
      (fun instruction => instruction.externalCallee?.isSome) = true := by decide +kernel
  have writes : (instructionsOf ((body.blocks.drop 1).take 2)).any
      (fun instruction => (instruction.stateWrite? (Names.ofList ["x"])).isSome) = true := by
    decide +kernel
  rw [show (body.blocks.drop 1).take 2 = header :: round from ring.listed] at calls writes
  obtain ⟨call, called, leaves⟩ := List.any_eq_true.mp calls
  obtain ⟨callee, leaves⟩ := Option.isSome_iff_exists.mp leaves
  obtain ⟨write, written, changes⟩ := List.any_eq_true.mp writes
  obtain ⟨name, changes⟩ := Option.isSome_iff_exists.mp changes
  refine ⟨header, round, ring, reach, ?_⟩
  exact found (Names.ofList ["x"]) "C" "f" [] call write callee name called written
    (Instruction.externalCallee?_eq_some.mp leaves) (Instruction.stateWrite?_eq_some.mp changes)

end Reentrancy
