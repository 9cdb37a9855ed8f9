import Reentrancy.Proofs.Detector.Hits
import Reentrancy.Proofs.Ssa.Validity

/-! Detection by reachability. A write follows a call if it comes later in the same block or if
control can get from the block of the call to the block of the write; which piece of a block
holds them makes no difference. -/
namespace Reentrancy

section Pieces

variable {number : Nat} {blocks : List Block}

theorem Cut.pieces_flatten (cut : Cut) :
    (cut.pieces.map (·.instructions)).flatten = cut.block.instructions := by
  rw [← List.flatMap_def]
  exact cut.block.pieces_instructions cut.number

/-- Of two effects in a block the earlier one is in an earlier piece. -/
theorem Cut.pair_sublist_iff (cut : Cut) {call write : Instruction}
    (effect : call.isEffectful = true) :
    [call, write].Sublist cut.block.instructions ↔
      ∃ (first second : Nat) (one two : Piece), first < second ∧ cut.pieces[first]? = some one ∧
        cut.pieces[second]? = some two ∧ call ∈ one.instructions ∧ write ∈ two.instructions := by
  have quiet : ∀ run ∈ cut.pieces.map (·.instructions),
      ∀ instruction ∈ run.dropLast, instruction.isEffectful = false := by
    intro run member
    obtain ⟨piece, found, rfl⟩ := List.mem_map.mp member
    exact cut.block.pieces_quiet cut.number found
  rw [← cut.pieces_flatten, pair_sublist_flatten effect quiet]
  simp only [List.getElem?_map, Option.map_eq_some_iff]
  constructor
  · rintro ⟨i, j, _, _, before, ⟨one, here, rfl⟩, ⟨two, there, rfl⟩, inOne, inTwo⟩
    exact ⟨i, j, one, two, before, here, there, inOne, inTwo⟩
  · rintro ⟨i, j, one, two, before, here, there, inOne, inTwo⟩
    exact ⟨i, j, _, _, before, ⟨one, here, rfl⟩, ⟨two, there, rfl⟩, inOne, inTwo⟩

theorem Cut.mem_instructions {cut : Cut} {instruction : Instruction} :
    instruction ∈ cut.block.instructions ↔
      ∃ (index : Nat) (piece : Piece), cut.pieces[index]? = some piece ∧
        instruction ∈ piece.instructions := by
  rw [← cut.pieces_flatten, List.mem_flatten]
  constructor
  · rintro ⟨_, member, inside⟩
    obtain ⟨piece, found, rfl⟩ := List.mem_map.mp member
    obtain ⟨index, located⟩ := List.getElem?_of_mem found
    exact ⟨index, piece, located, inside⟩
  · rintro ⟨index, piece, located, inside⟩
    exact ⟨_, List.mem_map_of_mem (List.mem_of_getElem? located), inside⟩

theorem exists_piece {cut : Cut} (member : cut ∈ cutsFrom number blocks) {index : Nat}
    {piece : Piece} (located : cut.pieces[index]? = some piece) :
    ∃ position : Nat, (piecesFrom number blocks).1[position]? = some piece := by
  rw [piecesFrom_eq_flatMap]
  exact List.getElem?_of_mem (List.mem_flatMap.mpr ⟨cut, member, List.mem_of_getElem? located⟩)

theorem exists_place {position : Nat} {piece : Piece}
    (found : (piecesFrom number blocks).1[position]? = some piece) :
    ∃ cut ∈ cutsFrom number blocks, ∃ index : Nat, cut.pieces[index]? = some piece := by
  have member := List.mem_of_getElem? found
  rw [piecesFrom_eq_flatMap] at member
  obtain ⟨cut, inside, made⟩ := List.mem_flatMap.mp member
  exact ⟨cut, inside, List.getElem?_of_mem made⟩

theorem mem_redirect {ends : Table String} {piece : Piece} {instruction : Instruction}
    (effect : instruction.isEffectful = true) :
    instruction ∈ (piece.redirect ends).instructions ↔ instruction ∈ piece.instructions := by
  simp only [Piece.redirect, List.mem_map, Instruction.redirect_eq_iff effect, exists_eq_right]

end Pieces

def FollowsFlow (blocks : List Block) (call write : Instruction) : Prop :=
  (∃ block ∈ blocks, [call, write].Sublist block.instructions) ∨
    ∃ first ∈ blocks, ∃ second ∈ blocks, call ∈ first.instructions ∧ write ∈ second.instructions ∧
      Relation.TransGen (graphOf blocks).Links first.id second.id

section Exposure

variable {state : Names} {number : Nat} {blocks : List Block}

theorem exposure?_reachability_pieces (settled : Settled number blocks) :
    (exposure? .reachability state (splitBlocks number blocks).1).isSome = true ↔
      ∃ one ∈ cutsFrom number blocks, ∃ two ∈ cutsFrom number blocks,
        ∃ (first second : Nat) (here there : Piece) (call write : Instruction)
            (callee name : String),
          one.pieces[first]? = some here ∧ two.pieces[second]? = some there ∧
            call ∈ here.instructions ∧ write ∈ there.instructions ∧ call.Leaves callee ∧
              write.Writes state name ∧
                Relation.TransGen (pieceLinks number blocks) here.id there.id := by
  have closed := settled.pieces_closed
  have path {i j : Nat} {here there : Piece}
      (located : (piecesFrom number blocks).1[i]? = some here)
      (found : (piecesFrom number blocks).1[j]? = some there) :
      (pieceGraph (splitBlocks number blocks).1).Path i j ↔
        Relation.TransGen (pieceLinks number blocks) here.id there.id := by
    have source : (pieceGraph (piecesFrom number blocks).1)[i]? = some here.vertex := by
      simp [pieceGraph, located]
    have target : (pieceGraph (piecesFrom number blocks).1)[j]? = some there.vertex := by
      simp [pieceGraph, found]
    rw [pieceGraph_splitBlocks]
    exact closed.path_iff source target
  rw [exposure?_isSome]
  simp only [splitBlocks, List.getElem?_map, Option.map_eq_some_iff]
  constructor
  · rintro ⟨i, j, _, _, call, write, callee, name, follows, ⟨here, located, rfl⟩,
      ⟨there, found, rfl⟩, inHere, inThere, leaves, writes⟩
    obtain ⟨one, oneMember, first, here_eq⟩ := exists_place located
    obtain ⟨two, twoMember, second, there_eq⟩ := exists_place found
    exact ⟨one, oneMember, two, twoMember, first, second, here, there, call, write, callee, name,
      here_eq, there_eq, (mem_redirect leaves.isEffectful).mp inHere,
      (mem_redirect writes.isEffectful).mp inThere, leaves, writes, (path located found).mp follows⟩
  · rintro ⟨one, oneMember, two, twoMember, first, second, here, there, call, write, callee, name,
      here_eq, there_eq, inHere, inThere, leaves, writes, reach⟩
    obtain ⟨i, located⟩ := exists_piece oneMember here_eq
    obtain ⟨j, found⟩ := exists_piece twoMember there_eq
    exact ⟨i, j, _, _, call, write, callee, name, (path located found).mpr reach,
      ⟨here, located, rfl⟩, ⟨there, found, rfl⟩, (mem_redirect leaves.isEffectful).mpr inHere,
      (mem_redirect writes.isEffectful).mpr inThere, leaves, writes⟩

theorem exposure?_reachability_isSome (settled : Settled number blocks) :
    (exposure? .reachability state (splitBlocks number blocks).1).isSome = true ↔
      ∃ call write callee name, FollowsFlow blocks call write ∧ call.Leaves callee ∧
        write.Writes state name := by
  rw [exposure?_reachability_pieces settled]
  constructor
  · rintro ⟨one, oneMember, two, twoMember, first, second, here, there, call, write, callee, name,
      located, found, inHere, inThere, leaves, writes, reach⟩
    refine ⟨call, write, callee, name, ?_, leaves, writes⟩
    rcases (pieces_reach_iff settled.numbered oneMember twoMember located found).mp reach with
      ⟨rfl, before⟩ | path
    · refine .inl ⟨one.block, Cut.block_mem oneMember, ?_⟩
      exact (one.pair_sublist_iff leaves.isEffectful).mpr
        ⟨first, second, here, there, before, located, found, inHere, inThere⟩
    · exact .inr ⟨one.block, Cut.block_mem oneMember, two.block, Cut.block_mem twoMember,
        Cut.mem_instructions.mpr ⟨first, here, located, inHere⟩,
        Cut.mem_instructions.mpr ⟨second, there, found, inThere⟩, path⟩
  · rintro ⟨call, write, callee, name, follows, leaves, writes⟩
    rcases follows with ⟨block, member, pair⟩ | ⟨first, oneIn, second, twoIn, inOne, inTwo, path⟩
    · obtain ⟨cut, inside, rfl⟩ := exists_cut number member
      obtain ⟨i, j, here, there, before, located, found, inHere, inThere⟩ :=
        (cut.pair_sublist_iff leaves.isEffectful).mp pair
      exact ⟨cut, inside, cut, inside, i, j, here, there, call, write, callee, name, located, found,
        inHere, inThere, leaves, writes,
        (pieces_reach_iff settled.numbered inside inside located found).mpr (.inl ⟨rfl, before⟩)⟩
    · obtain ⟨one, oneMember, rfl⟩ := exists_cut number oneIn
      obtain ⟨two, twoMember, rfl⟩ := exists_cut number twoIn
      obtain ⟨i, here, located, inHere⟩ := Cut.mem_instructions.mp inOne
      obtain ⟨j, there, found, inThere⟩ := Cut.mem_instructions.mp inTwo
      exact ⟨one, oneMember, two, twoMember, i, j, here, there, call, write, callee, name, located,
        found, inHere, inThere, leaves, writes,
        (pieces_reach_iff settled.numbered oneMember twoMember located found).mpr (.inr path)⟩

theorem followsFlow_iff (settled : Settled number blocks) {call write : Instruction} :
    FollowsFlow blocks call write ↔
      ∃ (i j k l : Nat) (first second : Block), blocks[i]? = some first ∧
        blocks[j]? = some second ∧ first.instructions[k]? = some call ∧
          second.instructions[l]? = some write ∧ (i = j ∧ k < l ∨ (graphOf blocks).Path i j) := by
  have path {i j : Nat} {first second : Block} (located : blocks[i]? = some first)
      (found : blocks[j]? = some second) :
      (graphOf blocks).Path i j ↔
        Relation.TransGen (graphOf blocks).Links first.id second.id := by
    have source : (graphOf blocks)[i]? = some first.vertex := by simp [graphOf, located]
    have target : (graphOf blocks)[j]? = some second.vertex := by simp [graphOf, found]
    exact settled.closed.path_iff source target
  constructor
  · rintro (⟨block, member, pair⟩ | ⟨first, oneIn, second, twoIn, inOne, inTwo, links⟩)
    · obtain ⟨i, located⟩ := List.getElem?_of_mem member
      obtain ⟨k, l, before, here, there⟩ := pair_sublist_iff.mp pair
      exact ⟨i, i, k, l, block, block, located, located, here, there, .inl ⟨rfl, before⟩⟩
    · obtain ⟨i, located⟩ := List.getElem?_of_mem oneIn
      obtain ⟨j, found⟩ := List.getElem?_of_mem twoIn
      obtain ⟨k, here⟩ := List.getElem?_of_mem inOne
      obtain ⟨l, there⟩ := List.getElem?_of_mem inTwo
      exact ⟨i, j, k, l, first, second, located, found, here, there,
        .inr ((path located found).mpr links)⟩
  · rintro ⟨i, j, k, l, first, second, located, found, here, there, ⟨rfl, before⟩ | links⟩
    · obtain rfl := Option.some.inj (located.symm.trans found)
      exact .inl ⟨first, List.mem_of_getElem? located,
        pair_sublist_iff.mpr ⟨k, l, before, here, there⟩⟩
    · exact .inr ⟨first, List.mem_of_getElem? located, second, List.mem_of_getElem? found,
        List.mem_of_getElem? here, List.mem_of_getElem? there, (path located found).mp links⟩

end Exposure

/-- Detection by reachability is exact at the level of instructions: a function is reported
exactly if a write to a state variable comes later in the block of an external call, or in a
block that control reaches from there along at least one edge. -/
theorem Detector.check_reachability_iff (scope : Scope) (statements : List Statement)
    (templates : Table Template) (depth : Nat) (root : String) (state : Names)
    (contract function : String) (modifiers : List String) :
    let body := (Body.build scope statements).inline templates depth root
    (Detector.check { mode := .reachability } state contract function modifiers
        body.finish.1).isSome = true ↔
      ∃ (i j k l : Nat) (first second : Block) (call write : Instruction) (callee name : String),
        body.blocks[i]? = some first ∧ body.blocks[j]? = some second ∧
          first.instructions[k]? = some call ∧ second.instructions[l]? = some write ∧
            call.Leaves callee ∧ write.Writes state name ∧
              (i = j ∧ k < l ∨ (graphOf body.blocks).Path i j) := by
  intro body
  have settled : Settled body.free body.blocks :=
    Body.inline_settled scope statements templates depth root
  have check : (Detector.check { mode := .reachability } state contract function modifiers
      body.finish.1).isSome =
        (exposure? .reachability state (splitBlocks body.free body.blocks).1).isSome :=
    Option.isSome_map
  rw [check, exposure?_reachability_isSome settled]
  simp only [followsFlow_iff settled]
  constructor
  · rintro ⟨call, write, callee, name, ⟨i, j, k, l, first, second, located, found, here, there,
      follows⟩, leaves, writes⟩
    exact ⟨i, j, k, l, first, second, call, write, callee, name, located, found, here, there,
      leaves, writes, follows⟩
  · rintro ⟨i, j, k, l, first, second, call, write, callee, name, located, found, here, there,
      leaves, writes, follows⟩
    exact ⟨call, write, callee, name, ⟨i, j, k, l, first, second, located, found, here, there,
      follows⟩, leaves, writes⟩

end Reentrancy
