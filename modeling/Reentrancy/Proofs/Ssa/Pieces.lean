import Reentrancy.Proofs.Flow.Cut
import Reentrancy.Proofs.Flow.Ids
import Reentrancy.Proofs.Ssa.Phi
import Reentrancy.Ssa.Piece

/-! Pieces hold the instructions of their blocks, in order, and only the last instruction of a
piece has an effect. Control enters a block at its first piece, which holds the phis, and leaves it
at its last one. -/
namespace Reentrancy

theorem runsOf_flatten (instructions : List Instruction) :
    (runsOf instructions).flatten = instructions := by
  have flat := cutAfter_flatten Instruction.isEffectful instructions
  unfold runsOf
  split
  next empty => simpa [empty] using flat
  next => exact flat

theorem runsOf_ne_nil (instructions : List Instruction) : runsOf instructions ≠ [] := by
  unfold runsOf
  split
  · simp
  next empty => exact fun none => empty none

theorem runsOf_tail (instructions : List Instruction) :
    (runsOf instructions).tail = (cutAfter Instruction.isEffectful instructions).tail := by
  unfold runsOf
  split
  next empty => rw [empty, List.tail_cons, List.tail_nil]
  next => rfl

theorem linkPieces_instructions (id : String) (number : Nat) (exit : Exit)
    (runs : List (List Instruction)) :
    (linkPieces id number exit runs).flatMap (·.instructions) = runs.flatten := by
  induction runs generalizing id number with
  | nil => rfl
  | cons run rest ih =>
    cases rest with
    | nil => simp [linkPieces]
    | cons next others => simp [linkPieces, ih]

theorem Block.pieces_instructions (block : Block) (number : Nat) :
    (block.pieces number).1.flatMap (·.instructions) = block.instructions := by
  rw [pieces, linkPieces_instructions, runsOf_flatten]

theorem piecesFrom_instructions (number : Nat) (blocks : List Block) :
    (piecesFrom number blocks).1.flatMap (·.instructions) = instructionsOf blocks := by
  induction blocks generalizing number with
  | nil => rfl
  | cons block rest ih =>
    simp only [piecesFrom, List.flatMap_append, Block.pieces_instructions, ih, instructionsOf,
      List.flatMap_cons]

theorem splitBlocks_instructions (number : Nat) (blocks : List Block) :
    ∃ ends, (splitBlocks number blocks).1.flatMap (·.instructions) =
      (instructionsOf blocks).map (Instruction.redirect ends) := by
  refine ⟨Table.ofList (piecesFrom number blocks).2.1, ?_⟩
  rw [← piecesFrom_instructions number blocks, List.map_flatMap]
  simp only [splitBlocks, List.flatMap_map, Piece.redirect]

namespace Instruction

theorem isEffectful_of_isPhi {instruction : Instruction} (phi : instruction.isPhi = true) :
    instruction.isEffectful = false := by
  cases instruction with
  | phi => rfl
  | _ => cases phi

@[simp] theorem isPhi_redirect (ends : Table String) (instruction : Instruction) :
    (instruction.redirect ends).isPhi = instruction.isPhi := by
  cases instruction <;> rfl

@[simp] theorem isEffectful_redirect (ends : Table String) (instruction : Instruction) :
    (instruction.redirect ends).isEffectful = instruction.isEffectful := by
  cases instruction <;> rfl

@[simp] theorem defs_redirect (ends : Table String) (instruction : Instruction) :
    (instruction.redirect ends).defs = instruction.defs := by
  cases instruction <;> rfl

end Instruction

theorem plainDefs_redirect (ends : Table String) (instructions : List Instruction) :
    plainDefs (instructions.map (Instruction.redirect ends)) = plainDefs instructions := by
  simp [plainDefs, List.filter_map, Function.comp_def, List.flatMap_map]

theorem phiDefs_redirect (ends : Table String) (instructions : List Instruction) :
    phiDefs (instructions.map (Instruction.redirect ends)) = phiDefs instructions := by
  simp [phiDefs, List.filter_map, Function.comp_def, List.flatMap_map]

section Links

variable (number : Nat) (exit : Exit)

theorem linkPieces_ids (id : String) (run : List Instruction) (rest : List (List Instruction)) :
    (pieceGraph (linkPieces id number exit (run :: rest))).ids =
      id :: numberedIds number rest.length := by
  induction rest generalizing id number run with
  | nil => rfl
  | cons next others ih =>
    exact congrArg (id :: ·) (ih (number + 1) (blockId number) next)

theorem linkPieces_exit {piece : Piece} (id : String) (run : List Instruction)
    (rest : List (List Instruction)) (member : piece ∈ linkPieces id number exit (run :: rest)) :
    piece.exit = exit ∨
      ∃ target ∈ numberedIds number rest.length, piece.exit = .goto target := by
  induction rest generalizing id number run with
  | nil =>
    obtain rfl := List.mem_singleton.mp member
    exact .inl rfl
  | cons next others ih =>
    rcases List.mem_cons.mp member with rfl | later
    · exact .inr ⟨blockId number, List.mem_cons_self, rfl⟩
    · rcases ih (number + 1) (blockId number) next later with left | ⟨target, inside, leads⟩
      · exact .inl left
      · exact .inr ⟨target, List.mem_cons_of_mem _ inside, leads⟩

theorem linkPieces_last (id : String) (run : List Instruction) (rest : List (List Instruction)) :
    ∃ piece ∈ linkPieces id number exit (run :: rest), piece.exit = exit := by
  induction rest generalizing id number run with
  | nil => exact ⟨_, List.mem_singleton.mpr rfl, rfl⟩
  | cons next others ih =>
    obtain ⟨piece, member, left⟩ := ih (number + 1) (blockId number) next
    exact ⟨piece, List.mem_cons_of_mem _ member, left⟩

theorem mem_linkPieces {piece : Piece} (id : String) (run : List Instruction)
    (rest : List (List Instruction)) (member : piece ∈ linkPieces id number exit (run :: rest)) :
    piece.id = id ∧ piece.instructions = run ∨ piece.instructions ∈ rest := by
  induction rest generalizing id number run with
  | nil =>
    obtain rfl := List.mem_singleton.mp member
    exact .inl ⟨rfl, rfl⟩
  | cons next others ih =>
    rcases List.mem_cons.mp member with rfl | later
    · exact .inl ⟨rfl, rfl⟩
    · rcases ih (number + 1) (blockId number) next later with ⟨_, first⟩ | after
      · exact .inr (first ▸ List.mem_cons_self)
      · exact .inr (List.mem_cons_of_mem _ after)

end Links

namespace Block

variable (block : Block) (number : Nat)

theorem pieces_eq :
    ∃ run rest, runsOf block.instructions = run :: rest ∧
      block.pieces number =
        (linkPieces block.id number block.exit (run :: rest), number + rest.length) := by
  obtain ⟨run, rest, runs⟩ := List.exists_cons_of_ne_nil (runsOf_ne_nil block.instructions)
  exact ⟨run, rest, runs, by simp [pieces, runs]⟩

theorem pieces_replaces :
    Graph.Replaces number block.vertex (pieceGraph (block.pieces number).1)
      (block.pieces number).2 := by
  obtain ⟨run, rest, _, pieces⟩ := block.pieces_eq number
  have ids := linkPieces_ids number block.exit block.id run rest
  rw [pieces]
  refine ⟨⟨rest.length, rfl, ids⟩, ?_⟩
  rintro _ member target named
  obtain ⟨piece, found, rfl⟩ := List.mem_map.mp member
  rcases linkPieces_exit number block.exit block.id run rest found with left | ⟨next, inside, leads⟩
  · left
    rwa [Piece.vertex, left] at named
  · right
    have same : target = next := by simpa [Piece.vertex, leads, Exit.targets] using named
    rw [ids, same]
    exact List.mem_cons_of_mem _ inside

theorem pieces_decided (decided : block.exit.isPending = false) :
    ∀ piece ∈ (block.pieces number).1, piece.exit.isPending = false := by
  obtain ⟨run, rest, _, pieces⟩ := block.pieces_eq number
  rw [pieces]
  intro piece member
  rcases linkPieces_exit number block.exit block.id run rest member with left | ⟨_, _, leads⟩
  · rw [left, decided]
  · rw [leads]
    rfl

theorem pieces_last : ∃ piece ∈ (block.pieces number).1, piece.exit = block.exit := by
  obtain ⟨run, rest, _, pieces⟩ := block.pieces_eq number
  rw [pieces]
  exact linkPieces_last number block.exit block.id run rest

def PhisLead (block : Block) : Prop :=
  ∃ front rest, block.instructions = front ++ rest ∧
    (∀ instruction ∈ front, instruction.isPhi = true) ∧
      ∀ instruction ∈ rest, instruction.isPhi = false

theorem pieces_phi (lead : block.PhisLead) {piece : Piece} {instruction : Instruction}
    (found : piece ∈ (block.pieces number).1) (member : instruction ∈ piece.instructions)
    (phi : instruction.isPhi = true) :
    piece.id = block.id ∧ instruction ∈ block.instructions := by
  obtain ⟨run, others, runs, pieces⟩ := block.pieces_eq number
  have inside : instruction ∈ block.instructions := by
    rw [← block.pieces_instructions number]
    exact List.mem_flatMap.mpr ⟨piece, found, member⟩
  refine ⟨?_, inside⟩
  rw [pieces] at found
  rcases mem_linkPieces number block.exit block.id run others found with ⟨first, _⟩ | later
  · exact first
  -- Phis have no effect, so the cut leaves them in the first run.
  · obtain ⟨front, rest, split, phis, plain⟩ := lead
    have quiet (item : Instruction) (early : item ∈ front) : item.isEffectful = false :=
      Instruction.isEffectful_of_isPhi (phis item early)
    have tail : piece.instructions ∈ (cutAfter Instruction.isEffectful (front ++ rest)).tail := by
      rwa [← split, ← runsOf_tail, runs, List.tail_cons]
    have late := mem_of_mem_tail_cutAfter _ quiet tail member
    rw [plain instruction late] at phi
    cases phi

end Block

theorem pieceGraph_append (first second : List Piece) :
    pieceGraph (first ++ second) = pieceGraph first ++ pieceGraph second := List.map_append

theorem piecesFrom_replaces (number : Nat) (blocks : List Block) :
    Graph.ReplacesAll number (graphOf blocks) (pieceGraph (piecesFrom number blocks).1)
      (piecesFrom number blocks).2.2 := by
  induction blocks generalizing number with
  | nil => exact .nil number
  | cons block rest ih =>
    rw [piecesFrom, pieceGraph_append]
    exact .cons (block.pieces_replaces number) (ih _)

theorem mem_piecesFrom {piece : Piece} (number : Nat) (blocks : List Block)
    (member : piece ∈ (piecesFrom number blocks).1) :
    ∃ block ∈ blocks, ∃ start, piece ∈ (block.pieces start).1 := by
  induction blocks generalizing number with
  | nil => cases member
  | cons block rest ih =>
    rcases List.mem_append.mp member with here | after
    · exact ⟨block, List.mem_cons_self, number, here⟩
    · obtain ⟨other, inside, start, found⟩ := ih _ after
      exact ⟨other, List.mem_cons_of_mem _ inside, start, found⟩

theorem piecesFrom_last {block : Block} (number : Nat) (blocks : List Block)
    (member : block ∈ blocks) :
    ∃ piece ∈ (piecesFrom number blocks).1, piece.exit = block.exit := by
  induction blocks generalizing number with
  | nil => cases member
  | cons first rest ih =>
    rcases List.mem_cons.mp member with rfl | later
    · obtain ⟨piece, found, left⟩ := block.pieces_last number
      exact ⟨piece, List.mem_append_left _ found, left⟩
    · obtain ⟨piece, found, left⟩ := ih (first.pieces number).2 later
      exact ⟨piece, List.mem_append_right _ found, left⟩

@[simp] theorem Piece.vertex_redirect (ends : Table String) (piece : Piece) :
    (piece.redirect ends).vertex = piece.vertex := rfl

theorem pieceGraph_splitBlocks (number : Nat) (blocks : List Block) :
    pieceGraph (splitBlocks number blocks).1 = pieceGraph (piecesFrom number blocks).1 := by
  simp only [splitBlocks, pieceGraph, List.map_map, Function.comp_def, Piece.vertex_redirect]

section Quiet

theorem runsOf_quiet {instructions run : List Instruction} (found : run ∈ runsOf instructions) :
    ∀ instruction ∈ run.dropLast, instruction.isEffectful = false := by
  unfold runsOf at found
  split at found
  · obtain rfl := List.mem_singleton.mp found
    simp
  · exact cutAfter_quiet Instruction.isEffectful found

theorem Block.pieces_quiet (block : Block) (number : Nat) {piece : Piece}
    (found : piece ∈ (block.pieces number).1) :
    ∀ instruction ∈ piece.instructions.dropLast, instruction.isEffectful = false := by
  obtain ⟨run, rest, runs, pieces⟩ := block.pieces_eq number
  rw [pieces] at found
  have inside : piece.instructions ∈ runsOf block.instructions := by
    rw [runs]
    rcases mem_linkPieces number block.exit block.id run rest found with ⟨_, first⟩ | later
    · exact first ▸ List.mem_cons_self
    · exact List.mem_cons_of_mem _ later
  exact runsOf_quiet inside

theorem Piece.redirect_quiet (ends : Table String) {piece : Piece}
    (quiet : ∀ instruction ∈ piece.instructions.dropLast, instruction.isEffectful = false) :
    ∀ instruction ∈ (piece.redirect ends).instructions.dropLast,
      instruction.isEffectful = false := by
  intro instruction inside
  rw [redirect, ← List.map_dropLast] at inside
  obtain ⟨before, earlier, rfl⟩ := List.mem_map.mp inside
  rw [Instruction.isEffectful_redirect]
  exact quiet before earlier

theorem splitBlocks_quiet (number : Nat) (blocks : List Block) {piece : Piece}
    (member : piece ∈ (splitBlocks number blocks).1) :
    ∀ instruction ∈ piece.instructions.dropLast, instruction.isEffectful = false := by
  obtain ⟨old, found, rfl⟩ := List.mem_map.mp member
  obtain ⟨block, _, start, made⟩ := mem_piecesFrom number blocks found
  exact old.redirect_quiet _ (block.pieces_quiet start made)

end Quiet

end Reentrancy
