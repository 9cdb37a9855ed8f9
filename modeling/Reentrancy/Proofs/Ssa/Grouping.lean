import Mathlib.Data.List.Forall2
import Reentrancy.Proofs.Ssa.Layout

/-! Pieces in groups, one group for each block. A group holds what its block held, control runs
through it from the first piece to the last, and the edges between groups are the edges between
the blocks. -/
namespace Reentrancy

def Instruction.unsourced : Instruction → Instruction
  | phi target sources => phi target (sources.map fun source => ("", source.2))
  | instruction => instruction

structure Block.SplitsInto (block : Block) (pieces : List Piece) : Prop where
  first : pieces.head?.map (·.id) = some block.id
  last : pieces.getLast?.map (·.exit) = some block.exit
  inner : ∀ (index : Nat) (piece next : Piece), pieces[index]? = some piece →
    pieces[index + 1]? = some next → piece.exit = .goto next.id
  whole : (pieces.flatMap (·.instructions)).map Instruction.unsourced =
    block.instructions.map Instruction.unsourced
  effects : ∀ piece ∈ pieces, ∀ instruction ∈ piece.instructions.dropLast,
    instruction.isEffectful = false

def groupStart (groups : List (List Piece)) (index : Nat) : Nat :=
  (groups.take index).flatten.length

section Groups

theorem Instruction.unsourced_redirect (ends : Table String) (instruction : Instruction) :
    (instruction.redirect ends).unsourced = instruction.unsourced := by
  cases instruction with
  | phi target sources => simp [redirect, unsourced, Function.comp_def]
  | _ => rfl

variable (ends : Table String)

theorem Cut.splitsInto (cut : Cut) :
    cut.block.SplitsInto (cut.pieces.map (Piece.redirect ends)) := by
  obtain ⟨entry, located, named⟩ := cut.first_piece
  have filled : 0 < cut.pieces.length := (List.getElem?_eq_some_iff.mp located).1
  have ending : cut.pieces[cut.pieces.length - 1]? = some (cut.pieces[cut.pieces.length - 1]) :=
    List.getElem?_eq_getElem (by omega)
  have leaves := Cut.exit_eq_exit ending (List.getElem?_eq_none (by omega))
  constructor
  · rw [List.head?_map, List.head?_eq_getElem?, located]
    exact congrArg some named
  · rw [List.getLast?_map, List.getLast?_eq_getElem?, ending]
    exact congrArg some leaves
  · intro index piece next here there
    rw [List.getElem?_map] at here there
    obtain ⟨old, found, rfl⟩ := Option.map_eq_some_iff.mp here
    obtain ⟨following, behind, rfl⟩ := Option.map_eq_some_iff.mp there
    have leads : old.exit = .goto following.id := Cut.exit_eq_goto found behind
    exact leads
  · rw [← cut.block.pieces_instructions cut.number, List.flatMap_map, List.map_flatMap,
      List.map_flatMap]
    apply List.flatMap_congr
    intro piece _
    rw [Piece.redirect, List.map_map]
    exact List.map_congr_left fun instruction _ => instruction.unsourced_redirect ends
  · intro piece member
    obtain ⟨old, inside, rfl⟩ := List.mem_map.mp member
    exact Piece.redirect_quiet ends (cut.block.pieces_quiet cut.number inside)

variable (number : Nat) (blocks : List Block)

def groupsOf : List (List Piece) :=
  (cutsFrom number blocks).map fun cut =>
    cut.pieces.map (Piece.redirect (Table.ofList (piecesFrom number blocks).2.1))

theorem splitBlocks_eq_flatten :
    (splitBlocks number blocks).1 = (groupsOf number blocks).flatten := by
  have redirected : (splitBlocks number blocks).1 = (piecesFrom number blocks).1.map
      (Piece.redirect (Table.ofList (piecesFrom number blocks).2.1)) := rfl
  have whole := piecesFrom_eq_flatMap number blocks
  rw [redirected, whole, groupsOf, ← List.flatMap_def, List.map_flatMap]

theorem groupsOf_splits : List.Forall₂ Block.SplitsInto blocks (groupsOf number blocks) := by
  have paired : List.Forall₂ Block.SplitsInto ((cutsFrom number blocks).map Cut.block)
      (groupsOf number blocks) := by
    rw [groupsOf, List.forall₂_map_left_iff, List.forall₂_map_right_iff, List.forall₂_same]
    exact fun cut _ => cut.splitsInto _
  rwa [cutsFrom_blocks] at paired

theorem groupStart_groupsOf (index : Nat) :
    groupStart (groupsOf number blocks) index = pieceStart blocks index := by
  rw [groupStart, groupsOf, ← List.map_take, ← List.flatMap_def, ← pieceStart_eq number]
  simp only [List.length_flatMap, List.length_map]

end Groups

section Positions

variable {number : Nat} {blocks : List Block}

theorem pieceStart_lt {first second : Nat} (before : first < second)
    (inside : first < blocks.length) : pieceStart blocks first < pieceStart blocks second := by
  have next := pieceStart_succ (List.getElem?_eq_getElem inside)
  have filled := List.length_pos_of_ne_nil (runsOf_ne_nil blocks[first].instructions)
  have later : pieceStart blocks (first + 1) ≤ pieceStart blocks second := pieceStart_mono before
  omega

theorem getElem?_flatMap_of {α β : Type} {parts : α → List β} {items : List α} {place offset : Nat}
    {item : α} {part : β} (located : items[place]? = some item)
    (inside : (parts item)[offset]? = some part) :
    (items.flatMap parts)[((items.take place).flatMap parts).length + offset]? = some part := by
  induction items generalizing place with
  | nil => cases located
  | cons first rest ih =>
    rw [List.flatMap_cons]
    cases place with
    | zero =>
      obtain rfl := Option.some.inj located
      have bound := (List.getElem?_eq_some_iff.mp inside).1
      simpa [List.getElem?_append_left bound] using inside
    | succ place =>
      rw [List.take_succ_cons, List.flatMap_cons, List.length_append, Nat.add_assoc,
        getElem?_behind]
      exact ih located

theorem getElem?_pieceGraph {index offset : Nat} {cut : Cut} {piece : Piece}
    (located : (cutsFrom number blocks)[index]? = some cut)
    (inside : cut.pieces[offset]? = some piece) :
    (pieceGraph (splitBlocks number blocks).1)[pieceStart blocks index + offset]? =
      some piece.vertex := by
  rw [pieceGraph_splitBlocks, pieceGraph, List.getElem?_map, piecesFrom_eq_flatMap,
    ← pieceStart_eq number, getElem?_flatMap_of located inside, Option.map_some]

theorem getElem?_cutsFrom {index : Nat} {block : Block} (located : blocks[index]? = some block) :
    ∃ cut, (cutsFrom number blocks)[index]? = some cut ∧ cut.block = block := by
  rw [← cutsFrom_blocks number blocks, List.getElem?_map] at located
  exact Option.map_eq_some_iff.mp located

theorem first_of_group {index : Nat} {block : Block} (located : blocks[index]? = some block) :
    ∃ vertex, (pieceGraph (splitBlocks number blocks).1)[pieceStart blocks index]? = some vertex ∧
      vertex.id = block.id := by
  obtain ⟨cut, found, rfl⟩ := getElem?_cutsFrom located
  obtain ⟨piece, inside, named⟩ := cut.first_piece
  exact ⟨piece.vertex, getElem?_pieceGraph found inside, named⟩

theorem last_of_group {index : Nat} {block : Block} (located : blocks[index]? = some block) :
    ∃ vertex, (pieceGraph (splitBlocks number blocks).1)[pieceStart blocks (index + 1) - 1]? =
      some vertex ∧ vertex.exit = block.exit := by
  have next := pieceStart_succ located
  obtain ⟨cut, found, rfl⟩ := getElem?_cutsFrom located
  have filled := List.length_pos_of_ne_nil (runsOf_ne_nil cut.block.instructions)
  have size := cut.pieces_length
  obtain ⟨piece, inside⟩ : ∃ piece, cut.pieces[cut.pieces.length - 1]? = some piece :=
    ⟨_, List.getElem?_eq_getElem (by omega)⟩
  refine ⟨piece.vertex, ?_, Cut.exit_eq_exit inside (List.getElem?_eq_none (by omega))⟩
  rw [← getElem?_pieceGraph found inside]
  congr 1
  omega

end Positions

section Refinement

variable {number : Nat} {blocks : List Block} (distinct : (blocks.map (·.id)).Nodup)
  (unused : ∀ block ∈ blocks, ∀ later, number ≤ later → block.id ≠ blockId later)

include distinct

theorem graphOf_distinct : (graphOf blocks).ids.Nodup := by
  rwa [graphOf, Graph.ids, List.map_map]

include unused

theorem splitBlocks_distinct : (pieceGraph (splitBlocks number blocks).1).ids.Nodup := by
  rw [pieceGraph_splitBlocks]
  refine (piecesFrom_replaces number blocks).distinct (graphOf_distinct distinct) ?_
  intro id member
  obtain ⟨vertex, inside, rfl⟩ := List.mem_map.mp member
  obtain ⟨block, present, rfl⟩ := List.mem_map.mp inside
  exact unused block present

theorem splitBlocks_edge_iff {source target : Nat} (here : source < blocks.length)
    (there : target < blocks.length) :
    (graphOf blocks).Edge source target ↔
      (pieceGraph (splitBlocks number blocks).1).Edge (pieceStart blocks (source + 1) - 1)
        (pieceStart blocks target) := by
  have located := List.getElem?_eq_getElem here
  have found := List.getElem?_eq_getElem there
  obtain ⟨last, lastAt, exit⟩ := last_of_group located
  obtain ⟨first, firstAt, named⟩ := first_of_group found
  rw [Graph.edge_iff (graphOf_distinct distinct) (getElem?_graphOf located)
      (getElem?_graphOf found),
    Graph.edge_iff (splitBlocks_distinct distinct unused) lastAt firstAt, exit, named]
  -- The piece behind the last one of a group is the first one of the next.
  have filled : 0 < pieceStart blocks (source + 1) :=
    Nat.lt_of_le_of_lt (Nat.zero_le _) (pieceStart_lt (Nat.lt_succ_self source) here)
  have behind : target = source + 1 ↔
      pieceStart blocks target = pieceStart blocks (source + 1) - 1 + 1 := by
    rw [Nat.sub_add_cancel filled]
    refine ⟨fun same => by rw [same], fun same => ?_⟩
    rcases Nat.lt_trichotomy target (source + 1) with before | equal | after
    · have earlier := pieceStart_lt before there
      omega
    · exact equal
    · have later : pieceStart blocks (source + 1) < pieceStart blocks target :=
        pieceStart_lt after (by omega)
      omega
  rw [behind]
  rfl

/-- Splitting refines the blocks. Each block becomes a group of consecutive pieces, ids stay
distinct, and there is an edge between two blocks exactly if there is one from the last piece of
the one to the first piece of the other. -/
theorem splitBlocks_refines :
    ∃ groups, (splitBlocks number blocks).1 = groups.flatten ∧
      List.Forall₂ Block.SplitsInto blocks groups ∧
      ((splitBlocks number blocks).1.map (·.id)).Nodup ∧
      ∀ source target, source < blocks.length → target < blocks.length →
        ((graphOf blocks).Edge source target ↔
          (pieceGraph (splitBlocks number blocks).1).Edge (groupStart groups (source + 1) - 1)
            (groupStart groups target)) := by
  refine ⟨groupsOf number blocks, splitBlocks_eq_flatten number blocks,
    groupsOf_splits number blocks, ?_, ?_⟩
  · have ids := splitBlocks_distinct distinct unused
    rwa [pieceGraph, Graph.ids, List.map_map] at ids
  · intro source target here there
    rw [groupStart_groupsOf, groupStart_groupsOf]
    exact splitBlocks_edge_iff distinct unused here there

end Refinement

/-- A block with two events goes on to a block with one, which goes back. The edge on leaves the
piece of the second event, the edge back enters the piece of the first. -/
theorem circling_events_split :
    let blocks : List Block := [
      { id := blockId 0, instructions := [.emit "Paid" [], .emit "Done" []],
        exit := .goto (blockId 1) },
      { id := blockId 1, instructions := [.emit "Next" []], exit := .goto (blockId 0) }]
    (blocks.map (·.id)).Nodup ∧
      (∀ block ∈ blocks, ∀ later, 2 ≤ later → block.id ≠ blockId later) ∧
      ((splitBlocks 2 blocks).1.map (·.id)).Nodup ∧
      (pieceGraph (splitBlocks 2 blocks).1).Edge 1 2 ∧
      (pieceGraph (splitBlocks 2 blocks).1).Edge 2 0 := by
  intro blocks
  have distinct : (blocks.map (·.id)).Nodup := by decide +kernel
  have unused : ∀ block ∈ blocks, ∀ later, 2 ≤ later → block.id ≠ blockId later := by
    rw [List.forall_mem_cons, List.forall_mem_singleton]
    refine ⟨fun later above same => ?_, fun later above same => ?_⟩
    · have equal : 0 = later := blockId_injective same
      omega
    · have equal : 1 = later := blockId_injective same
      omega
  obtain ⟨groups, whole, splits, ids, edges⟩ := splitBlocks_refines distinct unused
  have forward : (graphOf blocks).Edge 0 1 := by
    rw [Graph.Edge]
    decide +kernel
  have back : (graphOf blocks).Edge 1 0 := by
    rw [Graph.Edge]
    decide +kernel
  have leaves := (edges 0 1 Nat.two_pos Nat.one_lt_two).mp forward
  have returns := (edges 1 0 Nat.one_lt_two Nat.two_pos).mp back
  obtain ⟨one, rest, _, others, rfl⟩ := List.forall₂_cons_left_iff.mp splits
  obtain ⟨other, empty, second, none, rfl⟩ := List.forall₂_cons_left_iff.mp others
  obtain rfl := List.forall₂_nil_left_iff.mp none
  have parts : (splitBlocks 2 blocks).1 = one ++ other := by simpa using whole
  have named : (one ++ other).map (·.id) = [blockId 0, blockId 2, blockId 1] := by
    rw [← parts]
    decide +kernel
  -- The second group starts with the id of the second block, which stands behind two pieces.
  have found : [blockId 0, blockId 2, blockId 1][one.length]? = some (blockId 1) := by
    rw [← named, List.getElem?_map, List.getElem?_append_right (Nat.le_refl _), Nat.sub_self,
      ← List.head?_eq_getElem?]
    exact second.first
  have starts : one.length = 2 := by
    generalize one.length = count at found ⊢
    rcases count with _ | _ | _ | count
    · exact absurd found (by decide +kernel)
    · exact absurd found (by decide +kernel)
    · rfl
    · cases found
  have ends : one.length + other.length = 3 := by simpa using congrArg List.length named
  refine ⟨distinct, unused, ids, ?_, ?_⟩
  · simpa [groupStart, starts] using leaves
  · simpa [groupStart, ends] using returns

end Reentrancy
