import Reentrancy.Proofs.Flow.Ids
import Reentrancy.Ssa.Body

/-! The graph of a body: every block has an id of its own, every exit is decided, and every
jump goes to a block of the body. -/
namespace Reentrancy

namespace Exit

theorem targets_closing {statements : List Statement} {otherwise : Exit} {target : String}
    (named : target ∈ (closing statements otherwise).targets) : target ∈ otherwise.targets := by
  unfold closing at named
  split at named
  next last _ =>
    split at named
    · cases named
    · split at named
      · cases named
      · exact named
  next => exact named

end Exit

theorem linkBlocks_ids (number : Nat) (runs : List (List Statement)) :
    (graphOf (linkBlocks number runs)).ids = numberedIds number runs.length := by
  induction runs generalizing number with
  | nil => rfl
  | cons run rest ih =>
    cases rest with
    | nil => rfl
    | cons next others => exact congrArg (blockId number :: ·) (ih (number + 1))

theorem linkBlocks_inside (number : Nat) (runs : List (List Statement)) :
    ∀ vertex ∈ graphOf (linkBlocks number runs), ∀ target ∈ vertex.exit.targets,
      target ∈ (graphOf (linkBlocks number runs)).ids := by
  induction runs generalizing number with
  | nil => simp [linkBlocks, graphOf]
  | cons run rest ih =>
    cases rest with
    | nil =>
      intro vertex member target named
      obtain rfl := List.mem_singleton.mp member
      cases Exit.targets_closing named
    | cons next others =>
      intro vertex member target named
      rcases List.mem_cons.mp member with rfl | later
      · have following : target = blockId (number + 1) :=
          List.mem_singleton.mp (Exit.targets_closing named)
        rw [linkBlocks_ids, following, mem_numberedIds]
        exact ⟨number + 1, by omega, by simp, rfl⟩
      · exact List.mem_cons_of_mem _ (ih (number + 1) vertex later target named)

theorem buildBlocks_numbered (number : Nat) (body : List Statement) :
    (graphOf (buildBlocks number body).1).Numbered (buildBlocks number body).2 where
  distinct := by
    rw [buildBlocks, linkBlocks_ids]
    exact numberedIds_nodup ..
  below := by
    intro id member
    rw [buildBlocks, linkBlocks_ids] at member
    obtain ⟨index, _, bound, named⟩ := mem_numberedIds.mp member
    exact ⟨index, bound, named⟩
  inside := linkBlocks_inside number _

namespace Block

theorem targets_continuation {block : Block} {target : String}
    (named : target ∈ (Exit.gotoOrPending block.continuation).targets) :
    target ∈ block.exit.targets := by
  unfold continuation at named
  split at named
  next next found => simpa [found, Exit.gotoOrPending, Exit.targets] using named
  next => cases named

theorem mem_part (id : String) {number index count : Nat} (above : number ≤ index)
    (below : index < number + count) : blockId index ∈ id :: numberedIds number count :=
  List.mem_cons_of_mem _ (mem_numberedIds.mpr ⟨index, above, below, rfl⟩)

theorem refineBranch_replaces (block : Block) (number : Nat) (condition : Expression)
    (yes no : List Statement) :
    Graph.Replaces number block.vertex (graphOf (block.refineBranch number condition yes no))
      (number + 2) := by
  have ids : (graphOf (block.refineBranch number condition yes no)).ids =
      block.id :: numberedIds number 2 := rfl
  refine ⟨⟨2, rfl, ids⟩, ?_⟩
  rw [ids]
  intro inner member target named
  rcases List.mem_cons.mp member with rfl | arms
  · right
    rcases List.mem_cons.mp named with rfl | other
    · exact mem_part block.id (by omega) (by omega)
    · obtain rfl := List.mem_singleton.mp other
      exact mem_part block.id (by omega) (by omega)
  · left
    rcases List.mem_cons.mp arms with rfl | other
    · exact targets_continuation (Exit.targets_closing named)
    · obtain rfl := List.mem_singleton.mp other
      exact targets_continuation (Exit.targets_closing named)

theorem refineFor_replaces (block : Block) (number : Nat) (loop : Statement)
    (start : List Statement) (condition : Expression) (step body : List Statement) :
    Graph.Replaces number block.vertex
      (graphOf (block.refineFor number loop start condition step body)) (number + 4) := by
  have ids : (graphOf (block.refineFor number loop start condition step body)).ids =
      block.id :: numberedIds number 4 := rfl
  refine ⟨⟨4, rfl, ids⟩, ?_⟩
  rw [ids]
  have header : blockId number ∈ block.id :: numberedIds number 4 :=
    mem_part block.id (by omega) (by omega)
  intro inner member target named
  simp only [graphOf, refineFor, List.map_cons, List.map_nil, List.mem_cons, List.not_mem_nil,
    or_false] at member
  rcases member with rfl | rfl | rfl | rfl | rfl
  · obtain rfl := List.mem_singleton.mp named
    exact .inr header
  · rcases List.mem_cons.mp named with rfl | other
    · exact .inr (mem_part block.id (by omega) (by omega))
    · obtain rfl := List.mem_singleton.mp other
      exact .inr (mem_part block.id (by omega) (by omega))
  · obtain rfl := List.mem_singleton.mp (Exit.targets_closing named)
    exact .inr (mem_part block.id (by omega) (by omega))
  · obtain rfl := List.mem_singleton.mp named
    exact .inr header
  · exact .inl (targets_continuation named)

theorem refineWhile_replaces (block : Block) (number : Nat) (loop : Statement)
    (condition : Expression) (body : List Statement) :
    Graph.Replaces number block.vertex
      (graphOf (block.refineWhile number loop condition body)) (number + 3) := by
  have ids : (graphOf (block.refineWhile number loop condition body)).ids =
      block.id :: numberedIds number 3 := rfl
  refine ⟨⟨3, rfl, ids⟩, ?_⟩
  rw [ids]
  have header : blockId number ∈ block.id :: numberedIds number 3 :=
    mem_part block.id (by omega) (by omega)
  intro inner member target named
  simp only [graphOf, refineWhile, List.map_cons, List.map_nil, List.mem_cons, List.not_mem_nil,
    or_false] at member
  rcases member with rfl | rfl | rfl | rfl
  · obtain rfl := List.mem_singleton.mp named
    exact .inr header
  · rcases List.mem_cons.mp named with rfl | other
    · exact .inr (mem_part block.id (by omega) (by omega))
    · obtain rfl := List.mem_singleton.mp other
      exact .inr (mem_part block.id (by omega) (by omega))
  · obtain rfl := List.mem_singleton.mp (Exit.targets_closing named)
    exact .inr header
  · exact .inl (targets_continuation named)

theorem refine_replaces (block : Block) (number : Nat) :
    Graph.Replaces number block.vertex (graphOf (block.refine number).1)
      (block.refine number).2 := by
  unfold refine
  split
  · exact block.refineBranch_replaces ..
  · exact block.refineFor_replaces ..
  · exact block.refineWhile_replaces ..
  · refine ⟨⟨0, rfl, rfl⟩, ?_⟩
    intro inner member target named
    obtain rfl := List.mem_singleton.mp member
    exact .inl named

end Block

theorem graphOf_append (first second : List Block) :
    graphOf (first ++ second) = graphOf first ++ graphOf second := List.map_append

theorem refineBlocks_replaces (number : Nat) (blocks : List Block) :
    Graph.ReplacesAll number (graphOf blocks) (graphOf (refineBlocks number blocks).1)
      (refineBlocks number blocks).2 := by
  induction blocks generalizing number with
  | nil => exact .nil number
  | cons block rest ih =>
    rw [refineBlocks, graphOf_append]
    exact .cons (block.refine_replaces number) (ih _)

namespace Block

@[simp] theorem vertex_track (block : Block) : block.track.vertex = block.vertex := rfl

theorem finalize_decided (block : Block) : block.finalize.exit.isPending = false := by
  unfold finalize
  cases block.exit <;> rfl

theorem targets_finalize (block : Block) : block.finalize.exit.targets = block.exit.targets := by
  unfold finalize
  cases block.exit <;> rfl

theorem ids_finalize (blocks : List Block) :
    (graphOf (blocks.map finalize)).ids = (graphOf blocks).ids := by
  simp [graphOf, Graph.ids, vertex, finalize]

theorem finalize_numbered {free : Nat} {blocks : List Block}
    (numbered : (graphOf blocks).Numbered free) :
    (graphOf (blocks.map finalize)).Numbered free where
  distinct := ids_finalize blocks ▸ numbered.distinct
  below := ids_finalize blocks ▸ numbered.below
  inside := by
    rw [ids_finalize]
    intro vertex member target named
    obtain ⟨final, finished, rfl⟩ := List.mem_map.mp member
    obtain ⟨block, inside, rfl⟩ := List.mem_map.mp finished
    refine numbered.inside block.vertex (List.mem_map_of_mem inside) target ?_
    exact block.targets_finalize ▸ named

end Block

theorem graphOf_flowBlocks (body : List Statement) :
    graphOf (flowBlocks body).1 =
      graphOf ((refineBlocks (buildBlocks 0 body).2 (buildBlocks 0 body).1).1.map
        Block.finalize) := by
  simp only [flowBlocks, graphOf, List.map_map, Function.comp_def, Block.vertex_track]

theorem flowBlocks_numbered (body : List Statement) :
    (graphOf (flowBlocks body).1).Numbered (flowBlocks body).2 := by
  rw [graphOf_flowBlocks]
  exact Block.finalize_numbered
    ((refineBlocks_replaces _ _).numbered (buildBlocks_numbered 0 body))

theorem flowBlocks_decided (body : List Statement) :
    ∀ vertex ∈ graphOf (flowBlocks body).1, vertex.exit.isPending = false := by
  rw [graphOf_flowBlocks]
  intro vertex member
  obtain ⟨final, finished, rfl⟩ := List.mem_map.mp member
  obtain ⟨block, _, rfl⟩ := List.mem_map.mp finished
  exact block.finalize_decided

end Reentrancy
