import Reentrancy.Proofs.Flow.Shape
import Reentrancy.Proofs.Inline.Templates
import Reentrancy.Proofs.Ssa.Splitting
import Reentrancy.Ssa.Validity

/-! Finished blocks are valid: ids are distinct, exits are decided, jumps stay inside the
function, and phis only stand where control can come from somewhere. -/
namespace Reentrancy

structure Valid (pieces : List Piece) : Prop where
  distinct : (pieces.map (·.id)).Nodup
  decided : ∀ piece ∈ pieces, piece.exit.isPending = false
  inside : ∀ piece ∈ pieces, ∀ target ∈ piece.exit.targets, target ∈ pieces.map (·.id)
  entered : ∀ piece ∈ pieces, ∀ instruction ∈ piece.instructions, instruction.isPhi = true →
    ∃ before ∈ pieces, piece.id ∈ before.exit.targets

theorem pieceGraph_ids (pieces : List Piece) :
    (pieceGraph pieces).ids = pieces.map (·.id) := by
  simp [pieceGraph, Graph.ids, Piece.vertex]

theorem pieceGraph_closed {pieces : List Piece} (distinct : (pieces.map (·.id)).Nodup)
    (decided : ∀ piece ∈ pieces, piece.exit.isPending = false)
    (inside : ∀ piece ∈ pieces, ∀ target ∈ piece.exit.targets, target ∈ pieces.map (·.id)) :
    (pieceGraph pieces).Closed where
  distinct := pieceGraph_ids pieces ▸ distinct
  decided := by
    intro vertex member
    obtain ⟨piece, found, rfl⟩ := List.mem_map.mp member
    exact decided piece found
  inside := by
    intro vertex member
    obtain ⟨piece, found, rfl⟩ := List.mem_map.mp member
    exact pieceGraph_ids pieces ▸ inside piece found

section Faults

theorem repeatedId?_eq_none_iff {seen ids : List String} :
    repeatedId? seen ids = none ↔ ids.Nodup ∧ ∀ id ∈ ids, id ∉ seen := by
  induction ids generalizing seen with
  | nil => simp [repeatedId?]
  | cons id rest ih =>
    rw [repeatedId?, List.forall_mem_cons, List.nodup_cons]
    split
    next again => simp_all
    next fresh =>
      have unseen : id ∉ seen := by simpa using fresh
      rw [ih]
      constructor
      · rintro ⟨distinct, apart⟩
        have first : id ∉ rest := fun member => apart id member List.mem_cons_self
        exact ⟨⟨first, distinct⟩, unseen, fun other member again =>
          apart other member (List.mem_cons_of_mem _ again)⟩
      · rintro ⟨⟨first, distinct⟩, _, apart⟩
        refine ⟨distinct, fun other member again => ?_⟩
        rcases List.mem_cons.mp again with rfl | earlier
        · exact first member
        · exact apart other member earlier

theorem Piece.fault?_eq_none_iff {graph : Graph} {piece : Piece} :
    piece.fault? graph = none ↔
      piece.exit.isPending = false ∧ (∀ target ∈ piece.exit.targets, target ∈ graph.ids) ∧
        ((∃ instruction ∈ piece.instructions, instruction.isPhi = true) →
          graph.predecessors piece.id ≠ []) := by
  unfold fault?
  split
  next pending => simp [pending]
  next decided =>
    split
    next target found =>
      have named := List.mem_of_find?_eq_some found
      have missing := List.find?_some found (p := fun id => (graph.position? id).isNone)
      have dangling : target ∉ graph.ids := Graph.position?_isNone.mp missing
      simp only [reduceCtorEq, false_iff]
      exact fun ⟨_, inside, _⟩ => dangling (inside target named)
    next found =>
      have inside : ∀ target ∈ piece.exit.targets, target ∈ graph.ids := by
        intro target named
        have present := List.find?_eq_none.mp found target named
        rw [Graph.position?_isNone, Classical.not_not] at present
        exact present
      have decided : piece.exit.isPending = false := by simpa using decided
      simp only [ite_eq_right_iff, reduceCtorEq, imp_false, Bool.and_eq_true, List.any_eq_true,
        List.isEmpty_iff, not_and]
      exact ⟨fun joined => ⟨decided, inside, joined⟩, fun ⟨_, _, joined⟩ => joined⟩

theorem fault?_eq_none_iff_forall {pieces : List Piece} :
    fault? pieces = none ↔ (pieces.map (·.id)).Nodup ∧
      ∀ piece ∈ pieces, piece.fault? (pieceGraph pieces) = none := by
  have single : repeatedId? [] (pieces.map (·.id)) = none ↔ (pieces.map (·.id)).Nodup := by
    simp [repeatedId?_eq_none_iff]
  rw [fault?, ← single]
  cases repeatedId? [] (pieces.map (·.id)) with
  | none => simp [List.findSome?_eq_none_iff]
  | some id => simp

theorem fault?_eq_none_iff {pieces : List Piece} : fault? pieces = none ↔ Valid pieces := by
  simp only [fault?_eq_none_iff_forall, Piece.fault?_eq_none_iff, pieceGraph_ids]
  -- Predecessors mean something only in a closed graph, which the other conditions give.
  constructor
  · rintro ⟨distinct, sound⟩
    have closed := pieceGraph_closed distinct (fun piece member => (sound piece member).1)
      fun piece member => (sound piece member).2.1
    refine ⟨distinct, fun piece member => (sound piece member).1,
      fun piece member => (sound piece member).2.1, ?_⟩
    intro piece member instruction found phi
    obtain ⟨vertex, inside, target⟩ :=
      closed.predecessors_ne_nil.mp ((sound piece member).2.2 ⟨instruction, found, phi⟩)
    obtain ⟨before, present, rfl⟩ := List.mem_map.mp inside
    exact ⟨before, present, target⟩
  · intro valid
    have closed := pieceGraph_closed valid.distinct valid.decided valid.inside
    refine ⟨valid.distinct, fun piece member =>
      ⟨valid.decided piece member, valid.inside piece member, ?_⟩⟩
    rintro ⟨instruction, found, phi⟩
    obtain ⟨before, present, target⟩ := valid.entered piece member instruction found phi
    exact closed.predecessors_ne_nil.mpr ⟨before.vertex, List.mem_map_of_mem present, target⟩

end Faults

theorem insertPhis_lead (exits : List (Table Nat)) (versions : Versions) {blocks : List Block}
    (noPhi : ∀ instruction ∈ instructionsOf blocks, instruction.isPhi = false) :
    ∀ joined ∈ (insertPhis exits versions blocks).blocks, joined.PhisLead ∧
      ∀ instruction ∈ joined.instructions, instruction.isPhi = true →
        (graphOf blocks).predecessors joined.id ≠ [] := by
  intro joined member
  have located (offset : Nat) (block : Block) (found : blocks[offset]? = some block) :
      (graphOf blocks).idAt (0 + offset) = block.id := by
    simp [Graph.idAt, graphOf, found, Block.vertex]
  obtain ⟨block, inside, phis, rfl, before⟩ :=
    mem_joinFrom blocks (graphOf blocks) exits 0 versions blocks located member
  have front : ∀ instruction ∈ phis.map Phi.instruction, instruction.isPhi = true := by
    intro instruction member
    obtain ⟨phi, _, rfl⟩ := List.mem_map.mp member
    rfl
  have rest : ∀ instruction ∈ block.instructions.map (Instruction.substitute (Phi.rule phis)),
      instruction.isPhi = false :=
    Block.joinWith_noPhi_rest fun instruction member =>
      noPhi instruction (List.mem_flatMap.mpr ⟨block, inside, member⟩)
  refine ⟨⟨_, _, rfl, front, rest⟩, fun instruction member phi => before ?_⟩
  rintro rfl
  rw [rest instruction member] at phi
  cases phi

namespace Body

structure Sound (body : Body) : Prop where
  numbered : (graphOf body.blocks).Numbered body.free
  decided : ∀ vertex ∈ graphOf body.blocks, vertex.exit.isPending = false
  lead : ∀ block ∈ body.blocks, block.PhisLead
  entered : ∀ block ∈ body.blocks, ∀ instruction ∈ block.instructions,
    instruction.isPhi = true → (graphOf body.blocks).predecessors block.id ≠ []

theorem build_sound (scope : Scope) (statements : List Statement) :
    (build scope statements).Sound := by
  let numbered := numberBlocks scope {} (flowBlocks statements).1
  have graph : graphOf numbered.blocks = graphOf (flowBlocks statements).1 :=
    graphOf_numberFrom ..
  have joined : graphOf (build scope statements).blocks = graphOf numbered.blocks :=
    graphOf_joinFrom ..
  have placed := insertPhis_lead numbered.exits numbered.versions
    (numberBlocks_extends scope {} (flowBlocks statements).1).noPhi
  constructor
  · rw [joined, graph]
    exact flowBlocks_numbered statements
  · rw [joined, graph]
    exact flowBlocks_decided statements
  · exact fun block member => (placed block member).1
  · rw [joined]
    exact fun block member => (placed block member).2

section Inline

variable (body : Body) (templates : Table Template) (depth : Nat) (root : String)

theorem graphOf_inline :
    graphOf (body.inline templates depth root).blocks = graphOf body.blocks := by
  have kept := body.graphOf_expanded templates depth root
  rcases body.inline_cases templates depth root with same | joined
  · rw [same]
  · rw [joined]
    exact (graphOf_joinFrom ..).trans ((graphOf_refresh _).trans kept)

theorem free_inline : (body.inline templates depth root).free = body.free := by
  rcases body.inline_cases templates depth root with same | joined
  · rw [same]
  · rw [joined]

end Inline

theorem inline_settled (scope : Scope) (statements : List Statement)
    (templates : Table Template) (depth : Nat) (root : String) :
    let body := (build scope statements).inline templates depth root
    Settled body.free body.blocks := by
  have sound := build_sound scope statements
  constructor
  · rw [graphOf_inline, free_inline]
    exact sound.numbered
  · rw [graphOf_inline]
    exact sound.decided

theorem Sound.inline {body : Body} (sound : body.Sound) {templates : Table Template}
    (phiFree : templates.PhiFree) (depth : Nat) (root : String) :
    (body.inline templates depth root).Sound := by
  let expanded := body.expanded templates depth root
  have noPhi := (body.expanded_extends depth root phiFree).noPhi
  have graph : graphOf expanded.blocks = graphOf body.blocks :=
    body.graphOf_expanded templates depth root
  rcases body.inline_cases templates depth root with same | joined
  · rwa [same]
  · rw [joined]
    have placed := insertPhis_lead expanded.exits expanded.versions
      ((instructionsOf_refresh expanded.blocks).symm ▸ noPhi)
    have kept : graphOf (insertPhis expanded.exits expanded.versions
        (expanded.blocks.map refresh)).blocks = graphOf body.blocks :=
      (graphOf_joinFrom ..).trans ((graphOf_refresh expanded.blocks).trans graph)
    rw [graphOf_refresh, graph] at placed
    refine ⟨kept ▸ sound.numbered, kept ▸ sound.decided, ?_, ?_⟩
    · exact fun block member => (placed block member).1
    · exact kept ▸ fun block member => (placed block member).2

theorem Sound.finish {body : Body} (sound : body.Sound) : Valid body.finish.1 := by
  have ids : (pieceGraph body.finish.1).ids = body.finish.1.map (·.id) := pieceGraph_ids _
  have numbered : (pieceGraph body.finish.1).Numbered (piecesFrom body.free body.blocks).2.2 := by
    rw [Body.finish, pieceGraph_splitBlocks]
    exact (piecesFrom_replaces body.free body.blocks).numbered sound.numbered
  have origin {piece : Piece} (member : piece ∈ body.finish.1) :
      ∃ block ∈ body.blocks, ∃ start, ∃ old ∈ (block.pieces start).1, ∃ ends,
        piece = old.redirect ends := by
    obtain ⟨old, found, rfl⟩ := List.mem_map.mp member
    obtain ⟨block, inside, start, made⟩ := mem_piecesFrom body.free body.blocks found
    exact ⟨block, inside, start, old, made, _, rfl⟩
  constructor
  · exact ids ▸ numbered.distinct
  · intro piece member
    obtain ⟨block, inside, start, old, made, ends, rfl⟩ := origin member
    exact block.pieces_decided start (sound.decided block.vertex (List.mem_map_of_mem inside))
      old made
  · intro piece member target named
    exact ids ▸ numbered.inside piece.vertex (List.mem_map_of_mem member) target named
  · intro piece member instruction found phi
    obtain ⟨block, inside, start, old, made, ends, rfl⟩ := origin member
    obtain ⟨before, present, rfl⟩ := List.mem_map.mp found
    rw [Instruction.isPhi_redirect] at phi
    obtain ⟨first, holds⟩ := block.pieces_phi start (sound.lead block inside) made present phi
    have closed : (graphOf body.blocks).Closed :=
      ⟨sound.numbered.distinct, sound.decided, sound.numbered.inside⟩
    obtain ⟨vertex, source, target⟩ :=
      closed.predecessors_ne_nil.mp (sound.entered block inside before holds phi)
    -- The exit that leads to the block is carried by the last piece of the block before.
    obtain ⟨other, earlier, rfl⟩ := List.mem_map.mp source
    obtain ⟨last, carried, left⟩ := piecesFrom_last body.free body.blocks earlier
    refine ⟨last.redirect _, List.mem_map_of_mem carried, ?_⟩
    change old.id ∈ last.exit.targets
    rw [first, left]
    exact target

end Body

/-- Whatever is put in and however deep, a finished function passes the check. -/
theorem finish_valid (scope : Scope) (body : Option Json) (callees : List Callee) (depth : Nat)
    (root : String) :
    let pieces := ((Body.build scope (statementsOf body)).inline (templatesOf callees) depth
      root).finish.1
    Valid pieces ∧ fault? pieces = none := by
  have sound := (Body.build_sound scope (statementsOf body)).inline
    (templatesOf_phiFree callees) depth root
  exact ⟨sound.finish, fault?_eq_none_iff.mpr sound.finish⟩

end Reentrancy
