import Reentrancy.Proofs.Detector.Hits
import Reentrancy.Proofs.Ssa.Layout

/-! The two modes of the detector. The finished list of a body is in the order of its control flow
but for the rounds of loops. Without loops whatever is reachable comes later, so that detection by
order finds all that detection by reachability finds. -/
namespace Reentrancy

theorem Graph.Path.lt {graph : Graph}
    (forward : ∀ source target, graph.Edge source target → source < target) {source target : Nat}
    (path : graph.Path source target) : source < target := by
  induction path with
  | single edge => exact forward _ _ edge
  | tail _ edge ih => exact Nat.lt_trans ih (forward _ _ edge)

theorem exposure?_ordered_of_reachability {pieces : List Piece}
    (forward : ∀ source target, (pieceGraph pieces).Edge source target → source < target)
    {state : Names} (found : (exposure? .reachability state pieces).isSome = true) :
    (exposure? .ordered state pieces).isSome = true := by
  rw [exposure?_isSome] at found ⊢
  obtain ⟨source, target, one, two, call, write, callee, name, follows, rest⟩ := found
  exact ⟨source, target, one, two, call, write, callee, name, Graph.Path.lt forward follows, rest⟩

theorem exposure?_of_path {pieces : List Piece} {state : Names} {call write : Hit}
    (called : call ∈ externalCalls pieces) (written : write ∈ stateWrites state pieces)
    (path : (pieceGraph pieces).Path call.position write.position) :
    (exposure? .reachability state pieces).isSome = true := by
  simp only [exposure?, List.findSome?_isSome_iff, Option.isSome_map, writeAfter?_isSome]
  exact ⟨call, called, write, written, path⟩

namespace Body

variable (scope : Scope) (statements : List Statement) (templates : Table Template) (depth : Nat)
  (root : String)

theorem finish_edge_order {source target : Nat} :
    let body := (build scope statements).inline templates depth root
    (pieceGraph body.finish.1).Edge source target →
      source < target ∨ ClosesRound body.blocks (pieceGraph body.finish.1) source target := by
  intro body edge
  have settled : Settled body.free body.blocks :=
    inline_settled scope statements templates depth root
  have graph : pieceGraph body.finish.1 = pieceGraph (piecesFrom body.free body.blocks).1 :=
    pieceGraph_splitBlocks ..
  rw [graph] at edge ⊢
  exact settled.edge_order (inline_laid scope statements templates depth root) edge

variable {statements}

theorem inline_unmarked (calm : ∀ statement ∈ statements, statement.kind.isLoop = false) :
    ∀ block ∈ ((build scope statements).inline templates depth root).blocks, block.role = none := by
  intro block member
  have outlined : block.outline ∈ outlinesOf (flowBlocks statements).1 := by
    rw [← outlinesOf_build scope, ← outlinesOf_inline _ templates depth root]
    exact List.mem_map_of_mem member
  obtain ⟨old, inside, same⟩ := List.mem_map.mp outlined
  have role : old.role = block.role := congrArg Outline.role same
  rw [← role]
  exact flowBlocks_unmarked calm old inside

end Body

/-- Control goes forward in the finished list of a body except at the end of a round of a loop. So
where no statement of the body is a loop, a function that is reported by reachability is reported
by order as well. -/
theorem finish_inFlowOrder (scope : Scope) (statements : List Statement)
    (templates : Table Template) (depth : Nat) (root : String) :
    let body := (Body.build scope statements).inline templates depth root
    let pieces := body.finish.1
    (∀ source target, (pieceGraph pieces).Edge source target →
      source < target ∨ ClosesRound body.blocks (pieceGraph pieces) source target) ∧
    ((∀ statement ∈ statements, statement.kind.isLoop = false) →
      ∀ (state : Names) (contract function : String) (modifiers : List String) (guards : Bool),
        (Detector.check ⟨.reachability, guards⟩ state contract function modifiers
          pieces).isSome = true →
        (Detector.check ⟨.ordered, guards⟩ state contract function modifiers
          pieces).isSome = true) := by
  intro body pieces
  have order (source target : Nat) (edge : (pieceGraph pieces).Edge source target) :=
    Body.finish_edge_order scope statements templates depth root edge
  refine ⟨order, ?_⟩
  intro calm state contract function modifiers guards reported
  have forward (source target : Nat) (edge : (pieceGraph pieces).Edge source target) :
      source < target := by
    rcases order source target edge with later | ⟨headed, role, _⟩
    · exact later
    · have unmarked := Body.inline_unmarked scope templates depth root calm _
        (List.mem_of_getElem? headed)
      rw [unmarked] at role
      cases role
  obtain ⟨free, exposed⟩ := Detector.check_isSome.mp reported
  exact Detector.check_isSome.mpr ⟨free, exposure?_ordered_of_reachability forward exposed⟩

open Snippet in
/-- `if (c) { msg.sender.call(1); } x = 1;` -/
theorem guarded_send_found_by_order :
    let statements := [Statement.branch (named "c") [sends] [], sets (named "x") one]
    let pieces := ((Body.build {} statements).inline Table.empty 0 "f").finish.1
    let check := fun mode =>
      Detector.check ⟨mode, false⟩ (Names.ofList ["x"]) "C" "f" [] pieces
    (∀ statement ∈ statements, statement.kind.isLoop = false) ∧
      (check .reachability).isSome = true ∧ (check .ordered).isSome = true := by
  intro statements pieces check
  have calm : ∀ statement ∈ statements, statement.kind.isLoop = false := by decide
  have called : ⟨1, "Block2", "msg.sender.call"⟩ ∈ externalCalls pieces := by decide +kernel
  have written : ⟨3, "Block1", "x"⟩ ∈ stateWrites (Names.ofList ["x"]) pieces := by decide +kernel
  have edge : 3 ∈ (pieceGraph pieces).successors 1 := by decide +kernel
  have reported : (check .reachability).isSome = true :=
    Detector.check_isSome.mpr ⟨rfl, exposure?_of_path called written (.single edge)⟩
  exact ⟨calm, reported,
    (finish_inFlowOrder {} statements Table.empty 0 "f").2 calm _ "C" "f" [] false reported⟩

open Snippet in
/-- In `while (c) { x = 1; msg.sender.call(1); }` the write follows the call only in the next
round. -/
example :
    let statements := [Statement.whileLoop (named "c") [sets (named "x") one, sends] []]
    let pieces := (Body.build {} statements).finish.1
    let check := fun mode =>
      Detector.check ⟨mode, false⟩ (Names.ofList ["x"]) "C" "f" [] pieces
    (check .reachability).isSome = true ∧ check .ordered = none := by
  intro statements pieces check
  have called : ⟨3, "Block4", "msg.sender.call"⟩ ∈ externalCalls pieces := by decide +kernel
  have written : ⟨2, "Block2", "x"⟩ ∈ stateWrites (Names.ofList ["x"]) pieces := by decide +kernel
  have back : 1 ∈ (pieceGraph pieces).successors 3 := by decide +kernel
  have again : 2 ∈ (pieceGraph pieces).successors 1 := by decide +kernel
  exact ⟨Detector.check_isSome.mpr ⟨rfl, exposure?_of_path called written
    (.tail (.single back) again)⟩, by decide +kernel⟩

end Reentrancy
