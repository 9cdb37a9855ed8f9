import Reentrancy.Proofs.Flow.Order
import Reentrancy.Proofs.Flow.Reachability
import Reentrancy.Proofs.Flow.Shape
import Reentrancy.Ssa.Phi

/-! Straight-line bodies. Without branches and loops every block leads to the next one or
nowhere, so no block joins two others. -/
namespace Reentrancy

/-- The exit to the first of the vertices; behind the last one control returns. -/
def Exit.into : Graph → Exit
  | [] => .ret
  | vertex :: _ => .goto vertex.id

namespace Graph

def Onward : Graph → Prop
  | [] => True
  | vertex :: rest =>
    (∀ target ∈ vertex.exit.targets, target ∈ (Exit.into rest).targets) ∧ Onward rest

def Chain : Graph → Prop
  | [] => True
  | vertex :: rest => vertex.exit = Exit.into rest ∧ Chain rest

variable {graph : Graph}

theorem Onward.leads_to_tail (onward : graph.Onward) {id : String} {vertex : Vertex}
    (member : vertex ∈ graph) (named : id ∈ vertex.exit.targets) : id ∈ graph.ids.tail := by
  induction graph with
  | nil => cases member
  | cons first rest ih =>
    have inside : id ∈ ids rest := by
      rcases List.mem_cons.mp member with rfl | later
      · cases rest with
        | nil => cases onward.1 id named
        | cons next others =>
          have here := List.mem_singleton.mp (onward.1 id named)
          exact here ▸ List.mem_cons_self
      · exact List.mem_of_mem_tail (ih onward.2 later)
    exact inside

theorem Onward.leading_le_one (onward : graph.Onward) (distinct : graph.ids.Nodup) (id : String) :
    (graph.filter fun vertex => vertex.exit.targets.contains id).length ≤ 1 := by
  induction graph with
  | nil => exact Nat.zero_le 1
  | cons first rest ih =>
    obtain ⟨_, later⟩ := List.nodup_cons.mp distinct
    rw [List.filter_cons]
    split
    next leads =>
      have named : id ∈ first.exit.targets := by simpa using leads
      -- The next vertex has the id, so no later one has it and nothing else leads there.
      have none : rest.filter (fun vertex => vertex.exit.targets.contains id) = [] := by
        rw [List.filter_eq_nil_iff]
        intro vertex member other
        have again := onward.2.leads_to_tail member (by simpa using other)
        cases rest with
        | nil => cases member
        | cons next others =>
          have here := List.mem_singleton.mp (onward.1 id named)
          rw [here] at again
          exact (List.nodup_cons.mp later).1 again
      rw [none]
      exact Nat.le_refl 1
    next => exact ih onward.2 later

theorem Onward.target_follows (onward : graph.Onward) {index : Nat} {vertex : Vertex}
    (located : graph[index]? = some vertex) {target : String}
    (named : target ∈ vertex.exit.targets) :
    ∃ next, graph[index + 1]? = some next ∧ next.id = target := by
  induction graph generalizing index with
  | nil => simp at located
  | cons first rest ih =>
    cases index with
    | zero =>
      obtain rfl := Option.some.inj located
      cases rest with
      | nil => cases onward.1 target named
      | cons next others =>
        exact ⟨next, rfl, (List.mem_singleton.mp (onward.1 target named)).symm⟩
    | succ index => exact ih onward.2 located

theorem Onward.backTarget? (onward : graph.Onward) (closed : graph.Closed) (index : Nat) :
    graph.backTarget? index = none := by
  unfold Graph.backTarget?
  split
  next target leaves =>
    cases located : graph[index]? with
    | none => simp [exitAt, located] at leaves
    | some vertex =>
      have exit : vertex.exit = .goto target := by simpa [exitAt, located] using leaves
      have named : target ∈ vertex.exit.targets := by simp [exit, Exit.targets]
      obtain ⟨next, following, same⟩ := onward.target_follows located named
      rw [← same, closed.position?_id following]
      simp
  next => rfl

theorem Onward.joins (onward : graph.Onward) (closed : graph.Closed) (index : Nat) :
    graph.joins index = false := by
  have noHeader : graph.headers = [] := by
    simp [headers, backEdges, onward.backTarget? closed]
  have few : (graph.predecessors (graph.idAt index)).length ≤ 1 := by
    rw [closed.predecessors_eq, List.length_map]
    exact onward.leading_le_one closed.distinct _
  have notTwo : ¬ 2 ≤ (graph.predecessors (graph.idAt index)).length := by omega
  simp [Graph.joins, noHeader, notTwo]

theorem Chain.onward (chain : graph.Chain) : graph.Onward := by
  induction graph with
  | nil => trivial
  | cons first rest ih =>
    obtain ⟨leads, later⟩ := chain
    exact ⟨fun target named => leads ▸ named, ih later⟩

end Graph

section Links

variable (number : Nat)

theorem linkBlocks_cons (run : List Statement) (rest : List (List Statement)) :
    ∃ block, linkBlocks number (run :: rest) = block :: linkBlocks (number + 1) rest ∧
      block.id = blockId number ∧ block.statements = run ∧ block.side = none ∧
      block.exit = Exit.closing run (if rest = [] then .pending else .goto (blockId (number + 1))) := by
  cases rest with
  | nil => exact ⟨_, rfl, rfl, rfl, rfl, by simp⟩
  | cons next others => exact ⟨_, rfl, rfl, rfl, rfl, by simp⟩

theorem into_linkBlocks (rest : List (List Statement)) :
    Exit.into (graphOf ((linkBlocks number rest).map Block.finalize)) =
      if rest = [] then .ret else .goto (blockId number) := by
  cases rest with
  | nil => rfl
  | cons next others =>
    obtain ⟨block, made, named, _⟩ := linkBlocks_cons number next others
    rw [made, if_neg (by simp), ← named]
    rfl

variable {number} {runs : List (List Statement)}

theorem linkBlocks_sides : ∀ block ∈ linkBlocks number runs, block.side = none := by
  intro block member
  obtain ⟨_, _, run, _, rfl⟩ := exists_linked member
  rfl

theorem linkBlocks_onward :
    (graphOf ((linkBlocks number runs).map Block.finalize)).Onward := by
  induction runs generalizing number with
  | nil => trivial
  | cons run rest ih =>
    obtain ⟨block, made, _, _, _, exit⟩ := linkBlocks_cons number run rest
    rw [made]
    refine ⟨fun target named => ?_, ih⟩
    have closing : target ∈ block.exit.targets := block.targets_finalize ▸ named
    rw [exit] at closing
    have next := Exit.targets_closing closing
    have into := into_linkBlocks (number + 1) rest
    rw [graphOf] at into
    rw [into]
    split at next
    · cases next
    next more => rwa [if_neg more]

theorem linkBlocks_chain (stay : ∀ run ∈ runs, ∀ statement ∈ run,
      statement.kind ≠ .ret ∧ statement.isRevert = false) :
    (graphOf ((linkBlocks number runs).map Block.finalize)).Chain := by
  induction runs generalizing number with
  | nil => trivial
  | cons run rest ih =>
    rw [List.forall_mem_cons] at stay
    obtain ⟨block, made, _, _, _, exit⟩ := linkBlocks_cons number run rest
    have goesOn (otherwise : Exit) : Exit.closing run otherwise = otherwise := by
      unfold Exit.closing
      split
      next last found =>
        obtain ⟨goes, calm⟩ := stay.1 last (List.mem_of_getLast? found)
        rw [if_neg goes, if_neg (by simp [calm])]
      next => rfl
    rw [goesOn] at exit
    rw [made]
    refine ⟨?_, ih stay.2⟩
    have final : block.finalize.exit = if block.exit.isPending then .ret else block.exit := rfl
    have into := into_linkBlocks (number + 1) rest
    rw [graphOf] at into
    rw [into]
    change block.finalize.exit = _
    rw [final, exit]
    split <;> rfl

end Links

section Bodies

theorem refineBlocks_plain (number : Nat) {blocks : List Block}
    (plain : ∀ block ∈ blocks, ∀ statement ∈ block.statements,
      statement.kind.isStructured = false) :
    refineBlocks number blocks = (blocks, number) := by
  induction blocks with
  | nil => rfl
  | cons block rest ih =>
    rw [List.forall_mem_cons] at plain
    have same : block.refine number = ([block], number) := by
      unfold Block.refine
      split
      next found => cases plain.1 _ (List.mem_of_getLast? found)
      next found => cases plain.1 _ (List.mem_of_getLast? found)
      next found => cases plain.1 _ (List.mem_of_getLast? found)
      next => rfl
    simp only [refineBlocks, same, ih plain.2]
    rfl

variable {body : List Statement}
  (plain : ∀ statement ∈ body, statement.kind.isStructured = false)

include plain

theorem flowBlocks_plain :
    (flowBlocks body).1 = ((buildBlocks 0 body).1.map Block.finalize).map Block.track := by
  have kept : ∀ block ∈ (buildBlocks 0 body).1, ∀ statement ∈ block.statements,
      statement.kind.isStructured = false :=
    fun block member statement inside => plain statement (mem_of_mem_buildBlocks member inside)
  simp only [flowBlocks, refineBlocks_plain _ kept]

theorem flowBlocks_sides : ∀ block ∈ (flowBlocks body).1, block.side = none := by
  rw [flowBlocks_plain plain]
  intro block member
  obtain ⟨final, finished, rfl⟩ := List.mem_map.mp member
  obtain ⟨built, inside, rfl⟩ := List.mem_map.mp finished
  exact linkBlocks_sides built inside

theorem graphOf_flowBlocks_plain :
    graphOf (flowBlocks body).1 = graphOf ((buildBlocks 0 body).1.map Block.finalize) := by
  rw [flowBlocks_plain plain]
  simp only [graphOf, List.map_map, Function.comp_def, Block.vertex_track]

theorem flowBlocks_onward : (graphOf (flowBlocks body).1).Onward := by
  rw [graphOf_flowBlocks_plain plain]
  exact linkBlocks_onward

theorem flowBlocks_chain
    (stay : ∀ statement ∈ body, statement.kind ≠ .ret ∧ statement.isRevert = false) :
    (graphOf (flowBlocks body).1).Chain := by
  rw [graphOf_flowBlocks_plain plain]
  apply linkBlocks_chain
  intro run found statement member
  exact stay statement (mem_of_mem_cutAfter _ found member)

end Bodies
end Reentrancy
