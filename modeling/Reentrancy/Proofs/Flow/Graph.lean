import Reentrancy.Flow.Graph

/-! Ids, jumps and predecessors in a control-flow graph. -/
namespace Reentrancy.Graph

variable {graph : Graph} {id : String}

def ids (graph : Graph) : List String := graph.map (·.id)

theorem position?_isSome : (graph.position? id).isSome ↔ id ∈ graph.ids := by
  induction graph with
  | nil => simp [position?, ids]
  | cons vertex rest ih =>
    rw [position?]
    cases found : position? id rest with
    | some index =>
      have member : id ∈ ids rest := ih.mp (by simp [found])
      simpa [ids] using Or.inr member
    | none =>
      have absent : id ∉ ids rest := fun member => by simpa [found] using ih.mpr member
      by_cases same : vertex.id = id
      · simp [ids, same]
      · simpa [ids, same, Ne.symm same] using absent

theorem position?_isNone : (graph.position? id).isNone = true ↔ id ∉ graph.ids := by
  rw [← position?_isSome]
  cases graph.position? id <;> simp

theorem getElem?_of_position? {index : Nat} (found : graph.position? id = some index) :
    ∃ vertex, graph[index]? = some vertex ∧ vertex.id = id := by
  induction graph generalizing index with
  | nil => simp [position?] at found
  | cons vertex rest ih =>
    rw [position?] at found
    split at found
    next later inside =>
      obtain ⟨other, located, same⟩ := ih inside
      cases found
      exact ⟨other, located, same⟩
    next =>
      split at found
      next same =>
        cases found
        exact ⟨vertex, rfl, same⟩
      next => cases found

theorem idAt_of_position? {index : Nat} (found : graph.position? id = some index) :
    graph.idAt index = id := by
  obtain ⟨vertex, located, same⟩ := getElem?_of_position? found
  simp [idAt, located, same]

theorem mem_successors {index next : Nat} {vertex : Vertex} (located : graph[index]? = some vertex)
    (decided : vertex.exit.isPending = false) :
    next ∈ graph.successors index ↔
      ∃ target ∈ vertex.exit.targets, graph.position? target = some next := by
  have exit : graph.exitAt index = vertex.exit := by simp [exitAt, located]
  simp [successors, exit, decided, List.mem_filterMap]

structure Closed (graph : Graph) : Prop where
  distinct : graph.ids.Nodup
  decided : ∀ vertex ∈ graph, vertex.exit.isPending = false
  inside : ∀ vertex ∈ graph, ∀ target ∈ vertex.exit.targets, target ∈ graph.ids

theorem Closed.leads_iff (closed : graph.Closed) {index : Nat} {vertex : Vertex}
    (located : graph[index]? = some vertex) :
    ((graph.successors index).any fun next => graph.idAt next == id) = true ↔
      id ∈ vertex.exit.targets := by
  have member := List.mem_of_getElem? located
  simp only [List.any_eq_true, beq_iff_eq, mem_successors located (closed.decided _ member)]
  constructor
  · rintro ⟨next, ⟨target, named, found⟩, same⟩
    rw [idAt_of_position? found] at same
    exact same ▸ named
  -- The target is an id of the graph, so it has a position.
  · intro named
    obtain ⟨next, found⟩ := Option.isSome_iff_exists.mp
      (position?_isSome.mpr (closed.inside _ member _ named))
    exact ⟨next, ⟨id, named, found⟩, idAt_of_position? found⟩

theorem eraseDups_of_nodup {α : Type} [BEq α] [LawfulBEq α] {names : List α}
    (distinct : names.Nodup) : names.eraseDups = names := by
  induction names with
  | nil => rfl
  | cons first rest ih =>
    obtain ⟨apart, later⟩ := List.nodup_cons.mp distinct
    have kept : rest.filter (fun name => !name == first) = rest := by
      apply List.filter_eq_self.mpr
      intro name member
      have other : name ≠ first := fun same => apart (same ▸ member)
      simp [other]
    rw [List.eraseDups_cons, kept, ih later]

theorem Closed.predecessors_eq (closed : graph.Closed) (id : String) :
    graph.predecessors id =
      (graph.filter fun vertex => vertex.exit.targets.contains id).map (·.id) := by
  let vertexAt : Nat → Vertex := fun index => graph[index]?.getD default
  have listed : (List.range graph.length).map vertexAt = graph := by
    apply List.ext_getElem
    · simp
    · intro index _ bound
      simp [vertexAt, List.getElem?_eq_getElem bound]
  have leads : ∀ index ∈ List.range graph.length,
      ((graph.successors index).any fun next => graph.idAt next == id) =
        (vertexAt index).exit.targets.contains id := by
    intro index member
    have bound := List.mem_range.mp member
    have located : graph[index]? = some (vertexAt index) := by
      simp [vertexAt, List.getElem?_eq_getElem bound]
    rw [Bool.eq_iff_iff, closed.leads_iff located, List.contains_iff_mem]
  have named : ∀ index, graph.idAt index = (vertexAt index).id := by
    intro index
    unfold idAt vertexAt
    cases graph[index]? <;> rfl
  have filtered := calc
    (graph.filter fun vertex => vertex.exit.targets.contains id).map (·.id)
    _ = (((List.range graph.length).map vertexAt).filter fun vertex =>
          vertex.exit.targets.contains id).map (·.id) := by rw [listed]
    _ = ((List.range graph.length).filter fun index =>
          (vertexAt index).exit.targets.contains id).map fun index => (vertexAt index).id := by
      rw [List.filter_map, List.map_map]
      rfl
    _ = ((List.range graph.length).filter fun index =>
          (graph.successors index).any fun next => graph.idAt next == id).map graph.idAt := by
      rw [List.filter_congr leads, funext named]
  rw [predecessors, ← filtered]
  exact eraseDups_of_nodup (closed.distinct.sublist (List.filter_sublist.map _))

theorem Closed.mem_predecessors (closed : graph.Closed) {before : String} :
    before ∈ graph.predecessors id ↔
      ∃ vertex ∈ graph, vertex.id = before ∧ id ∈ vertex.exit.targets := by
  rw [closed.predecessors_eq]
  simp only [List.mem_map, List.mem_filter, List.contains_iff_mem]
  grind

theorem Closed.predecessors_ne_nil (closed : graph.Closed) :
    graph.predecessors id ≠ [] ↔ ∃ vertex ∈ graph, id ∈ vertex.exit.targets := by
  constructor
  · intro some
    obtain ⟨before, member⟩ := List.exists_mem_of_ne_nil _ some
    obtain ⟨vertex, inside, _, target⟩ := closed.mem_predecessors.mp member
    exact ⟨vertex, inside, target⟩
  · rintro ⟨vertex, inside, target⟩
    exact List.ne_nil_of_mem (closed.mem_predecessors.mpr ⟨vertex, inside, rfl, target⟩)

end Reentrancy.Graph
