import Mathlib.Logic.Relation
import Reentrancy.Proofs.Flow.Graph

/-! Reachable blocks. The search finds exactly the positions that a path of at least one edge
leads to. In a graph with distinct ids a path can be followed by ids instead of positions. -/
namespace Reentrancy

section Search

variable {next : Nat → List Nat} {remaining pending : List Nat}

theorem path_of_mem_gather {node : Nat} (found : node ∈ gather next remaining pending) :
    ∃ start ∈ pending, Relation.ReflTransGen (fun source target => target ∈ next source) start
      node := by
  fun_induction gather next remaining pending with
  | case1 => cases found
  | case2 remaining first rest unseen ih =>
    rcases List.mem_cons.mp found with rfl | later
    · exact ⟨node, List.mem_cons_self, .refl⟩
    · obtain ⟨start, member, path⟩ := ih later
      rcases List.mem_append.mp member with child | waiting
      · exact ⟨first, List.mem_cons_self, .head child path⟩
      · exact ⟨start, List.mem_cons_of_mem _ waiting, path⟩
  | case3 remaining first rest seen ih =>
    obtain ⟨start, member, path⟩ := ih found
    exact ⟨start, List.mem_cons_of_mem _ member, path⟩

theorem mem_gather_of_pending {node : Nat} (waiting : node ∈ pending) (unseen : node ∈ remaining) :
    node ∈ gather next remaining pending := by
  fun_induction gather next remaining pending with
  | case1 => cases waiting
  | case2 remaining first rest inside ih =>
    by_cases same : node = first
    · exact same ▸ List.mem_cons_self
    · have later : node ∈ rest := (List.mem_cons.mp waiting).resolve_left same
      refine List.mem_cons_of_mem _ (ih (List.mem_append_right _ later) ?_)
      exact (List.mem_erase_of_ne same).mpr unseen
  | case3 remaining first rest seen ih =>
    refine ih ((List.mem_cons.mp waiting).resolve_left ?_) unseen
    rintro rfl
    exact seen unseen

theorem gather_closed {source target : Nat} (found : source ∈ gather next remaining pending)
    (edge : target ∈ next source) (unseen : target ∈ remaining) :
    target ∈ gather next remaining pending := by
  fun_induction gather next remaining pending with
  | case1 => cases found
  | case2 remaining first rest inside ih =>
    by_cases same : target = first
    · exact same ▸ List.mem_cons_self
    · have still : target ∈ remaining.erase first := (List.mem_erase_of_ne same).mpr unseen
      refine List.mem_cons_of_mem _ ?_
      rcases List.mem_cons.mp found with rfl | later
      · exact mem_gather_of_pending (List.mem_append_left _ edge) still
      · exact ih later still
  | case3 remaining first rest seen ih => exact ih found unseen

end Search

namespace Graph

variable {graph : Graph}

def Edge (graph : Graph) (source target : Nat) : Prop := target ∈ graph.successors source

/-- At least one edge leads from one position to the other. -/
def Path (graph : Graph) : Nat → Nat → Prop := Relation.TransGen graph.Edge

theorem Edge.target_lt {source target : Nat} (edge : graph.Edge source target) :
    target < graph.length := by
  unfold Edge successors at edge
  split at edge
  · split at edge
    next inside => exact List.mem_singleton.mp edge ▸ inside
    next => cases edge
  · obtain ⟨id, _, found⟩ := List.mem_filterMap.mp (List.mem_eraseDups.mp edge)
    obtain ⟨vertex, located, _⟩ := getElem?_of_position? found
    exact (List.getElem?_eq_some_iff.mp located).1

theorem Edge.source_lt {source target : Nat} (edge : graph.Edge source target) :
    source < graph.length := by
  apply Classical.byContradiction
  intro outside
  have missing : graph[source]? = none := List.getElem?_eq_none (by omega)
  simp [Edge, successors, exitAt, missing, Exit.isPending, Exit.targets] at edge

theorem Path.target_lt {source target : Nat} (path : graph.Path source target) :
    target < graph.length := by
  cases path with
  | single edge => exact edge.target_lt
  | tail _ edge => exact edge.target_lt

theorem mem_reachable {start target : Nat} :
    target ∈ graph.reachable start ↔ graph.Path start target := by
  simp only [reachable, List.mem_filter, List.mem_range, List.contains_iff_mem]
  constructor
  · rintro ⟨_, found⟩
    obtain ⟨first, edge, path⟩ := path_of_mem_gather found
    exact Relation.TransGen.head' edge path
  · intro path
    refine ⟨path.target_lt, ?_⟩
    induction path with
    | single edge => exact mem_gather_of_pending edge (List.mem_range.mpr (Edge.target_lt edge))
    | tail _ edge ih => exact gather_closed ih edge (List.mem_range.mpr (Edge.target_lt edge))

def Links (graph : Graph) (before after : String) : Prop :=
  ∃ vertex ∈ graph, vertex.id = before ∧ after ∈ vertex.exit.targets

theorem eq_of_id (distinct : graph.ids.Nodup) {first second : Nat} {one two : Vertex}
    (located : graph[first]? = some one) (other : graph[second]? = some two)
    (same : one.id = two.id) : first = second ∧ one = two := by
  have bound : first < graph.ids.length := by
    simpa [ids] using (List.getElem?_eq_some_iff.mp located).1
  have equal : first = second := by
    refine (List.getElem?_inj bound distinct).mp ?_
    simp [ids, located, other, same]
  subst equal
  exact ⟨rfl, Option.some.inj (located.symm.trans other)⟩

theorem links_iff (distinct : graph.ids.Nodup) {vertex : Vertex} (member : vertex ∈ graph)
    {after : String} : graph.Links vertex.id after ↔ after ∈ vertex.exit.targets := by
  constructor
  · rintro ⟨other, inside, same, target⟩
    obtain ⟨first, located⟩ := List.getElem?_of_mem inside
    obtain ⟨second, found⟩ := List.getElem?_of_mem member
    obtain ⟨_, rfl⟩ := eq_of_id distinct located found same
    exact target
  · intro target
    exact ⟨vertex, member, rfl, target⟩

theorem position?_id (distinct : graph.ids.Nodup) {index : Nat} {vertex : Vertex}
    (located : graph[index]? = some vertex) : graph.position? vertex.id = some index := by
  have present : vertex.id ∈ graph.ids :=
    List.mem_map_of_mem (List.mem_of_getElem? located)
  obtain ⟨found, position⟩ := Option.isSome_iff_exists.mp (position?_isSome.mpr present)
  obtain ⟨other, there, same⟩ := getElem?_of_position? position
  rw [position, (eq_of_id distinct there located same).1]

/-- An open block leads to the position behind it, any other to the ids that its exit names. -/
theorem edge_iff (distinct : graph.ids.Nodup) {source target : Nat} {first last : Vertex}
    (located : graph[source]? = some first) (found : graph[target]? = some last) :
    graph.Edge source target ↔
      if first.exit.isPending then target = source + 1 else last.id ∈ first.exit.targets := by
  split
  next pending =>
    have exit : graph.exitAt source = first.exit := by simp [exitAt, located]
    have bound := (List.getElem?_eq_some_iff.mp found).1
    rw [Edge, successors, exit, if_pos pending]
    split
    · exact List.mem_singleton
    · constructor
      · intro none
        cases none
      · omega
  next decided =>
    rw [Edge, mem_successors located (by simpa using decided)]
    constructor
    · rintro ⟨id, named, position⟩
      obtain ⟨other, there, rfl⟩ := getElem?_of_position? position
      obtain rfl : last = other := Option.some.inj (found.symm.trans there)
      exact named
    · intro named
      exact ⟨last.id, named, position?_id distinct found⟩

namespace Closed

variable (closed : graph.Closed)

include closed

theorem position?_id {index : Nat} {vertex : Vertex} (located : graph[index]? = some vertex) :
    graph.position? vertex.id = some index :=
  Graph.position?_id closed.distinct located

theorem edge_iff {source target : Nat} {first last : Vertex}
    (located : graph[source]? = some first) (found : graph[target]? = some last) :
    graph.Edge source target ↔ graph.Links first.id last.id := by
  have member := List.mem_of_getElem? located
  rw [Graph.edge_iff closed.distinct located found, if_neg (by simp [closed.decided first member]),
    links_iff closed.distinct member]

theorem path_iff {source target : Nat} {first last : Vertex}
    (located : graph[source]? = some first) (found : graph[target]? = some last) :
    graph.Path source target ↔ Relation.TransGen graph.Links first.id last.id := by
  constructor
  · intro path
    induction path generalizing last with
    | single edge => exact .single ((closed.edge_iff located found).mp edge)
    | @tail middle target path edge ih =>
      have there := List.getElem?_eq_getElem (Path.target_lt path)
      exact .tail (ih there) ((closed.edge_iff there found).mp edge)
  · intro path
    generalize ends : last.id = id at path
    induction path generalizing target last with
    | single link =>
      subst ends
      exact .single ((closed.edge_iff located found).mpr link)
    | tail _ link ih =>
      subst ends
      obtain ⟨vertex, member, rfl, named⟩ := link
      obtain ⟨middle, there⟩ := List.getElem?_of_mem member
      exact .tail (ih there rfl) ((closed.edge_iff there found).mpr ⟨vertex, member, rfl, named⟩)

end Closed
end Graph
end Reentrancy
