import Mathlib.Data.List.Nodup
import Reentrancy.Proofs.Flow.Reachability
import Reentrancy.Proofs.Table

/-! The edges of a control-flow graph. Predecessors, back edges and the list of all edges are each
computed on their own, by ids or by positions. In a graph with distinct ids they all show the one
relation that the successors give. -/
namespace Reentrancy.Graph

variable {graph : Graph} {source target : Nat}

theorem backTarget?_eq_some (found : graph.backTarget? source = some target) :
    ∃ vertex id, graph[source]? = some vertex ∧ vertex.exit = .goto id ∧
      graph.position? id = some target ∧ target ≤ source := by
  unfold backTarget? at found
  split at found
  next id jump =>
    obtain ⟨position, backward⟩ := Option.filter_eq_some_iff.mp found
    cases located : graph[source]? with
    | none => simp [exitAt, located] at jump
    | some vertex =>
      have exit : vertex.exit = .goto id := by simpa [exitAt, located] using jump
      exact ⟨vertex, id, rfl, exit, position, by simpa using backward⟩
  next => cases found

/-- An edge that is an unconditional jump and does not go forward. -/
def GoesBack (graph : Graph) (source target : Nat) : Prop :=
  graph.Edge source target ∧ target ≤ source ∧ ∃ id, graph.exitAt source = .goto id

theorem backTarget?_iff :
    graph.backTarget? source = some target ↔ graph.GoesBack source target := by
  have edge {id : String} (jump : graph.exitAt source = .goto id) :
      graph.Edge source target ↔ graph.position? id = some target := by
    simp [Edge, successors, jump, Exit.isPending, Exit.targets, eq_comm]
  constructor
  · intro found
    obtain ⟨vertex, id, located, jump, position, below⟩ := backTarget?_eq_some found
    have exit : graph.exitAt source = .goto id := by simp [exitAt, located, jump]
    exact ⟨(edge exit).mpr position, below, id, exit⟩
  · rintro ⟨leads, below, id, exit⟩
    rw [backTarget?, exit]
    exact Option.filter_eq_some_iff.mpr ⟨(edge exit).mp leads, by simpa using below⟩

theorem mem_backEdges : (source, target) ∈ graph.backEdges ↔ graph.GoesBack source target := by
  simp only [backEdges, List.mem_filterMap, List.mem_range, Option.map_eq_some_iff, backTarget?_iff]
  constructor
  · rintro ⟨_, _, _, back, same⟩
    obtain ⟨rfl, rfl⟩ := Prod.mk.inj same
    exact back
  · intro back
    exact ⟨source, back.1.source_lt, target, back, rfl⟩

theorem backEdges_nodup (graph : Graph) : graph.backEdges.Nodup := by
  refine List.nodup_range.filterMap fun first second edge one two => ?_
  obtain ⟨_, _, rfl⟩ := Option.map_eq_some_iff.mp one
  obtain ⟨_, _, same⟩ := Option.map_eq_some_iff.mp two
  exact (Prod.mk.inj same).1.symm

theorem mem_headers : target ∈ graph.headers ↔ ∃ source, graph.GoesBack source target := by
  simp only [headers, List.mem_filter, List.mem_range, List.any_eq_true]
  constructor
  · rintro ⟨_, ⟨source, other⟩, listed, same⟩
    obtain rfl : other = target := by simpa using same
    exact ⟨source, mem_backEdges.mp listed⟩
  · rintro ⟨source, back⟩
    exact ⟨back.1.target_lt, (source, target), mem_backEdges.mpr back, by simp⟩

theorem mem_edges : (source, target) ∈ graph.edges ↔ graph.Edge source target := by
  simp only [edges, List.mem_flatMap, List.mem_map, List.mem_filter, List.mem_range,
    List.contains_iff_mem]
  constructor
  · rintro ⟨_, _, _, ⟨_, edge⟩, same⟩
    obtain ⟨rfl, rfl⟩ := Prod.mk.inj same
    exact edge
  · intro edge
    exact ⟨source, Edge.source_lt edge, target, ⟨Edge.target_lt edge, edge⟩, rfl⟩

theorem edges_nodup (graph : Graph) : graph.edges.Nodup := by
  refine List.nodup_flatMap.mpr ⟨fun source _ => ?_, ?_⟩
  · exact (List.nodup_range.filter _).map fun _ _ same => (Prod.mk.inj same).2
  · refine List.nodup_range.imp fun {one other} apart edge left right => apart ?_
    obtain ⟨_, _, rfl⟩ := List.mem_map.mp left
    obtain ⟨_, _, same⟩ := List.mem_map.mp right
    exact (Prod.mk.inj same).1.symm

def sources (graph : Graph) (index : Nat) : List Nat :=
  (List.range graph.length).filter fun source => (graph.successors source).contains index

theorem mem_sources : source ∈ graph.sources target ↔ graph.Edge source target := by
  rw [sources, List.mem_filter, List.mem_range, List.contains_iff_mem]
  exact ⟨And.right, fun edge => ⟨Edge.source_lt edge, edge⟩⟩

theorem sources_ne_nil : graph.sources target ≠ [] ↔ ∃ source, graph.Edge source target := by
  simp only [← mem_sources]
  constructor
  · exact List.exists_mem_of_ne_nil _
  · rintro ⟨source, member⟩
    exact List.ne_nil_of_mem member

theorem sources_nodup (graph : Graph) (index : Nat) : (graph.sources index).Nodup :=
  List.nodup_range.filter _

theorem ids_eq_map_range (graph : Graph) :
    graph.ids = (List.range graph.length).map graph.idAt := by
  apply List.ext_getElem
  · simp [ids]
  · intro index _ bound
    simp only [List.length_map, List.length_range] at bound
    simp [ids, idAt, List.getElem?_eq_getElem bound]

theorem get?_predecessorTable (graph : Graph) (id : String) :
    graph.predecessorTable.get? id =
      if id ∈ graph.ids then some (graph.predecessors id) else none := by
  have listed : graph.predecessorTable =
      Table.ofList (graph.ids.map fun id => (id, graph.predecessors id)) := by
    rw [predecessorTable, ids, List.map_map]
    rfl
  rw [listed, Table.get?_ofList_map]

theorem mem_keys_predecessorTable {id : String} :
    id ∈ graph.predecessorTable.keys ↔ id ∈ graph.ids := by
  rw [Table.mem_keys, Table.contains, get?_predecessorTable]
  split
  next known => simp [known]
  next absent => simp [absent]

section Distinct

variable (distinct : graph.ids.Nodup)

include distinct

theorem idAt_inj {first second : Nat} (low : first < graph.length) (high : second < graph.length) :
    graph.idAt first = graph.idAt second ↔ first = second := by
  constructor
  · intro same
    have here := List.getElem?_eq_getElem low
    have there := List.getElem?_eq_getElem high
    exact (eq_of_id distinct here there (by simpa [idAt, here, there] using same)).1
  · exact congrArg graph.idAt

theorem position?_idAt {index : Nat} (bound : index < graph.length) :
    graph.position? (graph.idAt index) = some index := by
  have located := List.getElem?_eq_getElem bound
  have named : graph.idAt index = graph[index].id := by simp [idAt, located]
  rw [named]
  exact position?_id distinct located

theorem predecessors_eq_sources {index : Nat} (bound : index < graph.length) :
    graph.predecessors (graph.idAt index) = (graph.sources index).map graph.idAt := by
  have leads : ∀ source ∈ List.range graph.length,
      ((graph.successors source).any fun next => graph.idAt next == graph.idAt index) =
        (graph.successors source).contains index := by
    intro source _
    rw [Bool.eq_iff_iff, List.any_eq_true, List.contains_iff_mem]
    constructor
    · rintro ⟨next, member, same⟩
      have inside : next < graph.length := Edge.target_lt member
      rw [beq_iff_eq, idAt_inj distinct inside bound] at same
      exact same ▸ member
    · intro member
      exact ⟨index, member, by simp⟩
  rw [predecessors, List.filter_congr leads]
  apply eraseDups_of_nodup
  refine (sources_nodup graph index).map_on fun one left two right same => ?_
  have low := (List.mem_range.mp (List.mem_filter.mp left).1)
  have high := (List.mem_range.mp (List.mem_filter.mp right).1)
  exact (idAt_inj distinct low high).mp same

theorem predecessors_ne_nil {index : Nat} (bound : index < graph.length) :
    graph.predecessors (graph.idAt index) ≠ [] ↔ ∃ source, graph.Edge source index := by
  rw [predecessors_eq_sources distinct bound, Ne, List.map_eq_nil_iff, ← Ne, sources_ne_nil]

theorem idAt_mem_predecessors (low : source < graph.length) (high : target < graph.length) :
    graph.idAt source ∈ graph.predecessors (graph.idAt target) ↔ graph.Edge source target := by
  rw [predecessors_eq_sources distinct high, List.mem_map, ← mem_sources]
  constructor
  · rintro ⟨other, member, same⟩
    have inside := Edge.source_lt (mem_sources.mp member)
    exact (idAt_inj distinct inside low).mp same ▸ member
  · intro member
    exact ⟨source, member, rfl⟩

theorem predecessors_sublist (bound : target < graph.length) :
    (graph.predecessors (graph.idAt target)).Sublist graph.ids := by
  rw [predecessors_eq_sources distinct bound, ids_eq_map_range]
  exact List.filter_sublist.map _

end Distinct

/-- With distinct ids, whatever the exits are, the table of predecessors has the ids as its keys and
is the converse of the successors, each block before another listed once and in block order. The
edges are the successor pairs, and the back edges those that an unconditional jump leads along, but
not forward. -/
theorem predecessorTable_converse (graph : Graph) (distinct : graph.ids.Nodup) :
    (∀ id, id ∈ graph.predecessorTable.keys ↔ id ∈ graph.ids) ∧
    (∀ target < graph.length, ∃ before,
      graph.predecessorTable.get? (graph.idAt target) = some before ∧
      (∀ source < graph.length, graph.idAt source ∈ before ↔ target ∈ graph.successors source) ∧
      before.Nodup ∧ before.Sublist graph.ids) ∧
    (∀ source target, (source, target) ∈ graph.edges ↔ target ∈ graph.successors source) ∧
    graph.edges.Nodup ∧
    (∀ source target, (source, target) ∈ graph.backEdges ↔
      target ∈ graph.successors source ∧ target ≤ source ∧
        ∃ id, graph.exitAt source = .goto id) ∧
    graph.backEdges.Nodup := by
  refine ⟨fun _ => mem_keys_predecessorTable, fun target bound => ?_, fun _ _ => mem_edges,
    edges_nodup graph, fun _ _ => mem_backEdges, backEdges_nodup graph⟩
  have ordered := predecessors_sublist distinct bound
  refine ⟨graph.predecessors (graph.idAt target), ?_, ?_, distinct.sublist ordered, ordered⟩
  · have known : graph.idAt target ∈ graph.ids := by
      rw [ids_eq_map_range]
      exact List.mem_map_of_mem (List.mem_range.mpr bound)
    rw [get?_predecessorTable, if_pos known]
  · intro source low
    exact idAt_mem_predecessors distinct low bound

/-- A branch with one target that is no block, a block that jumps to itself, an open block and a
jump back. -/
theorem dangling_branch_converse :
    let graph : Graph := [⟨"a", .branch .missing "c" "gone"⟩, ⟨"b", .goto "b"⟩, ⟨"c", .pending⟩,
      ⟨"d", .goto "a"⟩]
    graph.ids.Nodup ∧ "gone" ∉ graph.predecessorTable.keys ∧
      (∃ before, graph.predecessorTable.get? "d" = some before ∧ "c" ∈ before ∧ "d" ∉ before) ∧
      (0, 2) ∈ graph.edges ∧ (0, 1) ∉ graph.edges ∧
      (1, 1) ∈ graph.backEdges ∧ (3, 0) ∈ graph.backEdges ∧ (2, 3) ∉ graph.backEdges := by
  intro graph
  have distinct : graph.ids.Nodup := by decide
  obtain ⟨keys, before, edges, _, backEdges, _⟩ := predecessorTable_converse graph distinct
  refine ⟨distinct, ?_, ?_, ?_, ?_, ?_, ?_, ?_⟩
  · rw [keys]
    decide
  · obtain ⟨found, listed, converse, _⟩ := before 3 (by decide)
    exact ⟨found, listed, (converse 2 (by decide)).mpr (by decide),
      fun again => absurd ((converse 3 (by decide)).mp again) (by decide)⟩
  · rw [edges]
    decide
  · rw [edges]
    decide
  · exact (backEdges 1 1).mpr ⟨by decide, by decide, "b", rfl⟩
  · exact (backEdges 3 0).mpr ⟨by decide, by decide, "a", rfl⟩
  · intro back
    exact absurd ((backEdges 2 3).mp back).2.1 (by decide)

end Reentrancy.Graph
