import Mathlib.Data.List.Cycle
import Reentrancy.Proofs.Flow.Reachability

/-! What the search for reachable blocks finds, written out as positions: the ends of the routes
from a block on. A block is found from itself if it lies on a cycle, and then on one that passes no
position twice. -/
namespace Reentrancy.Graph

variable {graph : Graph} {start target : Nat}

/-- Positions in a row, each a successor of the one before it, with at least one move. -/
structure Route (graph : Graph) (start target : Nat) (stops : List Nat) : Prop where
  starts : stops.head? = some start
  ends : stops.getLast? = some target
  moves : 2 ≤ stops.length
  follows : stops.IsChain fun source next => next ∈ graph.successors source

theorem Route.extend {stops : List Nat} (route : graph.Route start target stops) {next : Nat}
    (edge : graph.Edge target next) : graph.Route start next (stops ++ [next]) where
  starts := by rw [List.head?_append, route.starts, Option.some_or]
  ends := List.getLast?_concat
  moves := by
    have moves := route.moves
    rw [List.length_append]
    omega
  follows := by
    refine List.isChain_append.mpr ⟨route.follows, .singleton _, ?_⟩
    intro last ending first leading
    obtain rfl : target = last := Option.some.inj (route.ends.symm.trans ending)
    obtain rfl : next = first := Option.some.inj leading
    exact edge

theorem Path.exists_route (path : graph.Path start target) :
    ∃ stops, graph.Route start target stops := by
  induction path with
  | @single next edge =>
    exact ⟨[start, next], rfl, rfl, Nat.le_refl 2, .cons_cons edge (.singleton _)⟩
  | tail _ edge ih =>
    obtain ⟨stops, route⟩ := ih
    exact ⟨_, route.extend edge⟩

theorem Route.path {stops : List Nat} (route : graph.Route start target stops) :
    graph.Path start target := by
  obtain ⟨starts, ends, moves, follows⟩ := route
  cases stops with
  | nil => cases starts
  | cons first stops =>
    obtain rfl : first = start := Option.some.inj starts
    cases stops with
    | nil => simp at moves
    | cons second rest =>
      obtain ⟨edge, later⟩ := List.isChain_cons_cons.mp follows
      rw [List.getLast?_cons_cons, List.getLast?_eq_some_getLast (List.cons_ne_nil _ _)] at ends
      exact Relation.TransGen.head' edge
        (List.relationReflTransGen_of_exists_isChain_cons rest later (Option.some.inj ends))

theorem exists_nodup_chain {relation : Nat → Nat → Prop} {first last : Nat}
    (path : Relation.ReflTransGen relation first last) :
    ∃ stops, (first :: stops).IsChain relation ∧ (first :: stops).Nodup ∧
      (first :: stops).getLast? = some last := by
  induction path using Relation.ReflTransGen.head_induction_on with
  | refl => exact ⟨[], .singleton _, List.nodup_singleton _, rfl⟩
  | @head first second edge _ ih =>
    obtain ⟨stops, chain, distinct, ends⟩ := ih
    by_cases again : first ∈ second :: stops
    -- What lies between the two visits is left out.
    · obtain ⟨front, back, split⟩ := List.append_of_mem again
      rw [split] at chain distinct ends
      refine ⟨back, chain.right_of_append, distinct.of_append_right, ?_⟩
      rwa [List.getLast?_append_of_ne_nil _ (List.cons_ne_nil _ _)] at ends
    · refine ⟨second :: stops, .cons_cons edge chain, List.nodup_cons.mpr ⟨again, distinct⟩, ?_⟩
      rwa [List.getLast?_cons_cons]

theorem path_self_iff_cycle :
    graph.Path start start ↔
      ∃ cycle : Cycle Nat, cycle.Nodup ∧ cycle.Chain graph.Edge ∧ start ∈ cycle := by
  constructor
  · intro path
    obtain ⟨second, edge, back⟩ := Relation.TransGen.head'_iff.mp path
    obtain ⟨stops, chain, distinct, ends⟩ := exists_nodup_chain back
    refine ⟨(second :: stops : List Nat), distinct, ?_, List.mem_of_getLast? ends⟩
    rw [Cycle.chain_coe_cons, ← List.cons_append]
    refine List.isChain_append.mpr ⟨chain, .singleton _, ?_⟩
    intro last ending first leading
    obtain rfl : start = last := Option.some.inj (ends.symm.trans ending)
    obtain rfl : second = first := Option.some.inj leading
    exact edge
  · rintro ⟨cycle, _, chain, member⟩
    have paths : cycle.Chain (Relation.TransGen graph.Edge) :=
      chain.imp fun _ _ edge => .single edge
    exact Cycle.chain_iff_pairwise.mp paths start member start member

/-- Whatever the ids and exits are, exactly the ends of routes are reachable, and the start itself
exactly on a cycle. -/
theorem mem_reachable_iff_route (graph : Graph) (start target : Nat) :
    (target ∈ graph.reachable start ↔ ∃ stops, graph.Route start target stops) ∧
      (start ∈ graph.reachable start ↔
        ∃ cycle : Cycle Nat, cycle.Nodup ∧
          (cycle.Chain fun source next => next ∈ graph.successors source) ∧ start ∈ cycle) := by
  simp only [mem_reachable]
  refine ⟨⟨Path.exists_route, ?_⟩, path_self_iff_cycle⟩
  rintro ⟨stops, route⟩
  exact route.path

end Reentrancy.Graph
