import Reentrancy.Proofs.Flow.Graph

/-! Block ids. A pass that replaces a block by several keeps the id of the block for the
first and numbers the others from the next free number on. Ids then stay distinct, and
jumps stay inside the graph. -/
namespace Reentrancy

theorem blockId_injective {first second : Nat} (same : blockId first = blockId second) :
    first = second := by
  have digits : Nat.toDigits 10 first = Nat.toDigits 10 second := by
    have texts : first.repr = second.repr := String.append_right_inj "Block" |>.mp same
    simpa using congrArg String.toList texts
  have values := congrArg (Nat.ofDigitChars 10 · 0) digits
  simpa [Nat.ofDigitChars_toDigits] using values

def numberedIds (number count : Nat) : List String := (List.range' number count).map blockId

theorem numberedIds_append (number first second : Nat) :
    numberedIds number first ++ numberedIds (number + first) second =
      numberedIds number (first + second) := by
  rw [numberedIds, numberedIds, ← List.map_append, List.range'_append_1, numberedIds]

theorem mem_numberedIds {id : String} {number count : Nat} :
    id ∈ numberedIds number count ↔
      ∃ index, number ≤ index ∧ index < number + count ∧ blockId index = id := by
  simp [numberedIds, List.mem_range'_1, and_assoc]

theorem numberedIds_nodup (number count : Nat) : (numberedIds number count).Nodup :=
  List.Pairwise.map blockId (fun _ _ differ same => differ (blockId_injective same))
    List.nodup_range'

namespace Graph

structure Numbered (free : Nat) (graph : Graph) : Prop where
  distinct : graph.ids.Nodup
  below : ∀ id ∈ graph.ids, ∃ number < free, blockId number = id
  inside : ∀ vertex ∈ graph, ∀ target ∈ vertex.exit.targets, target ∈ graph.ids

/-- The graph `part` stands in the place of one block. -/
structure Replaces (number : Nat) (vertex : Vertex) (part : Graph) (next : Nat) : Prop where
  named : ∃ count, next = number + count ∧ part.ids = vertex.id :: numberedIds number count
  inside : ∀ inner ∈ part, ∀ target ∈ inner.exit.targets,
    target ∈ vertex.exit.targets ∨ target ∈ part.ids

inductive ReplacesAll : Nat → Graph → Graph → Nat → Prop where
  | nil (number : Nat) : ReplacesAll number [] [] number
  | cons {number middle last : Nat} {vertex : Vertex} {part rest others : Graph}
      (first : Replaces number vertex part middle) (later : ReplacesAll middle rest others last) :
      ReplacesAll number (vertex :: rest) (part ++ others) last

namespace ReplacesAll

variable {number last : Nat} {graph result : Graph}

theorem named (replaced : ReplacesAll number graph result last) :
    ∃ count, last = number + count ∧
      result.ids.Perm (graph.ids ++ numberedIds number count) := by
  induction replaced with
  | nil number => exact ⟨0, rfl, .nil⟩
  | @cons number middle last vertex part rest others first later ih =>
    obtain ⟨count, rfl, part_ids⟩ := first.named
    obtain ⟨more, rfl, shuffled⟩ := ih
    refine ⟨count + more, Nat.add_assoc .., ?_⟩
    have ids : ids (part ++ others) = vertex.id :: (numberedIds number count ++ ids others) := by
      rw [ids, List.map_append]
      exact congrArg (· ++ ids others) part_ids
    -- The new ids of this part go behind the old ids of the blocks after it.
    rw [ids, ← numberedIds_append]
    refine List.Perm.cons vertex.id ?_
    exact (shuffled.append_left _).trans (List.perm_append_comm_assoc ..)

theorem inside (replaced : ReplacesAll number graph result last) :
    ∀ inner ∈ result, ∀ target ∈ inner.exit.targets,
      (∃ vertex ∈ graph, target ∈ vertex.exit.targets) ∨ target ∈ result.ids := by
  induction replaced with
  | nil => simp
  | @cons _ _ _ vertex part rest others first later ih =>
    intro inner member target named
    rcases List.mem_append.mp member with here | after
    · rcases first.inside inner here target named with old | new
      · exact .inl ⟨vertex, List.mem_cons_self, old⟩
      · exact .inr (by simpa [ids] using Or.inl new)
    · rcases ih inner after target named with ⟨other, found, old⟩ | new
      · exact .inl ⟨other, List.mem_cons_of_mem _ found, old⟩
      · exact .inr (by simpa [ids] using Or.inr new)

theorem distinct (replaced : ReplacesAll number graph result last) (before : graph.ids.Nodup)
    (unused : ∀ id ∈ graph.ids, ∀ later, number ≤ later → id ≠ blockId later) :
    result.ids.Nodup := by
  obtain ⟨count, _, shuffled⟩ := replaced.named
  refine shuffled.nodup_iff.mpr (List.nodup_append.mpr
    ⟨before, numberedIds_nodup number count, ?_⟩)
  rintro old inside _ fresh rfl
  obtain ⟨later, above, _, same⟩ := mem_numberedIds.mp fresh
  exact unused old inside later above same.symm

theorem numbered (replaced : ReplacesAll number graph result last)
    (before : graph.Numbered number) : result.Numbered last := by
  obtain ⟨count, rfl, shuffled⟩ := replaced.named
  constructor
  · refine replaced.distinct before.distinct ?_
    rintro id inside later above rfl
    obtain ⟨small, bound, named⟩ := before.below _ inside
    have equal := blockId_injective named
    omega
  · intro id member
    rcases List.mem_append.mp (shuffled.mem_iff.mp member) with old | fresh
    · obtain ⟨index, bound, named⟩ := before.below id old
      exact ⟨index, by omega, named⟩
    · obtain ⟨index, _, bound, named⟩ := mem_numberedIds.mp fresh
      exact ⟨index, bound, named⟩
  · intro inner member target named
    rcases replaced.inside inner member target named with ⟨vertex, found, old⟩ | new
    · exact shuffled.mem_iff.mpr (List.mem_append_left _ (before.inside vertex found target old))
    · exact new

end ReplacesAll
end Graph
end Reentrancy
