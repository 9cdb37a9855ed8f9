import Mathlib.Data.List.Forall2
import Reentrancy.Proofs.Detector.Ordered
import Reentrancy.Proofs.Detector.Reachability

/-! What the detector sees of a function: the control flow, and in each block the calls that
leave the contract and the writes to state variables, in their order. More of these in the
same blocks never hides a finding. -/
namespace Reentrancy

inductive Effect where
  | leaves
  | writes
deriving DecidableEq, Repr

namespace Instruction

def effect? (state : Names) : Instruction → Option Effect
  | call operation => if operation.type.isExternal then some .leaves else none
  | assign assignment =>
    if state.contains (baseName assignment.target.name) then some .writes else none
  | _ => none

variable {state : Names} {instruction : Instruction}

theorem effect?_eq_leaves :
    instruction.effect? state = some .leaves ↔ ∃ callee, instruction.Leaves callee := by
  cases instruction with
  | call operation => simp [effect?, Leaves]
  | assign assignment => simp [effect?, Leaves]
  | _ => simp [effect?, Leaves]

theorem effect?_eq_writes :
    instruction.effect? state = some .writes ↔ ∃ name, instruction.Writes state name := by
  cases instruction with
  | call operation => simp [effect?, Writes]
  | assign assignment => simp [effect?, Writes]
  | _ => simp [effect?, Writes]

@[simp] theorem effect?_substitute (rule : Variable → Option Value) :
    (instruction.substitute rule).effect? state = instruction.effect? state := by
  cases instruction <;> rfl

end Instruction

def effectsOf (state : Names) (instructions : List Instruction) : List Effect :=
  instructions.filterMap (Instruction.effect? state)

theorem effectsOf_append (state : Names) (first second : List Instruction) :
    effectsOf state (first ++ second) = effectsOf state first ++ effectsOf state second :=
  List.filterMap_append

theorem effectsOf_substitute (state : Names) (rule : Variable → Option Value)
    (instructions : List Instruction) :
    effectsOf state (instructions.map (Instruction.substitute rule)) =
      effectsOf state instructions := by
  rw [effectsOf, List.filterMap_map]
  exact congrArg (List.filterMap · instructions)
    (funext fun _ => Instruction.effect?_substitute rule)

section Pairs

variable {state : Names} {code : List Instruction}

theorem mem_effectsOf_leaves :
    Effect.leaves ∈ effectsOf state code ↔ ∃ call ∈ code, ∃ callee, call.Leaves callee := by
  simp only [effectsOf, List.mem_filterMap, Instruction.effect?_eq_leaves]

theorem mem_effectsOf_writes :
    Effect.writes ∈ effectsOf state code ↔ ∃ write ∈ code, ∃ name, write.Writes state name := by
  simp only [effectsOf, List.mem_filterMap, Instruction.effect?_eq_writes]

theorem pair_sublist_effectsOf :
    [Effect.leaves, .writes].Sublist (effectsOf state code) ↔
      ∃ call write callee name, [call, write].Sublist code ∧ call.Leaves callee ∧
        write.Writes state name := by
  constructor
  · intro pair
    obtain ⟨chosen, inside, effects⟩ := List.sublist_filterMap_iff.mp pair
    obtain ⟨front, call, _, rfl, _, leaves, later⟩ := List.filterMap_eq_cons_iff.mp effects.symm
    obtain ⟨middle, write, back, rfl, _, writes, _⟩ := List.filterMap_eq_cons_iff.mp later
    obtain ⟨callee, leaves⟩ := Instruction.effect?_eq_leaves.mp leaves
    obtain ⟨name, writes⟩ := Instruction.effect?_eq_writes.mp writes
    refine ⟨call, write, callee, name, List.Sublist.trans ?_ inside, leaves, writes⟩
    have after : [write].Sublist (middle ++ write :: back) := List.singleton_sublist.mpr (by simp)
    exact (after.cons_cons call).trans (List.sublist_append_right front _)
  · rintro ⟨call, write, callee, name, pair, leaves, writes⟩
    have effects := pair.filterMap (Instruction.effect? state)
    rwa [List.filterMap_cons, Instruction.effect?_eq_leaves.mpr ⟨callee, leaves⟩,
      List.filterMap_cons, Instruction.effect?_eq_writes.mpr ⟨name, writes⟩] at effects

end Pairs

/-- Every block of the one list stands for a block of the other with the same id and exit and
with at least its effects. -/
def Covers (state : Names) (one two : List Block) : Prop :=
  List.Forall₂ (fun first second : Block => first.vertex = second.vertex ∧
    (effectsOf state first.instructions).Sublist (effectsOf state second.instructions)) one two

namespace Covers

variable {state : Names} {one two three : List Block}

theorem refl (state : Names) (blocks : List Block) : Covers state blocks blocks :=
  List.forall₂_same.mpr fun _ _ => ⟨rfl, .refl _⟩

theorem trans (first : Covers state one two) (second : Covers state two three) :
    Covers state one three := by
  unfold Covers at first second
  induction first generalizing three with
  | nil =>
    cases second
    exact .nil
  | cons here _ ih =>
    cases second with
    | cons next others =>
      exact .cons ⟨here.1.trans next.1, here.2.trans next.2⟩ (ih others)

theorem graphOf_eq (covers : Covers state one two) : graphOf one = graphOf two := by
  unfold Covers at covers
  induction covers with
  | nil => rfl
  | cons here _ ih => exact congrArg₂ List.cons here.1 ih

theorem effects (covers : Covers state one two) :
    (effectsOf state (instructionsOf one)).Sublist (effectsOf state (instructionsOf two)) := by
  unfold Covers at covers
  induction covers with
  | nil => exact .refl _
  | cons here _ ih =>
    rw [instructionsOf, List.flatMap_cons, instructionsOf, List.flatMap_cons, effectsOf_append,
      effectsOf_append]
    exact here.2.append ih

theorem exists_block (covers : Covers state one two) {block : Block} (member : block ∈ one) :
    ∃ other ∈ two, block.id = other.id ∧
      (effectsOf state block.instructions).Sublist (effectsOf state other.instructions) := by
  unfold Covers at covers
  induction covers with
  | nil => cases member
  | cons here _ ih =>
    rcases List.mem_cons.mp member with rfl | later
    · exact ⟨_, List.mem_cons_self, congrArg Vertex.id here.1, here.2⟩
    · obtain ⟨other, inside, rest⟩ := ih later
      exact ⟨other, List.mem_cons_of_mem _ inside, rest⟩

end Covers

theorem exists_followsFlow_iff {state : Names} {blocks : List Block} :
    (∃ call write callee name, FollowsFlow blocks call write ∧ call.Leaves callee ∧
        write.Writes state name) ↔
      (∃ block ∈ blocks, [Effect.leaves, .writes].Sublist (effectsOf state block.instructions)) ∨
        ∃ first ∈ blocks, ∃ second ∈ blocks, Effect.leaves ∈ effectsOf state first.instructions ∧
          Effect.writes ∈ effectsOf state second.instructions ∧
            Relation.TransGen (graphOf blocks).Links first.id second.id := by
  simp only [pair_sublist_effectsOf, mem_effectsOf_leaves, mem_effectsOf_writes]
  constructor
  · rintro ⟨call, write, callee, name, ⟨block, member, pair⟩ | ⟨first, oneIn, second, twoIn, inOne,
      inTwo, path⟩, leaves, writes⟩
    · exact .inl ⟨block, member, call, write, callee, name, pair, leaves, writes⟩
    · exact .inr ⟨first, oneIn, second, twoIn, ⟨call, inOne, callee, leaves⟩,
        ⟨write, inTwo, name, writes⟩, path⟩
  · rintro (⟨block, member, call, write, callee, name, pair, leaves, writes⟩ |
      ⟨first, oneIn, second, twoIn, ⟨call, inOne, callee, leaves⟩, ⟨write, inTwo, name, writes⟩,
        path⟩)
    · exact ⟨call, write, callee, name, .inl ⟨block, member, pair⟩, leaves, writes⟩
    · exact ⟨call, write, callee, name, .inr ⟨first, oneIn, second, twoIn, inOne, inTwo, path⟩,
        leaves, writes⟩

theorem Covers.exposure?_isSome {state : Names} {one two : List Block}
    (covers : Covers state one two) {number other : Nat} (settled : Settled number one)
    (settledToo : Settled other two) (mode : DetectionMode)
    (exposed : (exposure? mode state (splitBlocks number one).1).isSome = true) :
    (exposure? mode state (splitBlocks other two).1).isSome = true := by
  cases mode with
  | ordered =>
    rw [exposure?_ordered_isSome, ← pair_sublist_effectsOf] at exposed ⊢
    exact exposed.trans covers.effects
  | reachability =>
    rw [exposure?_reachability_isSome settled, exists_followsFlow_iff] at exposed
    rw [exposure?_reachability_isSome settledToo, exists_followsFlow_iff]
    rcases exposed with ⟨block, member, pair⟩ | ⟨first, oneIn, second, twoIn, leaves, writes, path⟩
    · obtain ⟨larger, inside, _, more⟩ := covers.exists_block member
      exact .inl ⟨larger, inside, pair.trans more⟩
    · obtain ⟨source, sourceIn, sourceId, moreLeaves⟩ := covers.exists_block oneIn
      obtain ⟨target, targetIn, targetId, moreWrites⟩ := covers.exists_block twoIn
      refine .inr ⟨source, sourceIn, target, targetIn, moreLeaves.subset leaves,
        moreWrites.subset writes, ?_⟩
      rwa [← sourceId, ← targetId, ← covers.graphOf_eq]

end Reentrancy
