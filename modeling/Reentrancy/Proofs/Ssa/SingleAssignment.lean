import Reentrancy.Proofs.Inline.Templates
import Reentrancy.Proofs.Ssa.Pieces

/-! Every definition of a finished function has a version of its own. The versions of a name
are numbered from 1 in list order; those of its phis come after all others. -/
namespace Reentrancy

namespace Body

/-- The definitions of a body are counted from 0, those of phis last. -/
def Counted (body : Body) : Prop :=
  ∃ middle, Continues Table.empty (plainDefs (instructionsOf body.blocks)) middle ∧
    Continues middle (phiDefs (instructionsOf body.blocks)) body.versions.counter

end Body

theorem insertPhis_counted {counter : Table Nat} (exits : List (Table Nat)) (versions : Versions)
    (blocks : List Block) (extended : Extends counter (instructionsOf blocks) versions.counter) :
    let joined := insertPhis exits versions blocks
    Continues counter (plainDefs (instructionsOf joined.blocks)) versions.counter ∧
      Continues versions.counter (phiDefs (instructionsOf joined.blocks))
        joined.versions.counter := by
  obtain ⟨plain, phis⟩ :=
    joinFrom_defs blocks (graphOf blocks) exits 0 versions blocks extended.noPhi
  exact ⟨plain ▸ extended.counted, phis⟩

namespace Body

theorem build_counted (scope : Scope) (statements : List Statement) :
    (build scope statements).Counted :=
  let numbered := numberBlocks scope {} (flowBlocks statements).1
  ⟨numbered.versions.counter, insertPhis_counted numbered.exits numbered.versions numbered.blocks
    (numberBlocks_extends scope {} (flowBlocks statements).1)⟩

theorem inline_counted {body : Body} (counted : body.Counted) {templates : Table Template}
    (phiFree : templates.PhiFree) (depth : Nat) (root : String) :
    (body.inline templates depth root).Counted := by
  have extended := body.expanded_extends depth root phiFree
  rcases body.inline_cases templates depth root with same | joined
  · rwa [same]
  · rw [joined]
    refine ⟨(body.expanded templates depth root).versions.counter, ?_⟩
    exact insertPhis_counted _ _ _ ((instructionsOf_refresh _).symm ▸ extended)

end Body

/-- Versions of a name are given in list order, first to other instructions and then to
phis, and no definition is made twice. -/
structure SingleAssignment (pieces : List Piece) : Prop where
  numbered : ∀ name, ∃ count joins,
    versionsOf name (plainDefs (pieces.flatMap (·.instructions))) = List.range' 1 count ∧
      versionsOf name (phiDefs (pieces.flatMap (·.instructions))) =
        List.range' (count + 1) joins
  distinct : ((pieces.flatMap (·.instructions)).flatMap Instruction.defs).Nodup

theorem defs_perm (instructions : List Instruction) :
    (phiDefs instructions ++ plainDefs instructions).Perm
      (instructions.flatMap Instruction.defs) := by
  have shared := List.filter_append_perm Instruction.isPhi instructions
  have defined := shared.flatMap_right Instruction.defs
  rwa [List.flatMap_append] at defined

theorem Body.Counted.finish {body : Body} (counted : body.Counted) :
    SingleAssignment body.finish.1 := by
  obtain ⟨middle, plain, phis⟩ := counted
  obtain ⟨ends, same⟩ := splitBlocks_instructions body.free body.blocks
  have finished : body.finish.1.flatMap (·.instructions) =
      (instructionsOf body.blocks).map (Instruction.redirect ends) := same
  constructor
  · intro name
    obtain ⟨count, reached, versions⟩ := plain name
    obtain ⟨joins, _, joined⟩ := phis name
    rw [Table.version_empty, Nat.zero_add] at reached versions
    rw [reached] at joined
    refine ⟨count, joins, ?_, ?_⟩
    · rw [finished, plainDefs_redirect, versions]
    · rw [finished, phiDefs_redirect, joined]
  · have once := (plain.append phis).nodup
    rw [← plainDefs_redirect ends, ← phiDefs_redirect ends, ← finished] at once
    exact (defs_perm _).nodup (List.perm_append_comm.nodup once)

/-- A body without any inlining, and the same body with internal calls expanded to any
depth. -/
theorem finish_singleAssignment (scope : Scope) (body : Option Json) (callees : List Callee)
    (depth : Nat) (root : String) :
    SingleAssignment (Body.build scope (statementsOf body)).finish.1 ∧
      SingleAssignment ((Body.build scope (statementsOf body)).inline (templatesOf callees) depth
        root).finish.1 := by
  have built := Body.build_counted scope (statementsOf body)
  have inlined := Body.inline_counted built (templatesOf_phiFree callees) depth root
  exact ⟨built.finish, inlined.finish⟩

end Reentrancy
