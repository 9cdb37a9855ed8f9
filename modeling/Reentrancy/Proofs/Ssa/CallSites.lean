import Reentrancy.Proofs.Lowering.Tracking
import Reentrancy.Proofs.Ssa.Phi
import Reentrancy.Ssa.Body

/-! The calls that a body reports are those of its instructions, in the same order, and the
results are numbered as the calls come. Lowering adds to both lists in one step, the arms of a
branch share the number of the last call, and phis are no calls. -/
namespace Reentrancy

/-- The call instructions have these sites, and their results take the numbers behind `before`, up
to `after`. -/
structure Reports (before : Nat) (instructions : List Instruction) (sites : List CallSite)
    (after : Nat) : Prop where
  listed : instructions.filterMap Instruction.site? = sites
  counted : after = before + sites.length
  results : resultNames instructions =
    (List.range' (before + 1) sites.length).map Versions.resultName

namespace Reports

theorem nil (count : Nat) : Reports count [] [] count := ⟨rfl, rfl, rfl⟩

theorem append {before middle after : Nat} {one two : List Instruction}
    {here later : List CallSite} (first : Reports before one here middle)
    (second : Reports middle two later after) :
    Reports before (one ++ two) (here ++ later) after where
  listed := by rw [List.filterMap_append, first.listed, second.listed]
  counted := by rw [second.counted, first.counted, List.length_append, Nat.add_assoc]
  results := by
    have joined : resultNames (one ++ two) = resultNames one ++ resultNames two :=
      List.filterMap_append
    rw [joined, first.results, second.results, first.counted, List.length_append,
      ← List.range'_append_1, List.map_append, Nat.add_right_comm]

end Reports

namespace Lower

theorem Step.reports {first second : Stage} {emission : Emission}
    (step : Step first emission second) :
    Reports first.versions.calls emission.instructions emission.sites second.versions.calls := by
  have listed := step.sites
  cases step with
  | read => exact .nil _
  | plain instruction definesNothing =>
    cases instruction with
    | call operation => cases definesNothing
    | _ => exact ⟨listed, rfl, rfl⟩
  | assign names => exact ⟨listed, calls_defineAll names first.versions, rfl⟩
  | call operation defined =>
    refine ⟨listed, rfl, ?_⟩
    have named : operation.result.name = Versions.resultName (first.versions.calls + 1) := by
      rw [defined]
      rfl
    exact congrArg ([·]) named

theorem Run.reports {first second : Stage} {emission : Emission}
    (run : Run first emission second) :
    Reports first.versions.calls emission.instructions emission.sites second.versions.calls := by
  induction run with
  | nil stage => exact .nil _
  | cons step _ ih => exact step.reports.append ih

end Lower

section Numbering

variable (scope : Scope)

theorem lowerParts_reports (parts : List (Statement × Bool)) (versions : Versions) :
    let lowered := lowerParts scope parts versions
    Reports versions.calls lowered.emission.instructions lowered.emission.sites
      lowered.versions.calls := by
  obtain ⟨_, _, _, run⟩ := lowerParts_runs scope [] parts versions [] (by simp)
  exact run.reports

theorem numberFrom_reports (graph : Graph) (exits : List (Table Nat)) (versions : Versions)
    (blocks : List Block) :
    let numbered := numberFrom graph scope exits versions blocks
    Reports versions.calls (instructionsOf numbered.blocks) numbered.sites
      numbered.versions.calls := by
  induction blocks generalizing exits versions with
  | nil => exact .nil _
  | cons block rest ih =>
    let entry := block.armEntry? graph exits
    let entered : Versions := { versions with current := entry.getD versions.current }
    let after := (lowerParts scope block.parts entered).versions
    let resumed := if entry.isSome then after.resume versions.current else after
    have kept : resumed.calls = after.calls := (resumed_counts entry versions.current after).2
    have later := ih (exits ++ [after.current]) resumed
    rw [kept] at later
    exact (lowerParts_reports scope block.parts entered).append later

theorem numberBlocks_reports (blocks : List Block) :
    let numbered := numberBlocks scope {} blocks
    Reports 0 (instructionsOf numbered.blocks) numbered.sites numbered.versions.calls := by
  let names := blocks.flatMap fun block => block.accesses.names
  have reports := numberFrom_reports scope (graphOf blocks) [] (names.foldl Versions.seed {}) blocks
  rwa [(seed_counts names {}).2] at reports

end Numbering

section Phis

variable (blocks : List Block) (graph : Graph) (exits : List (Table Nat))

theorem placePhis_calls (sources : String → List (String × Variable)) (versions : Versions)
    (names : List String) : (placePhis sources versions names).2.calls = versions.calls := by
  induction names generalizing versions with
  | nil => rfl
  | cons name rest ih => exact ih (versions.allocate name).2

theorem joinFrom_calls (index : Nat) (versions : Versions) (rest : List Block) :
    (joinFrom blocks graph exits index versions rest).versions.calls = versions.calls := by
  induction rest generalizing index versions with
  | nil => rfl
  | cons block others ih =>
    rw [joinFrom_cons]
    exact (ih _ _).trans (placePhis_calls ..)

/-- What is told of no phi, and of an instruction whatever it reads, joining does not change. -/
theorem filterMap_joinFrom {α : Type} {tell : Instruction → Option α}
    (phis : ∀ phi : Phi, tell phi.instruction = none)
    (kept : ∀ rule instruction, tell (instruction.substitute rule) = tell instruction)
    (index : Nat) (versions : Versions) (rest : List Block) :
    (instructionsOf (joinFrom blocks graph exits index versions rest).blocks).filterMap tell =
      (instructionsOf rest).filterMap tell := by
  have joined (block : Block) (placed : List Phi) :
      (block.joinWith placed).instructions.filterMap tell =
        block.instructions.filterMap tell := by
    rw [Block.joinWith, List.filterMap_append, List.filterMap_map, List.filterMap_map]
    have none : placed.filterMap (tell ∘ Phi.instruction) = [] :=
      List.filterMap_eq_nil_iff.mpr fun phi _ => phis phi
    have same : tell ∘ Instruction.substitute (Phi.rule placed) = tell :=
      funext fun instruction => kept _ instruction
    rw [none, same, List.nil_append]
  induction rest generalizing index versions with
  | nil => rfl
  | cons block others ih =>
    rw [joinFrom_cons, instructionsOf, List.flatMap_cons, List.filterMap_append, joined,
      instructionsOf, List.flatMap_cons, List.filterMap_append]
    exact congrArg (_ ++ ·) (ih _ _)

theorem insertPhis_reports {before : Nat} {sites : List CallSite} {versions : Versions}
    (reports : Reports before (instructionsOf blocks) sites versions.calls) :
    let joined := insertPhis exits versions blocks
    Reports before (instructionsOf joined.blocks) sites joined.versions.calls where
  listed := by
    rw [insertPhis, filterMap_joinFrom blocks _ exits (fun _ => rfl) (fun _ instruction => by
      cases instruction <;> rfl)]
    exact reports.listed
  counted := (joinFrom_calls ..).trans reports.counted
  results := by
    rw [insertPhis, resultNames, filterMap_joinFrom blocks _ exits (fun _ => rfl)
      (fun _ instruction => by cases instruction <;> rfl)]
    exact reports.results

end Phis

/-- The calls that a body reports are those of its instructions, and their results are called
`ret1`, `ret2` and so on, in the same order. -/
theorem build_reportsCalls (scope : Scope) (statements : List Statement) :
    let body := Body.build scope statements
    body.calls = (instructionsOf body.blocks).filterMap Instruction.site? ∧
      resultNames (instructionsOf body.blocks) =
        (List.range' 1 body.versions.calls).map Versions.resultName := by
  intro body
  have reports : Reports 0 (instructionsOf body.blocks) body.calls body.versions.calls :=
    insertPhis_reports _ _ (numberBlocks_reports scope (flowBlocks statements).1)
  have counted := reports.counted
  rw [Nat.zero_add] at counted
  exact ⟨reports.listed.symm, counted ▸ reports.results⟩

end Reentrancy
