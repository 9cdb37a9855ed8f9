import Reentrancy.Proofs.Lowering.Run
import Reentrancy.Proofs.Ssa.Definitions
import Reentrancy.Ssa.Numbering

/-! Definitions are counted through all blocks. An arm of a branch starts from older
versions, but the counters are shared, so no version is given twice. -/
namespace Reentrancy

namespace Lower

theorem defineAll_continues (names : List String) (versions : Versions) :
    Continues versions.counter (defineAll names versions).value
      (defineAll names versions).versions.counter := by
  induction names generalizing versions with
  | nil => exact .nil _
  | cons name rest ih =>
    rw [defineAll_cons]
    exact (Continues.define versions name).append (ih (versions.define name).2)

theorem Step.extends {first second : Stage} {emission : Emission}
    (step : Step first emission second) :
    Extends first.versions.counter emission.instructions second.versions.counter := by
  cases step with
  | read name => exact .nil _
  | plain instruction definesNothing _ =>
    refine .single ?_ (by rw [definesNothing]; exact .nil _)
    cases instruction <;> simp_all [Instruction.defs, Instruction.isPhi]
  | assign names assignment defined _ =>
    refine .single rfl ?_
    rw [Instruction.defs, defined]
    exact defineAll_continues names first.versions
  | call operation defined _ =>
    refine .single rfl ?_
    rw [Instruction.defs, defined]
    exact Continues.define { first.versions with calls := first.versions.calls + 1 } _

theorem Run.extends {first second : Stage} {emission : Emission} (run : Run first emission second) :
    Extends first.versions.counter emission.instructions second.versions.counter := by
  induction run with
  | nil => exact .nil _
  | cons step _ ih => exact step.extends.append ih

end Lower

theorem lowerParts_follows (scope : Scope) (needed : List Variable)
    (parts : List (Statement × Bool)) :
    Lower.Follows needed (lowerParts scope parts) (partsActions parts) fun _ => [] := by
  induction parts generalizing needed with
  | nil => exact .pure (by simp)
  | cons part rest ih =>
    obtain ⟨statement, headOnly⟩ := part
    rw [lowerParts]
    cases headOnly with
    | true => exact (statement.lowerHead_follows scope needed).bind fun _ => ih _
    | false => exact (statement.lower_follows scope needed).bind fun _ => ih _

theorem lowerParts_runs (scope : Scope) (needed : List Variable)
    (parts : List (Statement × Bool)) :
    Lower.Runs needed (lowerParts scope parts) fun _ => [] :=
  (lowerParts_follows scope needed parts).runs

theorem lowerParts_extends (scope : Scope) (parts : List (Statement × Bool))
    (versions : Versions) :
    Extends versions.counter (lowerParts scope parts versions).emission.instructions
      (lowerParts scope parts versions).versions.counter := by
  obtain ⟨_, _, _, run⟩ := lowerParts_runs scope [] parts versions [] (by simp)
  exact run.extends

def instructionsOf (blocks : List Block) : List Instruction := blocks.flatMap (·.instructions)

theorem resumed_counts (entry : Option (Table Nat)) (current : Table Nat) (after : Versions) :
    let resumed := if entry.isSome then after.resume current else after
    resumed.counter = after.counter ∧ resumed.calls = after.calls := by
  dsimp only
  split <;> exact ⟨rfl, rfl⟩

theorem numberFrom_extends (graph : Graph) (scope : Scope) (exits : List (Table Nat))
    (versions : Versions) (blocks : List Block) :
    Extends versions.counter (instructionsOf (numberFrom graph scope exits versions blocks).blocks)
      (numberFrom graph scope exits versions blocks).versions.counter := by
  induction blocks generalizing exits versions with
  | nil => exact .nil _
  | cons block rest ih =>
    let entry := block.armEntry? graph exits
    let lowered := lowerParts scope block.parts
      { versions with current := entry.getD versions.current }
    let resumed :=
      if entry.isSome then lowered.versions.resume versions.current else lowered.versions
    have here := lowerParts_extends scope block.parts
      { versions with current := entry.getD versions.current }
    have kept : resumed.counter = lowered.versions.counter :=
      (resumed_counts entry versions.current lowered.versions).1
    have later := ih (exits ++ [lowered.versions.current]) resumed
    rw [kept] at later
    exact here.append later

theorem version_seed (versions : Versions) (name other : String) :
    (versions.seed name).counter.version other = versions.counter.version other := by
  simp only [Versions.seed, Table.version_insert]
  split
  next same => rw [same]
  next => rfl

theorem seed_counts (names : List String) (versions : Versions) :
    (∀ name, (names.foldl Versions.seed versions).counter.version name =
      versions.counter.version name) ∧
    (names.foldl Versions.seed versions).calls = versions.calls := by
  induction names generalizing versions with
  | nil => exact ⟨fun _ => rfl, rfl⟩
  | cons first rest ih =>
    obtain ⟨counter, calls⟩ := ih (versions.seed first)
    exact ⟨fun name => (counter name).trans (version_seed versions first name), calls⟩

theorem numberBlocks_extends (scope : Scope) (versions : Versions) (blocks : List Block) :
    Extends versions.counter (instructionsOf (numberBlocks scope versions blocks).blocks)
      (numberBlocks scope versions blocks).versions.counter := by
  let names := blocks.flatMap fun block => block.accesses.names
  have numbered := numberFrom_extends (graphOf blocks) scope []
    (names.foldl Versions.seed versions) blocks
  have seeded := (seed_counts names versions).1
  exact ⟨numbered.noPhi, numbered.counted.congr_left fun name => (seeded name).symm⟩

theorem graphOf_numberFrom (graph : Graph) (scope : Scope) (exits : List (Table Nat))
    (versions : Versions) (blocks : List Block) :
    graphOf (numberFrom graph scope exits versions blocks).blocks = graphOf blocks := by
  induction blocks generalizing exits versions with
  | nil => rfl
  | cons block rest ih => exact congrArg (block.vertex :: ·) (ih _ _)

end Reentrancy
