import Reentrancy.Proofs.Flow.Straight
import Reentrancy.Proofs.Ssa.Exits
import Reentrancy.Proofs.Ssa.Phi
import Reentrancy.Ssa.Body

/-! Straight-line bodies through numbering and joining: their blocks hold the instructions that
the body lowers to as a whole, without phis, and every operand is defined before it is read. -/
namespace Reentrancy

namespace Value

variable {rule : Variable → Option Value}

mutual

theorem substitute_id (same : ∀ read, (rule read).getD (var read) = var read) :
    ∀ value : Value, value.substitute rule = value
  | var read => same read
  | literal _ | raw _ => rfl
  | binary _ left right => by rw [substitute, substitute_id same left, substitute_id same right]
  | unary _ operand => by rw [substitute, substitute_id same operand]
  | apply _ arguments => by rw [substitute, substituteList_id same arguments]
  | tuple items => by rw [substitute, substituteList_id same items]
  | choice condition yes no => by
    rw [substitute, substitute_id same condition, substitute_id same yes, substitute_id same no]

theorem substituteList_id (same : ∀ read, (rule read).getD (var read) = var read) :
    ∀ values : List Value, substituteList rule values = values
  | [] => rfl
  | first :: rest => by rw [substituteList, substitute_id same first, substituteList_id same rest]

end

end Value

theorem Instruction.substitute_none (instruction : Instruction) :
    instruction.substitute (fun _ => none) = instruction := by
  have values : Value.substitute (fun _ => none) = id := funext (Value.substitute_id fun _ => rfl)
  have previous : Assignment.substitutePrevious (fun _ => none) = id := rfl
  cases instruction with
  | assign assignment => simp [substitute, Assignment.substitute, values, previous]
  | call operation => simp [substitute, CallOperation.substitute, values]
  | _ => simp [substitute, values]

theorem Block.joinWith_nil (block : Block) : block.joinWith [] = block := by
  have same : block.instructions.map (Instruction.substitute (Phi.rule [])) =
      block.instructions :=
    (List.map_congr_left fun instruction _ => instruction.substitute_none).trans (List.map_id _)
  simp [joinWith, same]

theorem joinFrom_plain (blocks : List Block) {graph : Graph}
    (plain : ∀ index, graph.joins index = false) (exits : List (Table Nat)) (index : Nat)
    (versions : Versions) (rest : List Block) :
    joinFrom blocks graph exits index versions rest = { blocks := rest, versions } := by
  induction rest generalizing index with
  | nil => rfl
  | cons block others ih =>
    have none : phisAt blocks graph exits index versions block = ([], versions) := by
      simp [phisAt, phiNames, plain index, placePhis]
    rw [joinFrom_cons, none]
    simp [ih, Block.joinWith_nil]

theorem insertPhis_plain {blocks : List Block} (onward : (graphOf blocks).Onward)
    (closed : (graphOf blocks).Closed) (exits : List (Table Nat)) (versions : Versions) :
    insertPhis exits versions blocks = { blocks, versions } :=
  joinFrom_plain blocks (onward.joins closed) exits 0 versions blocks

theorem numberFrom_plain (graph : Graph) (scope : Scope) (exits : List (Table Nat))
    (versions : Versions) {blocks : List Block} (plain : ∀ block ∈ blocks, block.side = none) :
    let numbered := numberFrom graph scope exits versions blocks
    let lowered := lowerParts scope (partsOf blocks) versions
    instructionsOf numbered.blocks = lowered.emission.instructions ∧
      numbered.versions = lowered.versions := by
  induction blocks generalizing exits versions with
  | nil => exact ⟨rfl, rfl⟩
  | cons block rest ih =>
    rw [List.forall_mem_cons] at plain
    have entry : block.armEntry? graph exits = none :=
      Block.armEntry?_of_plain plain.1 graph exits
    let after := (lowerParts scope block.parts versions).versions
    obtain ⟨instructions, last⟩ := ih (exits ++ [after.current]) after plain.2
    have parts : partsOf (block :: rest) = block.parts ++ partsOf rest := rfl
    rw [parts, lowerParts_append]
    simp only [numberFrom, entry, Option.getD_none, Option.isSome_none, Bool.false_eq_true,
      if_false]
    refine ⟨?_, last⟩
    rw [instructionsOf, List.flatMap_cons]
    exact congrArg (_ ++ ·) instructions

section Build

variable (scope : Scope) {body : List Statement}
  (plain : ∀ statement ∈ body, statement.kind.isStructured = false)

include plain

theorem build_straight : ∃ seeded : Versions,
    (∀ name, seeded.current.version name = 0) ∧ (∀ name, seeded.counter.version name = 0) ∧
      seeded.calls = 0 ∧
      instructionsOf (Body.build scope body).blocks =
        (Statement.lowerBody scope body seeded).emission.instructions ∧
      (Body.build scope body).versions = (Statement.lowerBody scope body seeded).versions := by
  let blocks := (flowBlocks body).1
  let names := blocks.flatMap fun block => block.accesses.names
  let numbered := numberBlocks scope {} blocks
  have graph : graphOf numbered.blocks = graphOf blocks := graphOf_numberFrom ..
  have closed : (graphOf blocks).Closed :=
    ⟨(flowBlocks_numbered body).distinct, flowBlocks_decided body,
      (flowBlocks_numbered body).inside⟩
  have joined : insertPhis numbered.exits numbered.versions numbered.blocks =
      { blocks := numbered.blocks, versions := numbered.versions } := by
    apply insertPhis_plain
    · rw [graph]
      exact flowBlocks_onward plain
    · rw [graph]
      exact closed
  obtain ⟨instructions, versions⟩ := numberFrom_plain (graphOf blocks) scope []
    (names.foldl Versions.seed {}) (flowBlocks_sides plain)
  obtain ⟨counter, calls⟩ := seed_counts names {}
  rw [lower_flowBlocks] at instructions versions
  refine ⟨names.foldl Versions.seed {}, current_seed names {}, counter, calls, ?_, ?_⟩
  · have same : (Body.build scope body).blocks = numbered.blocks := congrArg Joined.blocks joined
    rw [same]
    exact instructions
  · have same : (Body.build scope body).versions = numbered.versions :=
      congrArg Joined.versions joined
    rw [same]
    exact versions

theorem build_onward : (graphOf (Body.build scope body).blocks).Onward := by
  have graph : graphOf (Body.build scope body).blocks = graphOf (flowBlocks body).1 :=
    (graphOf_joinFrom ..).trans (graphOf_numberFrom ..)
  rw [graph]
  exact flowBlocks_onward plain

theorem build_extends : ∃ after,
    Extends Table.empty (instructionsOf (Body.build scope body).blocks) after := by
  obtain ⟨seeded, _, counter, _, instructions, _⟩ := build_straight scope plain
  obtain ⟨_, _, _, run⟩ := Statement.lowerBody_runs scope [] body seeded [] (by simp)
  obtain ⟨noPhi, counted⟩ := run.extends
  rw [instructions]
  exact ⟨_, noPhi, counted.congr_left fun name => (counter name).symm⟩

theorem Body.build_noPhi :
    ∀ instruction ∈ instructionsOf (build scope body).blocks, instruction.isPhi = false := by
  obtain ⟨_, extended⟩ := build_extends scope plain
  exact extended.noPhi

end Build

/-- Whatever the instructions read is a value on entry, or is known or defined by then. -/
def Supplied (known : List Variable) : List Instruction → Prop
  | [] => True
  | first :: rest =>
    (∀ read ∈ first.uses, read.version = 0 ∨ read ∈ known) ∧ Supplied (known ++ first.defs) rest

theorem Supplied.defined_before {known : List Variable} {front back : List Instruction}
    {use : Instruction} (supplied : Supplied known (front ++ use :: back)) :
    ∀ read ∈ use.uses, read.version = 0 ∨ read ∈ known ++ front.flatMap Instruction.defs := by
  induction front generalizing known with
  | nil => simpa using supplied.1
  | cons first rest ih => simpa using ih supplied.2

namespace Lower

structure Stage.Supplied (stage : Stage) (known : List Variable) : Prop where
  operands : ∀ read ∈ stage.operands, read.version = 0 ∨ read ∈ known
  current : ∀ name, stage.versions.current.version name = 0 ∨ stage.versions.read name ∈ known

theorem known_define {known : List Variable} (versions : Versions)
    (current : ∀ name, versions.current.version name = 0 ∨ versions.read name ∈ known)
    (name other : String) :
    (versions.define name).2.current.version other = 0 ∨
      (versions.define name).2.read other ∈ known ++ [(versions.define name).1] := by
  rw [Versions.read_define, Versions.current_define]
  split
  · exact Or.inr (List.mem_append_right _ (List.mem_singleton_self _))
  · exact (current other).imp_right (List.mem_append_left _)

theorem known_defineAll {known : List Variable} (names : List String) (versions : Versions)
    (current : ∀ name, versions.current.version name = 0 ∨ versions.read name ∈ known)
    (other : String) :
    (defineAll names versions).versions.current.version other = 0 ∨
      (defineAll names versions).versions.read other ∈
        known ++ (defineAll names versions).value := by
  induction names generalizing versions known with
  | nil => exact (current other).imp_right (List.mem_append_left _)
  | cons name rest ih =>
    have later := ih (versions.define name).2 (known_define versions current name)
    rw [defineAll_cons]
    simpa using later

theorem Step.supplied {first second : Stage} {emission : Emission} {known : List Variable}
    (step : Step first emission second) (stage : first.Supplied known) :
    (∀ instruction ∈ emission.instructions, ∀ read ∈ instruction.uses,
      read.version = 0 ∨ read ∈ known) ∧
      second.Supplied (known ++ emission.instructions.flatMap Instruction.defs) := by
  cases step with
  | read name =>
    refine ⟨by simp, ?_, ?_⟩
    · intro read member
      rcases List.mem_cons.mp member with rfl | before
      · simpa [Versions.read] using stage.current name
      · simpa using stage.operands read before
    · simpa using stage.current
  | plain instruction definesNothing atHand =>
    refine ⟨?_, ?_⟩
    · simpa using fun read member => stage.operands read (atHand member)
    · simpa [definesNothing] using stage
  | assign names assignment defined atHand =>
    have current := known_defineAll names first.versions stage.current
    rw [← defined] at current
    refine ⟨?_, ?_, ?_⟩
    · simpa using fun read member => stage.operands read (atHand member)
    · intro read member
      rcases List.mem_cons.mp member with rfl | before
      · exact Or.inr (by simp [Instruction.defs])
      · exact (stage.operands read before).imp_right (List.mem_append_left _)
    · simpa [Instruction.defs] using current
  | call operation defined atHand =>
    have current := known_define { first.versions with calls := first.versions.calls + 1 }
      stage.current (Versions.resultName (first.versions.calls + 1))
    refine ⟨?_, ?_, ?_⟩
    · simpa [Instruction.uses] using fun read member => stage.operands read (atHand member)
    · intro read member
      rcases List.mem_cons.mp member with rfl | before
      · exact Or.inr (by simp [Instruction.defs])
      · exact (stage.operands read before).imp_right (List.mem_append_left _)
    · have listed : [Instruction.call operation].flatMap Instruction.defs =
          [first.versions.nextResult.1] := by simp [Instruction.defs, defined]
      rw [listed]
      exact current

theorem Run.supplied {first second : Stage} {emission : Emission} {known : List Variable}
    (run : Run first emission second) (stage : first.Supplied known) :
    Reentrancy.Supplied known emission.instructions := by
  induction run generalizing known with
  | nil => trivial
  | cons step _ ih =>
    obtain ⟨reads, next⟩ := step.supplied stage
    have later := ih next
    cases step with
    | read name => simpa [Emission.append] using later
    | _ => exact ⟨reads _ List.mem_cons_self, by simpa using later⟩

end Lower

theorem build_supplied (scope : Scope) {body : List Statement}
    (plain : ∀ statement ∈ body, statement.kind.isStructured = false) :
    Supplied [] (instructionsOf (Body.build scope body).blocks) := by
  obtain ⟨seeded, current, _, _, instructions, _⟩ := build_straight scope plain
  obtain ⟨_, _, _, run⟩ := Statement.lowerBody_runs scope [] body seeded [] (by simp)
  rw [instructions]
  exact run.supplied ⟨by simp, fun name => Or.inl (current name)⟩

end Reentrancy
