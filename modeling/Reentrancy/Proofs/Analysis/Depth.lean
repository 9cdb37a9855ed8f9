import Mathlib.Data.List.Forall2
import Reentrancy.Proofs.Analysis.Entrypoints
import Reentrancy.Proofs.Flow.Layout
import Reentrancy.Proofs.Inline.Depth

/-! Deeper expansion never hides a finding, as long as the names of a contract are identifiers
and parameters do not hide what can be called. -/
namespace Reentrancy

section Formed

variable {functions : Names}

theorem Instruction.formed_substitute {rule : Variable → Option Value}
    (clear : ∀ read, ((rule read).getD (.var read)).Clear) (instruction : Instruction) :
    (instruction.substitute rule).Formed functions ↔ instruction.Formed functions := by
  cases instruction with
  | call operation =>
    have arguments : (∀ argument ∈ operation.arguments.map (Value.substitute rule),
        argument.Clear) ↔ ∀ argument ∈ operation.arguments, argument.Clear := by
      simp only [List.forall_mem_map, Value.clear_substitute clear]
    exact and_congr arguments .rfl
  | _ => exact .rfl

theorem Instruction.formed_unversioned (instruction : Instruction) :
    instruction.unversioned.Formed functions ↔ instruction.Formed functions := by
  refine formed_substitute (fun read => ?_) instruction
  trivial

theorem Block.formed_joinWith {block : Block}
    (formed : ∀ instruction ∈ block.instructions, instruction.Formed functions) (phis : List Phi) :
    ∀ instruction ∈ (block.joinWith phis).instructions, instruction.Formed functions := by
  have reads (read : Variable) : ((Phi.rule phis read).getD (.var read)).Clear := by
    rw [Phi.rule]
    cases phis.find? fun phi => phi.joinsVariable read <;> trivial
  intro instruction member
  rcases List.mem_append.mp member with front | rest
  · obtain ⟨phi, _, rfl⟩ := List.mem_map.mp front
    trivial
  · obtain ⟨before, inside, rfl⟩ := List.mem_map.mp rest
    exact (Instruction.formed_substitute reads before).mpr (formed before inside)

theorem joinFrom_formed (blocks : List Block) (graph : Graph) (exits : List (Table Nat))
    (index : Nat) (versions : Versions) {rest : List Block}
    (formed : ∀ block ∈ rest, ∀ instruction ∈ block.instructions, instruction.Formed functions) :
    ∀ block ∈ (joinFrom blocks graph exits index versions rest).blocks,
      ∀ instruction ∈ block.instructions, instruction.Formed functions := by
  induction rest generalizing index versions with
  | nil => simp [joinFrom]
  | cons block others ih =>
    rw [List.forall_mem_cons] at formed
    rw [joinFrom_cons, List.forall_mem_cons]
    exact ⟨Block.formed_joinWith formed.1 _, ih _ _ formed.2⟩

/-- The blocks of a body call what its statements call, with the same arguments but for the
versions read. -/
theorem Body.build_formed (scope : Scope) {statements : List Statement}
    (fine : ∀ expression ∈ Statement.bodyExpressions statements, expression.Fine) :
    ∀ block ∈ (Body.build scope statements).blocks, ∀ instruction ∈ block.instructions,
      instruction.Formed scope.functions := by
  -- Being formed does not depend on versions, so it is enough to look at the body lowered whole.
  have alike := numberBlocks_alike scope {} (flowBlocks statements).1
  rw [lower_flowBlocks] at alike
  refine joinFrom_formed _ _ _ _ _ fun block member instruction inside => ?_
  have numbered : instruction ∈ instructionsOf
      (numberBlocks scope {} (flowBlocks statements).1).blocks :=
    List.mem_flatMap.mpr ⟨block, member, inside⟩
  have image := List.mem_map_of_mem (f := Instruction.unversioned) numbered
  rw [alike.instructions] at image
  obtain ⟨lowered, emitted, same⟩ := List.mem_map.mp image
  have formed := (Statement.lowerBody_forms scope statements fine {}).1 lowered emitted
  rwa [← Instruction.formed_unversioned, same, Instruction.formed_unversioned] at formed

end Formed

namespace Detector

variable {detector : Detector} {state : Names} {contract function : String}
  {modifiers : List String} {pieces : List Piece}

theorem function_of_check {finding : Finding}
    (found : detector.check state contract function modifiers pieces = some finding) :
    finding.function = function := by
  unfold check at found
  split at found
  · cases found
  · obtain ⟨exposure, _, rfl⟩ := Option.map_eq_some_iff.mp found
    rfl

end Detector

def Summary.finding? (summary : Summary) (detector : Detector) (entry : Entrypoint) :
    Option Finding :=
  detector.check (Names.ofList (summary.state.map (·.name))) summary.name entry.name
    entry.modifiers entry.pieces

structure Entrypoint.SameDefinition (one two : Entrypoint) : Prop where
  name : one.name = two.name
  visibility : one.visibility = two.visibility
  location : one.location = two.location
  modifiers : one.modifiers = two.modifiers

theorem FunctionDefinition.sameDefinition_entrypoint (function : FunctionDefinition)
    (one two : Body) : (function.entrypoint one).SameDefinition (function.entrypoint two) :=
  ⟨rfl, rfl, rfl, rfl⟩

namespace Summary

/-- One function in two analyses: what reports it in the first reports it in the second. -/
structure KeepsReport (less more : Summary) (detector : Detector) (one two : Entrypoint) :
    Prop where
  same : one.SameDefinition two
  reported : (less.finding? detector one).isSome = true →
    (more.finding? detector two).isSome = true

theorem findings_sublist {less more : Summary} {detector : Detector} {ones twos : List Entrypoint}
    (entries : List.Forall₂ (less.KeepsReport more detector) ones twos) :
    ((ones.filterMap (less.finding? detector)).map (·.function)).Sublist
      ((twos.filterMap (more.finding? detector)).map (·.function)) := by
  induction entries with
  | nil => exact .refl _
  | @cons one two _ _ here _ ih =>
    obtain ⟨same, reported⟩ := here
    rw [List.filterMap_cons, List.filterMap_cons]
    cases first : less.finding? detector one with
    | none =>
      cases more.finding? detector two with
      | none => exact ih
      | some finding => exact ih.cons _
    | some finding =>
      rw [first] at reported
      obtain ⟨other, second⟩ := Option.isSome_iff_exists.mp (reported rfl)
      have function : finding.function = other.function := by
        rw [Detector.function_of_check first, Detector.function_of_check second, same.name]
      rw [second, List.map_cons, List.map_cons, function]
      exact ih.cons_cons _

end Summary

theorem LastWithBody.mem {functions : List FunctionDefinition} {name : String}
    {owner : FunctionDefinition} {statements : List Statement}
    (last : LastWithBody functions name owner statements) : owner ∈ functions := by
  obtain ⟨earlier, later, rfl, _⟩ := last.last
  simp

namespace Contract

theorem finding?_entryOn (contract : Contract) (pragma : String) (detector : Detector) (depth : Nat)
    (function owner : FunctionDefinition) (statements : List Statement) :
    (contract.summarize pragma depth).finding? detector
        (contract.entryOn depth function owner statements) =
      detector.check (Names.ofList (contract.state.map (·.name))) contract.name function.name
        function.modifiers ((contract.ownBody owner statements).inline contract.templates depth
          function.name).finish.1 := rfl

/-- The names of a contract are identifiers, its parameters do not have the name of a function
or modifier, and its unary operators do not read as names. Parameters may be unnamed. -/
structure WellNamed (contract : Contract) : Prop where
  stateNames : ∀ declared ∈ contract.state, Token.isName declared.name.toList = true
  callableNames : ∀ name ∈ contract.callables, Token.isName name.toList = true
  parameters : ∀ function ∈ contract.functions, ∀ parameter ∈ function.parameters,
    Token.isName parameter.toList = true ∧ (parameter ≠ "" → parameter ∉ contract.callables)
  operators : ∀ function ∈ contract.functions,
    ∀ expression ∈ Statement.bodyExpressions (function.body.getD []),
      ∀ operator ∈ expression.unaries, isOperator operator = true

namespace WellNamed

variable {contract : Contract} (wellNamed : contract.WellNamed)

include wellNamed

theorem ownBody_formed {name : String} {owner : FunctionDefinition} {statements : List Statement}
    (last : LastWithBody contract.functions name owner statements) :
    ∀ block ∈ (contract.ownBody owner statements).blocks, ∀ instruction ∈ block.instructions,
      instruction.Formed contract.scope.functions := by
  have operators := wellNamed.operators owner last.mem
  rw [last.implemented] at operators
  exact Body.build_formed (contract.scope.withSymbols owner.symbols) operators

theorem named :
    Named (Names.ofList (contract.state.map (·.name))) contract.scope.functions
      contract.templates where
  stateNames name known := by
    obtain ⟨declared, member, rfl⟩ := List.mem_map.mp (Names.contains_ofList.mp known)
    exact wellNamed.stateNames declared member
  functionNames name known := wellNamed.callableNames name (Names.contains_ofList.mp known)
  parameters name template found parameter member := by
    obtain ⟨owner, statements, last, rfl⟩ := (get?_standalone Standalone.template).mp found
    obtain ⟨isName, apart⟩ := wellNamed.parameters owner last.mem parameter member
    refine ⟨isName, fun present => Bool.eq_false_iff.mpr fun known => ?_⟩
    exact apart present (Names.contains_ofList.mp known)
  formed name template found instruction member := by
    obtain ⟨owner, statements, last, rfl⟩ := (get?_standalone Standalone.template).mp found
    obtain ⟨block, inside, emitted⟩ := List.mem_flatMap.mp (List.mem_filter.mp member).1
    exact wellNamed.ownBody_formed last block inside instruction emitted

theorem entryOn_reports {function owner : FunctionDefinition} {statements : List Statement}
    (last : LastWithBody contract.functions function.name owner statements) (pragma : String)
    (detector : Detector) {shallow deep : Nat} (le : shallow ≤ deep)
    (reported : ((contract.summarize pragma shallow).finding? detector
      (contract.entryOn shallow function owner statements)).isSome = true) :
    ((contract.summarize pragma deep).finding? detector
      (contract.entryOn deep function owner statements)).isSome = true := by
  have settled (depth : Nat) := Body.inline_settled (contract.scope.withSymbols owner.symbols)
    statements contract.templates depth function.name
  -- The control flow is the same at both depths, and the blocks at the greater one have all
  -- calls and writes of those at the lesser.
  have covers := (contract.ownBody owner statements).inline_covers function.name wellNamed.named
    (wellNamed.ownBody_formed last) le
  rw [finding?_entryOn, Detector.check_isSome, Body.finish] at reported ⊢
  exact ⟨reported.1, covers.exposure?_isSome (settled shallow) (settled deep) _ reported.2⟩

theorem forall₂_reports (pragma : String) (detector : Detector) {shallow deep : Nat}
    (le : shallow ≤ deep) (functions : List FunctionDefinition)
    (entries : ∀ function ∈ functions,
      function ∈ contract.functions.filter FunctionDefinition.isEntry) :
    let less := contract.summarize pragma shallow
    let more := contract.summarize pragma deep
    let entrypoints (depth : Nat) := functions.filterMap fun function =>
      (contract.bodies.get? function.name).map fun body =>
        function.entrypoint (body.inline contract.templates depth function.name)
    List.Forall₂ (less.KeepsReport more detector) (entrypoints shallow) (entrypoints deep) := by
  induction functions with
  | nil => exact .nil
  | cons function rest ih =>
    rw [List.forall_mem_cons] at entries
    obtain ⟨owner, statements, last⟩ := exists_owner entries.1
    dsimp only
    rw [List.filterMap_cons, List.filterMap_cons, get?_bodies last]
    refine .cons ⟨function.sameDefinition_entrypoint _ _, ?_⟩ (ih entries.2)
    exact wellNamed.entryOn_reports last pragma detector le

end WellNamed

/-- At two depths a contract has entrypoints for the same functions in the same order, and each
one that is reported at the lesser depth is reported at the greater one. -/
theorem deeper_reports {contract : Contract} (wellNamed : contract.WellNamed) (pragma : String)
    (detector : Detector) {shallow deep : Nat} (le : shallow ≤ deep) :
    let less := contract.summarize pragma shallow
    let more := contract.summarize pragma deep
    List.Forall₂ (less.KeepsReport more detector) less.entrypoints more.entrypoints ∧
      ((less.findings detector).map (·.function)).Sublist
        ((more.findings detector).map (·.function)) := by
  intro less more
  have entries : List.Forall₂ (less.KeepsReport more detector) less.entrypoints more.entrypoints :=
    wellNamed.forall₂_reports pragma detector le _ fun _ member => member
  exact ⟨entries, Summary.findings_sublist entries⟩

namespace Sample

def declares (name : String) : Member := .state ⟨name, "", {}⟩

def defines (visibility name : String) (parameters : List String) (body : List Statement) :
    Member :=
  .function { name, visibility, location := {}, parameters, modifiers := [], body := some body
              symbols := Table.empty }

end Sample

open Sample Snippet

/-- A call that leaves the contract two calls away from the function that is reported. -/
theorem nested_send_stays_reported :
    let contract : Contract :=
      { name := "C"
        members := [declares "total", defines "internal" "pay" ["amount"] [sends],
          defines "internal" "settle" ["amount"] [calls "pay" [named "amount"]],
          defines "external" "start" ["amount"]
            [calls "settle" [named "amount"], sets (named "total") one]] }
    contract.WellNamed ∧ (contract.summarize "" 1).findings {} = [] ∧
      ((contract.summarize "" 2).findings {}).map (·.function) = ["start"] ∧
        ["start"].Sublist (((contract.summarize "" 7).findings {}).map (·.function)) := by
  intro contract
  have wellNamed : contract.WellNamed :=
    ⟨by decide +kernel, by decide +kernel, by decide +kernel, by decide +kernel⟩
  have reported : ((contract.summarize "" 2).findings {}).map (·.function) = ["start"] := by
    decide +kernel
  refine ⟨wellNamed, by decide +kernel, reported, ?_⟩
  rw [← reported]
  exact (deeper_reports wellNamed "" {} (by decide)).2

/-- Two contracts that are reported at depth two and not at depth three. Their names are
identifiers and no parameter has the name of a function. In the first one a parameter has the name
of a modifier, in the second one a unary operator is empty; both let the version of a variable
get into a name. -/
theorem deeper_hides_findings :
    let nested (step : Statement) : List Member :=
      [defines "internal" "innermost" [] [step],
        defines "internal" "inner" [] [calls "innermost" []],
        defines "internal" "outer" [] [calls "inner" []]]
    let part (name : String) := Expression.member (named name) "" "b"
    let hooked : Contract :=
      { name := "C"
        members := [declares "total", declares "a", .modifier "hook"] ++
          nested (sets (part "a") (named "innermost")) ++
          [defines "internal" "run" ["hook"] [calls "hook" []],
            defines "internal" "b_0" [] [sends, sets (named "total") one],
            defines "external" "start" ["c"]
              [calls "outer" [], calls "run" [.conditional (named "c") (part "a") (part "a")]]] }
    let bare : Contract :=
      { name := "C"
        members := [declares "a", declares "a_0"] ++ nested (sets (named "a") one) ++
          [defines "internal" "touch" ["p"] [sets (part "p") one],
            defines "external" "start" []
              [calls "outer" [], sends, calls "touch" [.unary "" true (named "a")]]] }
    ∀ contract ∈ [hooked, bare],
      (∀ declared ∈ contract.state, Token.isName declared.name.toList = true) ∧
      (∀ name ∈ contract.callables, Token.isName name.toList = true) ∧
      (∀ function ∈ contract.functions, ∀ parameter ∈ function.parameters,
        Token.isName parameter.toList = true ∧ parameter ∉ contract.functions.map (·.name)) ∧
      (∀ function ∈ contract.functions,
        ∀ expression ∈ Statement.bodyExpressions (function.body.getD []),
          ∀ operator ∈ expression.unaries, operator = "") ∧
      ((contract.summarize "" 2).findings {}).map (·.function) = ["start"] ∧
        (contract.summarize "" 3).findings {} = [] := by
  decide +kernel

end Contract
end Reentrancy
