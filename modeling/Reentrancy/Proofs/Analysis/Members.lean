import Reentrancy.Proofs.Analysis.Depth

/-! The order of members. What a contract knows by name is collected before any function is
built, and every function is built before any is expanded, so the order in which members are
declared shows only in the order of what is listed. -/
namespace Reentrancy

section Keys

variable {α : Type} {key : α → String} {items others : List α}

theorem find?_key_iff (distinct : (items.map key).Nodup) {name : String} {item : α} :
    items.find? (fun item => key item == name) = some item ↔ item ∈ items ∧ key item = name := by
  induction items with
  | nil => simp
  | cons first rest ih =>
    rw [List.map_cons, List.nodup_cons] at distinct
    by_cases here : key first = name
    · have later : ∀ other ∈ rest, key other ≠ name := fun other member same =>
        distinct.1 (List.mem_map.mpr ⟨other, member, same.trans here.symm⟩)
      grind
    · have apart := ih distinct.2
      grind

theorem find?_key_perm (distinct : (items.map key).Nodup) (permuted : others.Perm items)
    (name : String) :
    others.find? (fun item => key item == name) = items.find? (fun item => key item == name) := by
  have apart : (others.map key).Nodup := (permuted.map key).nodup_iff.mpr distinct
  apply Option.ext
  intro item
  rw [find?_key_iff apart, find?_key_iff distinct, permuted.mem_iff]

theorem names_filterMap_sublist {β : Type} {make : α → Option β} {called : β → String}
    (named : ∀ item made, make item = some made → called made = key item) (items : List α) :
    ((items.filterMap make).map called).Sublist (items.map key) := by
  induction items with
  | nil => exact .slnil
  | cons first rest ih =>
    rw [List.filterMap_cons, List.map_cons]
    split
    next => exact ih.cons _
    next made found =>
      rw [List.map_cons, named first made found]
      exact ih.cons_cons _

end Keys

namespace Contract

structure DistinctNames (contract : Contract) : Prop where
  functions : (contract.functions.map (·.name)).Nodup
  state : (contract.state.map (·.name)).Nodup

section Members

variable {contract other : Contract} (permuted : other.members.Perm contract.members)

include permuted

theorem functions_perm : other.functions.Perm contract.functions := permuted.filterMap _

theorem state_perm : other.state.Perm contract.state := permuted.filterMap _

theorem events_perm : other.events.Perm contract.events := permuted.filterMap _

theorem finding?_perm (named : other.name = contract.name) (pragma : String) (depth : Nat)
    (detector : Detector) :
    (other.summarize pragma depth).finding? detector =
      (contract.summarize pragma depth).finding? detector := by
  funext entry
  have state : Names.ofList (other.state.map (·.name)) =
      Names.ofList (contract.state.map (·.name)) :=
    Names.ofList_congr fun name => ((state_perm permuted).map _).mem_iff
  change detector.check (Names.ofList (other.state.map (·.name))) other.name entry.name _ _ =
    detector.check (Names.ofList (contract.state.map (·.name))) contract.name entry.name _ _
  rw [state, named]

variable (distinct : contract.DistinctNames)

include distinct

theorem scope_perm : other.scope = contract.scope := by
  have callables : other.callables.Perm contract.callables := permuted.filterMap _
  have functions : other.scope.functions = contract.scope.functions :=
    Names.ofList_congr fun name => callables.mem_iff
  have symbols : other.scope.symbols = contract.scope.symbols := by
    apply Table.ofList_perm
    · rw [List.map_map]
      exact distinct.state
    · exact (state_perm permuted).map _
  exact (Scope.mk.injEq ..).mpr ⟨functions, symbols⟩

/-- Functions are built alike, so a table of what was built does not depend on the order. -/
theorem standalone_table_perm {α : Type} (of : Standalone → α) :
    Table.ofList (other.standalone.map fun one => (one.function.name, of one)) =
      Table.ofList (contract.standalone.map fun one => (one.function.name, of one)) := by
  have built : other.standalone.Perm contract.standalone := by
    unfold standalone
    rw [scope_perm permuted distinct]
    exact (functions_perm permuted).filterMap _
  apply Table.ofList_perm
  · have names : (contract.standalone.map (·.function.name)).Sublist
        (contract.functions.map (·.name)) := by
      apply names_filterMap_sublist
      intro function one made
      obtain ⟨_, _, rfl⟩ := Option.map_eq_some_iff.mp made
      rfl
    rw [List.map_map]
    exact names.nodup distinct.functions
  · exact built.map _

theorem functionTable_perm (pragma : String) (depth : Nat) :
    (other.summarize pragma depth).functions = (contract.summarize pragma depth).functions := by
  apply Table.ofList_perm
  · rw [List.map_map]
    exact distinct.functions
  · exact (functions_perm permuted).map _

end Members

def entrypointOf (contract : Contract) (depth : Nat) (function : FunctionDefinition) : Entrypoint :=
  function.entrypoint (((contract.bodies.get? function.name).getD {}).inline contract.templates
    depth function.name)

theorem entrypoints_eq_map (contract : Contract) (pragma : String) (depth : Nat) :
    (contract.summarize pragma depth).entrypoints =
      (contract.functions.filter FunctionDefinition.isEntry).map (contract.entrypointOf depth) := by
  rw [summarize_entrypoints, ← List.filterMap_eq_map']
  apply List.filterMap_congr
  intro function member
  obtain ⟨owner, statements, last⟩ := exists_owner member
  rw [entrypointOf, get?_bodies last]
  rfl

end Contract

/-- Analyses that list the same under every name, in an order of their own. -/
structure ContractAnalysis.Reorders (two one : ContractAnalysis) : Prop where
  functions : two.summary.functions = one.summary.functions
  state : two.summary.state.Perm one.summary.state
  events : two.summary.events.Perm one.summary.events
  entrypoints : two.summary.entrypoints.Perm one.summary.entrypoints
  findings : two.findings.Perm one.findings
  entrypoint : ∀ name, two.summary.entrypoints.find? (·.name == name) =
    one.summary.entrypoints.find? (·.name == name)
  finding : ∀ name, two.findings.find? (·.function == name) =
    one.findings.find? (·.function == name)

namespace Contract

section Analyses

variable {contract other : Contract} (permuted : other.members.Perm contract.members)
  (distinct : contract.DistinctNames)

include permuted distinct

theorem entrypoints_perm (pragma : String) (depth : Nat) :
    (other.summarize pragma depth).entrypoints =
      (other.functions.filter FunctionDefinition.isEntry).map (contract.entrypointOf depth) := by
  rw [entrypoints_eq_map]
  unfold entrypointOf bodies templates
  rw [standalone_table_perm permuted distinct, standalone_table_perm permuted distinct]

/-- Members in another order give the same analysis: the same table of functions, and under each
name the same entrypoint and the same finding or none. Entrypoints stand in the order of the
functions, and findings in the order of the entrypoints. -/
theorem analyze_reorders (named : other.name = contract.name) (pragma : String) (config : Config) :
    let one := contract.analyze pragma config
    let two := other.analyze pragma config
    two.Reorders one ∧
      ∃ (make : FunctionDefinition → Entrypoint) (report : Entrypoint → Option Finding),
        one.summary.entrypoints = (contract.functions.filter FunctionDefinition.isEntry).map make ∧
        two.summary.entrypoints = (other.functions.filter FunctionDefinition.isEntry).map make ∧
        one.findings = one.summary.entrypoints.filterMap report ∧
        two.findings = two.summary.entrypoints.filterMap report := by
  intro one two
  let make := contract.entrypointOf config.inlineDepth
  let report := one.summary.finding? config.detector
  have made : one.summary.entrypoints =
      (contract.functions.filter FunctionDefinition.isEntry).map make :=
    contract.entrypoints_eq_map pragma config.inlineDepth
  have remade : two.summary.entrypoints =
      (other.functions.filter FunctionDefinition.isEntry).map make :=
    entrypoints_perm permuted distinct pragma config.inlineDepth
  have reported : two.findings = two.summary.entrypoints.filterMap report := by
    have same := finding?_perm permuted named pragma config.inlineDepth config.detector
    exact congrArg two.summary.entrypoints.filterMap same
  have entrypoints : two.summary.entrypoints.Perm one.summary.entrypoints := by
    rw [made, remade]
    exact ((functions_perm permuted).filter _).map make
  have findings : two.findings.Perm one.findings := by
    rw [reported]
    exact entrypoints.filterMap report
  have entryNames : (one.summary.entrypoints.map (·.name)).Nodup := by
    rw [made, List.map_map]
    exact (List.filter_sublist.map FunctionDefinition.name).nodup distinct.functions
  have findingNames : (one.findings.map (·.function)).Nodup :=
    (names_filterMap_sublist (fun _ _ => Detector.function_of_check) _).nodup entryNames
  refine ⟨⟨functionTable_perm permuted distinct pragma _, state_perm permuted,
    events_perm permuted, entrypoints, findings, ?_, ?_⟩, make, report, made, remade, rfl, reported⟩
  · exact find?_key_perm entryNames entrypoints
  · exact find?_key_perm findingNames findings

end Analyses

open Sample Snippet in
/-- A function is declared after or before the one that it calls and the state that it writes. -/
theorem turned_members_reorder :
    let contract : Contract :=
      { name := "C"
        members := [declares "total", .modifier "locked",
          defines "internal" "pay" ["amount"] [sends],
          defines "external" "start" [] [calls "pay" [one], sets (named "total") one],
          defines "public" "stop" [] [sets (named "total") one]] }
    let turned := { contract with members := contract.members.reverse }
    contract.DistinctNames ∧
      (turned.analyze "" (Config.ofPreset .balanced)).Reorders
        (contract.analyze "" (Config.ofPreset .balanced)) ∧
      (contract.analyze "" (Config.ofPreset .balanced)).findings.map (·.function) = ["start"] := by
  intro contract turned
  have distinct : contract.DistinctNames := ⟨by decide +kernel, by decide +kernel⟩
  have permuted : turned.members.Perm contract.members := List.reverse_perm _
  exact ⟨distinct, (analyze_reorders permuted distinct rfl "" _).1, by decide +kernel⟩

end Contract
end Reentrancy
