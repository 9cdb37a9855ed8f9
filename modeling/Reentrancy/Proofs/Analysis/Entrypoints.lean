import Mathlib.Data.List.Forall2
import Reentrancy.Analysis
import Reentrancy.Proofs.Inline.Templates
import Reentrancy.Proofs.Table

/-! Which body an entrypoint is analysed on. Bodies are looked up by name, so of several
functions with one name all are analysed on the body of the last one that has a body. -/
namespace Reentrancy

structure LastWithBody (functions : List FunctionDefinition) (name : String)
    (owner : FunctionDefinition) (statements : List Statement) : Prop where
  last : ∃ earlier later, functions = earlier ++ owner :: later ∧
    ∀ other ∈ later, other.name = name → other.body = none
  named : owner.name = name
  implemented : owner.body = some statements

namespace Contract

variable (contract : Contract) (depth : Nat)

def ownBody (owner : FunctionDefinition) (statements : List Statement) : Body :=
  Body.build (contract.scope.withSymbols owner.symbols) statements

def bodies : Table Body :=
  Table.ofList (contract.standalone.map fun one => (one.function.name, one.body))

def templates : Table Template :=
  Table.ofList (contract.standalone.map fun one => (one.function.name, one.template))

def entryOn (function owner : FunctionDefinition) (statements : List Statement) : Entrypoint :=
  function.entrypoint ((contract.ownBody owner statements).inline contract.templates depth
    function.name)

variable {contract}

theorem get?_standalone {α : Type} (of : Standalone → α) {name : String} {value : α} :
    (Table.ofList (contract.standalone.map fun one => (one.function.name, of one))).get? name =
        some value ↔
      ∃ owner statements, LastWithBody contract.functions name owner statements ∧
        value = of ⟨owner, contract.ownBody owner statements⟩ := by
  have built : (contract.standalone.map fun one => (one.function.name, of one)) =
      contract.functions.filterMap fun function => function.body.map fun statements =>
        (function.name, of ⟨function, contract.ownBody function statements⟩) := by
    rw [standalone, List.map_filterMap]
    simp only [Option.map_map, Function.comp_def, ownBody]
  rw [built, Table.get?_ofList_eq_some]
  constructor
  · rintro ⟨front, back, split, absent⟩
    obtain ⟨before, rest, functions, rfl, fromOwner⟩ := List.filterMap_eq_append_iff.mp split
    obtain ⟨skipped, owner, later, rfl, _, made, rfl⟩ := List.filterMap_eq_cons_iff.mp fromOwner
    obtain ⟨statements, implemented, pair⟩ := Option.map_eq_some_iff.mp made
    obtain ⟨named, rfl⟩ := Prod.mk.inj pair
    refine ⟨owner, statements, ⟨⟨before ++ skipped, later, ?_, ?_⟩, named, implemented⟩, rfl⟩
    · rw [functions, List.append_assoc]
    · intro other member same
      cases body : other.body with
      | none => rfl
      | some others =>
        exact absurd same (absent _ (List.mem_filterMap.mpr ⟨other, member, by rw [body]; rfl⟩))
  · rintro ⟨owner, statements, ⟨⟨earlier, later, functions, last⟩, rfl, implemented⟩, rfl⟩
    rw [functions, List.filterMap_append, List.filterMap_cons, implemented]
    refine ⟨_, _, rfl, ?_⟩
    intro pair member same
    obtain ⟨other, inside, made⟩ := List.mem_filterMap.mp member
    obtain ⟨others, body, rfl⟩ := Option.map_eq_some_iff.mp made
    rw [last other inside same] at body
    cases body

theorem exists_owner {function : FunctionDefinition}
    (member : function ∈ contract.functions.filter FunctionDefinition.isEntry) :
    ∃ owner statements, LastWithBody contract.functions function.name owner statements := by
  obtain ⟨inside, entry⟩ := List.mem_filter.mp member
  rw [FunctionDefinition.isEntry, Bool.and_eq_true] at entry
  obtain ⟨statements, implemented⟩ := Option.isSome_iff_exists.mp entry.2
  have built : ⟨function, contract.ownBody function statements⟩ ∈ contract.standalone :=
    List.mem_filterMap.mpr ⟨function, inside, by rw [implemented]; rfl⟩
  have present : (contract.bodies.get? function.name).isSome = true := by
    rw [bodies, Table.get?_ofList_isSome]
    exact ⟨_, List.mem_map_of_mem built, rfl⟩
  obtain ⟨body, found⟩ := Option.isSome_iff_exists.mp present
  obtain ⟨owner, others, last, _⟩ := (get?_standalone Standalone.body).mp found
  exact ⟨owner, others, last⟩

theorem get?_bodies {name : String} {owner : FunctionDefinition} {statements : List Statement}
    (last : LastWithBody contract.functions name owner statements) :
    contract.bodies.get? name = some (contract.ownBody owner statements) :=
  (get?_standalone Standalone.body).mpr ⟨owner, statements, last, rfl⟩

theorem entryOn_eq {function owner other : FunctionDefinition}
    {statements others : List Statement}
    (one : LastWithBody contract.functions function.name owner statements)
    (two : LastWithBody contract.functions function.name other others) :
    contract.entryOn depth function owner statements =
      contract.entryOn depth function other others := by
  have same := Option.some.inj ((get?_bodies one).symm.trans (get?_bodies two))
  rw [entryOn, entryOn, same]

variable (contract)

/-- The entrypoint that a function becomes: it is analysed on the last body of its name, and so
on its own one if that is the last. -/
structure Analyses (function : FunctionDefinition) (entry : Entrypoint) : Prop where
  onLast : ∃ owner statements, LastWithBody contract.functions function.name owner statements ∧
    entry = contract.entryOn depth function owner statements
  onOwn : ∀ statements, LastWithBody contract.functions function.name function statements →
    entry = contract.entryOn depth function function statements

theorem summarize_entrypoints (pragma : String) :
    (contract.summarize pragma depth).entrypoints =
      (contract.functions.filter FunctionDefinition.isEntry).filterMap fun function =>
        (contract.bodies.get? function.name).map fun body =>
          function.entrypoint (body.inline contract.templates depth function.name) := rfl

theorem forall₂_analyses (functions : List FunctionDefinition)
    (entries : ∀ function ∈ functions,
      function ∈ contract.functions.filter FunctionDefinition.isEntry) :
    List.Forall₂ (contract.Analyses depth) functions
      (functions.filterMap fun function => (contract.bodies.get? function.name).map fun body =>
        function.entrypoint (body.inline contract.templates depth function.name)) := by
  induction functions with
  | nil => exact .nil
  | cons function rest ih =>
    rw [List.forall_mem_cons] at entries
    obtain ⟨owner, statements, last⟩ := exists_owner entries.1
    rw [List.filterMap_cons, get?_bodies last]
    refine .cons ⟨⟨owner, statements, last, rfl⟩, ?_⟩ (ih entries.2)
    exact fun others own => entryOn_eq depth last own

/-- Every entry function is analysed once, in order, on the body of the last function of its
name that has one, and what is found there is reported for it. So a function is analysed on its
own body if no later function of its name has a body. -/
theorem entrypoints_on_last_bodies (pragma : String) (detector : Detector) :
    let summary := contract.summarize pragma depth
    List.Forall₂ (contract.Analyses depth)
        (contract.functions.filter FunctionDefinition.isEntry) summary.entrypoints ∧
      summary.findings detector = summary.entrypoints.filterMap fun entry =>
        detector.check (Names.ofList (contract.state.map (·.name))) contract.name entry.name
          entry.modifiers entry.pieces := by
  refine ⟨?_, rfl⟩
  rw [summarize_entrypoints]
  exact contract.forall₂_analyses depth _ fun _ member => member

/-- A function with a call and then a write, hidden by a later one of the same name. -/
theorem later_body_hides_call :
    let call := Expression.call .plain
      (.member (.member (.identifier "msg" true) "msg" "sender") "address" "call")
      [.literal { value := some "0" }] [] {}
    let write := Expression.assign "=" (.identifier "total" false) (.literal { value := some "1" })
    let first : FunctionDefinition :=
      { name := "f", visibility := "external", location := {}, parameters := [], modifiers := []
        body := some [.expression call, .expression write], symbols := Table.empty }
    let second : FunctionDefinition :=
      { first with parameters := ["amount"], body := some [.expression write] }
    let contract : Contract :=
      { name := "C"
        members := [.state ⟨"total", "uint256", {}⟩, .function first, .function second] }
    let entry := contract.entryOn 2 first first [.expression call, .expression write]
    first.isEntry = true ∧
      (Detector.check {} (Names.ofList ["total"]) "C" "f" [] entry.pieces).isSome = true ∧
        (contract.summarize "" 2).findings {} = [] := by
  decide +kernel

end Contract
end Reentrancy
