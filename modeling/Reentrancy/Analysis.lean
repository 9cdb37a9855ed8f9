import Reentrancy.Config
import Reentrancy.Ssa.Body
import Reentrancy.Tree.Contract

/-! The analysis of contracts. First every implemented function is built on its own; then
the functions that can be called from outside are expanded, finished and checked. -/
namespace Reentrancy

structure FunctionInfo where
  visibility : String
  location : Location
deriving DecidableEq, Repr, Inhabited

structure Entrypoint where
  name : String
  visibility : String
  location : Location
  modifiers : List String
  blocks : List Block
  pieces : List Piece
  calls : List CallSite
deriving Inhabited

structure Summary where
  name : String
  pragma : String
  state : List StateVariable
  functions : Table FunctionInfo
  events : List Event
  entrypoints : List Entrypoint
deriving Inhabited

structure ContractAnalysis where
  summary : Summary
  findings : List Finding
deriving Inhabited

structure Artifact where
  path : String
  source : Option String
  contracts : List ContractAnalysis
deriving Inhabited

namespace Contract

def state (contract : Contract) : List StateVariable :=
  contract.members.filterMap fun
    | .state declared => some declared
    | _ => none

def functions (contract : Contract) : List FunctionDefinition :=
  contract.members.filterMap fun
    | .function defined => some defined
    | _ => none

def events (contract : Contract) : List Event :=
  contract.members.filterMap fun
    | .event declared => some declared
    | _ => none

/-- Names that can be called or used as a modifier. -/
def callables (contract : Contract) : List String :=
  contract.members.filterMap fun
    | .function defined => some defined.name
    | .modifier name => some name
    | _ => none

def scope (contract : Contract) : Scope where
  functions := Names.ofList contract.callables
  symbols := Table.ofList (contract.state.map fun declared => (declared.name, declared.type))

end Contract

structure Standalone where
  function : FunctionDefinition
  body : Body

namespace Contract

def standalone (contract : Contract) : List Standalone :=
  contract.functions.filterMap fun function =>
    function.body.map fun statements =>
      ⟨function, Body.build (contract.scope.withSymbols function.symbols) statements⟩

end Contract

def Standalone.template (standalone : Standalone) : Template :=
  Template.ofBlocks standalone.function.parameters standalone.body.blocks

def FunctionDefinition.entrypoint (function : FunctionDefinition) (body : Body) : Entrypoint where
  name := function.name
  visibility := function.visibility
  location := function.location
  modifiers := function.modifiers
  blocks := body.blocks
  pieces := body.finish.1
  calls := body.calls

namespace Contract

/-- Functions are looked up by name: of several with one name the last one counts. -/
def summarize (contract : Contract) (pragma : String) (depth : Nat) : Summary :=
  let built := contract.standalone
  let templates := Table.ofList (built.map fun one => (one.function.name, one.template))
  let bodies := Table.ofList (built.map fun one => (one.function.name, one.body))
  { name := contract.name
    pragma
    state := contract.state
    functions := Table.ofList (contract.functions.map fun function =>
      (function.name, ⟨function.visibility, function.location⟩))
    events := contract.events
    entrypoints := (contract.functions.filter FunctionDefinition.isEntry).filterMap fun function =>
      (bodies.get? function.name).map fun body =>
        function.entrypoint (body.inline templates depth function.name) }

end Contract

def Summary.findings (summary : Summary) (detector : Detector) : List Finding :=
  let state := Names.ofList (summary.state.map (·.name))
  summary.entrypoints.filterMap fun entry =>
    detector.check state summary.name entry.name entry.modifiers entry.pieces

def Contract.analyze (contract : Contract) (pragma : String) (config : Config) :
    ContractAnalysis :=
  let summary := contract.summarize pragma config.inlineDepth
  { summary, findings := summary.findings config.detector }

def SourceUnit.analyze (unit : SourceUnit) (config : Config) : List ContractAnalysis :=
  unit.contracts.map fun contract => contract.analyze unit.pragma config

def Artifact.findingCount (artifact : Artifact) : Nat :=
  (artifact.contracts.map fun contract => contract.findings.length).foldl Nat.add 0

end Reentrancy
