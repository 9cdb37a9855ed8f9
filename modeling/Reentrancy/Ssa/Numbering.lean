import Reentrancy.Flow.Graph
import Reentrancy.Ssa.Lowering

/-! Versions over a list of blocks. Blocks are lowered in list order, each from the
versions that the one before it left, except that an arm of a branch starts where its test
ended: no arm sees what the other wrote. After an arm every name goes on from its latest
version. -/
namespace Reentrancy

def lowerParts (scope : Scope) : List (Statement × Bool) → Lower Unit
  | [] => pure ()
  | (statement, headOnly) :: rest => do
    if headOnly then statement.lowerHead scope else statement.lower scope
    lowerParts scope rest

structure Numbered where
  blocks : List Block := []
  exits : List (Table Nat) := []
  sites : List CallSite := []
  versions : Versions := {}
deriving Inhabited

namespace Block

/-- Lowers one block. A name is read at its version on entry, but in a block with a branch
that also defines it at the last version. -/
def number (block : Block) (scope : Scope) (versions : Versions) :
    Block × List CallSite × Versions :=
  let lowered := lowerParts scope block.parts versions
  let after := lowered.versions
  let defined := Names.ofList lowered.emission.defined
  let versionRead := fun name =>
    if block.hasKind .ifStatement && defined.contains name then after.current.version name
    else versions.current.version name
  ({ block with
      instructions := lowered.emission.instructions
      versions :=
        { reads := Table.ofList (block.accesses.reads.toList.map fun name =>
            (name, versionRead name))
          writes := Table.ofList (defined.toList.map fun name =>
            (name, after.current.version name)) } },
    lowered.emission.sites, after)

def armEntry? (block : Block) (graph : Graph) (exits : List (Table Nat)) : Option (Table Nat) :=
  match block.side, graph.predecessors block.id with
  | some _, [test] => (graph.position? test).bind fun index => exits[index]?
  | _, _ => none

end Block

def numberFrom (graph : Graph) (scope : Scope) (exits : List (Table Nat)) (versions : Versions) :
    List Block → Numbered
  | [] => { versions }
  | block :: rest =>
    let entry := block.armEntry? graph exits
    let (numbered, sites, after) := block.number scope
      { versions with current := entry.getD versions.current }
    let resumed := if entry.isSome then after.resume versions.current else after
    let others := numberFrom graph scope (exits ++ [after.current]) resumed rest
    { blocks := numbered :: others.blocks
      exits := after.current :: others.exits
      sites := sites ++ others.sites
      versions := others.versions }

/-- Every name that some block accesses is entered at version 0 first. -/
def numberBlocks (scope : Scope) (versions : Versions) (blocks : List Block) : Numbered :=
  let names := blocks.flatMap fun block => block.accesses.names
  numberFrom (graphOf blocks) scope [] (names.foldl Versions.seed versions) blocks

end Reentrancy
