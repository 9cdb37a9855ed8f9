import Reentrancy.Flow.Graph
import Reentrancy.Inline.Template
import Reentrancy.Ssa.Versions

/-! Internal calls expanded. The blocks of a function are walked in order and numbered
anew; after an internal call the body of the function it goes to is put in, so that what
follows reads what that body wrote. The call itself stays. Nesting is bounded by a depth,
and no function is expanded inside its own expansion. -/
namespace Reentrancy

structure Walk where
  versions : Versions := {}
  /-- The old versions of a name that still stand for its current value. -/
  live : Table (List Nat) := Table.empty
  /-- The new version of each old definition, the latest first. -/
  renamed : List (Variable × Nat) := []
  /-- Names defined in the block at hand. -/
  written : Names := Table.empty
deriving Inhabited

/-- Version 0 of a name that was not defined so far is live. -/
def isLive (live : Table (List Nat)) (read : Variable) : Bool :=
  match live.get? read.name with
  | some versions => versions.contains read.version
  | none => read.version == 0

def lookupVariable (renamed : List (Variable × Nat)) (read : Variable) : Option Nat :=
  (renamed.find? fun entry => entry.1 == read).map (·.2)

namespace Walk

def resolve (walk : Walk) (read : Variable) : Variable :=
  if isLive walk.live read then walk.versions.read read.name
  else ⟨read.name, (lookupVariable walk.renamed read).getD read.version⟩

def define (walk : Walk) (name : String) : Variable × Walk :=
  let (defined, versions) := walk.versions.define name
  (defined, { walk with versions, written := walk.written.add name })

def redefine (walk : Walk) (old : Variable) : Variable × Walk :=
  let (defined, after) := walk.define old.name
  (defined, { after with
    renamed := (old, defined.version) :: after.renamed
    live := after.live.insert old.name [old.version] })

/-- A phi only makes one more old version live. -/
def meetPhi (walk : Walk) (target : Variable) : Walk :=
  { walk with
    live := walk.live.insert target.name (target.version :: (walk.live.get? target.name).getD [0]) }

end Walk

section Definitions

variable {σ : Type} (step : σ → Variable → Variable × σ)

def mapDefinitions (state : σ) : List Variable → List Variable × σ
  | [] => ([], state)
  | first :: rest =>
    let (defined, after) := step state first
    let (others, last) := mapDefinitions after rest
    (defined :: others, last)

def Instruction.redefine (state : σ) : Instruction → Instruction × σ
  | .assign assignment =>
    let (target, after) := step state assignment.target
    let (implied, last) := mapDefinitions step after assignment.implied
    (.assign { assignment with target, implied }, last)
  | .call operation =>
    let (result, after) := step state operation.result
    (.call { operation with result }, after)
  | .phi target sources =>
    let (defined, after) := step state target
    (.phi defined sources, after)
  | instruction => (instruction, state)

end Definitions

structure Expansion where
  walk : Walk
  instructions : List Instruction := []
  spliced : Nat := 0
deriving Inhabited

structure Region where
  walk : Walk
  renamed : List (Variable × Nat) := []

def Region.redefine (region : Region) (old : Variable) : Variable × Region :=
  let (defined, walk) := region.walk.define old.name
  (defined, ⟨walk, (old, defined.version) :: region.renamed⟩)

/-- What a read inside a body becomes: a bound parameter its argument, any other value on
entry the current one, and a definition of the body its new version. -/
def Region.resolve (bindings : Table Value) (region : Region) (read : Variable) : Value :=
  if read.version = 0 then
    (bindings.get? read.name).getD (.var (region.walk.versions.read read.name))
  else .var ⟨read.name, (lookupVariable region.renamed read).getD
    (region.walk.versions.current.version read.name)⟩

/-- Puts in the instructions of a body, `expand` what follows each internal call. -/
def spliceBody (bindings : Table Value) (expand : String → List Value → Walk → Expansion)
    (region : Region) : List Instruction → Expansion
  | [] => { walk := region.walk }
  | first :: rest =>
    let bound := (first.bindNames bindings).substitute fun read =>
      some (region.resolve bindings read)
    let (written, after) := bound.redefine Region.redefine region
    let inner := match written.internalTarget? with
      | some target => expand target written.arguments after.walk
      | none => { walk := after.walk }
    let others := spliceBody bindings expand ⟨inner.walk, after.renamed⟩ rest
    ⟨others.walk, written :: inner.instructions ++ others.instructions,
      inner.spliced + others.spliced⟩

/-- The expansion of a call, at most `depth` bodies deep; `stack` holds the functions that
are being expanded. -/
def splice (templates : Table Template) :
    (depth : Nat) → (stack : List String) → String → List Value → Walk → Expansion
  | 0, _, _, _, walk => { walk }
  | depth + 1, stack, target, arguments, walk =>
    if stack.contains target then { walk }
    else match templates.get? target with
      | none => { walk }
      | some template =>
        let bindings := template.bindings arguments
        let body := spliceBody bindings (splice templates depth (target :: stack)) ⟨walk, []⟩
          template.body
        { body with spliced := body.spliced + 1 }

/-- Walks the instructions of a block; its phis are dropped. -/
def expandBody (expand : String → List Value → Walk → Expansion) (walk : Walk) :
    List Instruction → Expansion
  | [] => { walk }
  | .phi target _ :: rest => expandBody expand (walk.meetPhi target) rest
  | first :: rest =>
    let (written, after) := (first.substitute fun read => some (.var (walk.resolve read))).redefine
      Walk.redefine walk
    let inner := match written.internalTarget? with
      | some target => expand target written.arguments after
      | none => { walk := after }
    let others := expandBody expand inner.walk rest
    ⟨others.walk, written :: inner.instructions ++ others.instructions,
      inner.spliced + others.spliced⟩

namespace Block

/-- Expands one block. Reads of old versions that were live on entry are read at the new
version on entry. -/
def expand (block : Block) (expansion : String → List Value → Walk → Expansion) (walk : Walk) :
    Block × Expansion :=
  let entry := { walk with written := Table.empty }
  let body := expandBody expansion entry block.instructions
  let after := body.walk
  let versionRead := fun (name : String) (version : Nat) =>
    if isLive walk.live ⟨name, version⟩ then walk.versions.current.version name
    else (lookupVariable after.renamed ⟨name, version⟩).getD version
  ({ block with
      instructions := body.instructions
      versions :=
        { reads := Table.ofList (block.versions.reads.entries.map fun read =>
            (read.1, versionRead read.1 read.2))
          writes := Table.ofList (after.written.toList.map fun name =>
            (name, after.versions.current.version name)) } },
    body)

end Block

structure WalkExit where
  current : Table Nat
  live : Table (List Nat)
deriving Inhabited

def latest (versions : Option (List Nat)) : Nat := (versions.getD []).foldl max 0

namespace Walk

/-- Names are numbered anew, calls go on behind those that are taken. -/
def start (calls : Nat) : Walk := { versions := ({} : Versions).reserve calls }

def exit (walk : Walk) : WalkExit := ⟨walk.versions.current, walk.live⟩

def enter (walk : Walk) (entry : WalkExit) : Walk :=
  { walk with versions := { walk.versions with current := entry.current }, live := entry.live }

/-- After an arm of a branch every name goes on from the later of its versions. -/
def resume (walk : Walk) (before : WalkExit) : Walk :=
  { walk with
    versions := walk.versions.resume before.current
    live := before.live.entries.foldl (fun live entry =>
      if latest (live.get? entry.1) < latest (some entry.2) then live.insert entry.1 entry.2
      else live) walk.live }

end Walk

/-- An arm of a branch starts at the end of its only predecessor. -/
def Block.armExit? (block : Block) (graph : Graph) (exits : List WalkExit) : Option WalkExit :=
  match block.side, graph.predecessors block.id with
  | some _, [test] => (graph.position? test).bind fun index => exits[index]?
  | _, _ => none

structure Inlined where
  blocks : List Block := []
  /-- The versions at the end of each block; none if nothing was put in. -/
  exits : List (Table Nat) := []
  spliced : Nat := 0
  versions : Versions := {}
deriving Inhabited

def inlineFrom (graph : Graph) (expansion : String → List Value → Walk → Expansion)
    (exits : List WalkExit) (walk : Walk) : List Block → Inlined
  | [] => { versions := walk.versions }
  | block :: rest =>
    let entry := block.armExit? graph exits
    let (expanded, body) := block.expand expansion ((entry.map walk.enter).getD walk)
    let after := body.walk
    let resumed := if entry.isSome then after.resume walk.exit else after
    let others := inlineFrom graph expansion (exits ++ [after.exit]) resumed rest
    { blocks := expanded :: others.blocks
      exits := after.versions.current :: others.exits
      spliced := body.spliced + others.spliced
      versions := others.versions }

def hasTargets (templates : Table Template) (root : String) (blocks : List Block) : Bool :=
  (blocks.flatMap (·.instructions)).any fun instruction =>
    instruction.internalTarget?.any fun target => target != root && templates.contains target

/-- Expands the internal calls of the function `root`. If there is nothing to put in, the
blocks and versions stay as they are. -/
def inlineBlocks (templates : Table Template) (depth : Nat) (root : String) (versions : Versions)
    (blocks : List Block) : Inlined :=
  if depth = 0 || !hasTargets templates root blocks then { blocks, versions }
  else
    inlineFrom (graphOf blocks) (splice templates depth [root]) [] (.start versions.calls) blocks

end Reentrancy
