import Reentrancy.Proofs.Inline.Templates
import Reentrancy.Proofs.Inline.Walks
import Reentrancy.Proofs.Ssa.Phi

/-! The books that blocks keep of their versions. Phis are placed by what a block says it writes and
by the versions told for its end. Both are noted beside the instructions, while these are made, and
both agree with them: after numbering and after expansion. -/
namespace Reentrancy

/-- What is noted of a block agrees with its instructions. It writes the names that they define,
phis left out, each in the version of its last definition. At its end these versions are current,
and all other names have the version that they had on entry. -/
structure Block.Balances (block : Block) (entry : String → Nat) (exit : Table Nat) : Prop where
  writes : ∀ name, block.versions.writes.get? name =
    (versionsOf name (plainDefs block.instructions)).getLast?
  current : ∀ name version, block.versions.writes.get? name = some version →
    exit.get? name = some version
  kept : ∀ name, block.versions.writes.get? name = none → exit.version name = entry name

theorem Block.Tallies.balances {block : Block} {start after : Versions}
    (tallies : block.Tallies start after)
    (noPhi : ∀ instruction ∈ block.instructions, instruction.isPhi = false) :
    block.Balances start.current.version after.current := by
  refine ⟨fun name => ?_, fun name version written => ?_, fun name unwritten => ?_⟩
  · rw [tallies.writes, plainDefs_of_noPhi noPhi]
  · rw [tallies.lands, ← tallies.writes, written, Option.some_or]
  · rw [Table.version, tallies.lands, ← tallies.writes, unwritten, Option.none_or]
    rfl

section Entries

variable (graph : Graph)

/-- The versions with which a walk goes on behind a block: those at its end, or behind an arm of a
branch the later of these and of those before it. -/
def versionsBehind (arm : Option (Table Nat)) (before : String → Nat) (exit : Table Nat) :
    String → Nat :=
  match arm with
  | some _ => fun name => max (exit.version name) (before name)
  | none => exit.version

/-- The versions that blocks start from, given those at the ends of the blocks: an arm of a branch
from the end of its test, any other block from what the walk goes on with. -/
def entriesFrom (past : List (Table Nat)) (before : String → Nat) :
    List Block → List (Table Nat) → List (String → Nat)
  | block :: rest, exit :: exits =>
    let arm := block.armEntry? graph past
    (arm.map Table.version).getD before ::
      entriesFrom (past ++ [exit]) (versionsBehind arm before exit) rest exits
  | _, _ => []

/-- Every block has an end, and what is noted of it there agrees with its instructions. -/
structure BooksAgree (past : List (Table Nat)) (before : String → Nat) (given blocks : List Block)
    (exits : List (Table Nat)) : Prop where
  blocks_told : blocks.length = given.length
  exits_told : exits.length = given.length
  balances : ∀ (index : Nat) (block : Block) (exit : Table Nat),
    blocks[index]? = some block → exits[index]? = some exit →
      ∃ entry, (entriesFrom graph past before given exits)[index]? = some entry ∧
        block.Balances entry exit

variable {graph} {past : List (Table Nat)} {before : String → Nat}

theorem BooksAgree.nil : BooksAgree graph past before [] [] [] :=
  ⟨rfl, rfl, by simp⟩

theorem BooksAgree.cons {block made : Block} {exit : Table Nat} {given blocks : List Block}
    {exits : List (Table Nat)}
    (here : made.Balances (((block.armEntry? graph past).map Table.version).getD before) exit)
    (later : BooksAgree graph (past ++ [exit])
      (versionsBehind (block.armEntry? graph past) before exit) given blocks exits) :
    BooksAgree graph past before (block :: given) (made :: blocks) (exit :: exits) := by
  refine ⟨congrArg (· + 1) later.blocks_told, congrArg (· + 1) later.exits_told, ?_⟩
  intro index found left located ended
  cases index with
  | zero =>
    obtain rfl := Option.some.inj located
    obtain rfl := Option.some.inj ended
    exact ⟨_, rfl, here⟩
  | succ index => exact later.balances index found left located ended

end Entries

theorem Block.number_noPhi (block : Block) (scope : Scope) (versions : Versions) :
    ∀ instruction ∈ (block.number scope versions).1.instructions, instruction.isPhi = false :=
  (lowerParts_extends scope block.parts versions).noPhi

theorem versionsBehind_resume (arm : Option (Table Nat)) (before : Table Nat) (after : Versions) :
    versionsBehind arm before.version after.current =
      (if arm.isSome then after.resume before else after).current.version := by
  funext name
  cases arm with
  | none => rfl
  | some test => exact (after.current_resume before name).symm

theorem numberFrom_booksAgree (graph : Graph) (scope : Scope) (exits : List (Table Nat))
    (versions : Versions) (blocks : List Block) :
    BooksAgree graph exits versions.current.version blocks
      (numberFrom graph scope exits versions blocks).blocks
      (numberFrom graph scope exits versions blocks).exits := by
  induction blocks generalizing exits versions with
  | nil => exact .nil
  | cons block rest ih =>
    let arm := block.armEntry? graph exits
    let start : Versions := { versions with current := arm.getD versions.current }
    have here := (block.number_tallies scope start).balances (block.number_noPhi scope start)
    have entered : start.current.version =
        (arm.map Table.version).getD versions.current.version := by
      unfold start
      cases arm <;> rfl
    rw [entered] at here
    refine .cons here ?_
    rw [versionsBehind_resume]
    exact ih _ _

namespace Block

theorem armEntry?_map_current (block : Block) (graph : Graph) (exits : List WalkExit) :
    block.armEntry? graph (exits.map (·.current)) =
      (block.armExit? graph exits).map (·.current) := by
  unfold armEntry? armExit?
  cases block.side with
  | none => rfl
  | some side =>
    cases graph.predecessors block.id with
    | nil => rfl
    | cons test others =>
      cases others with
      | cons => rfl
      | nil =>
        simp only [List.getElem?_map, Option.map_bind]
        rfl

end Block

theorem inlineFrom_booksAgree {templates : Table Template} (phiFree : templates.PhiFree)
    (graph : Graph) (depth : Nat) (stack : List String) (exits : List WalkExit) (walk : Walk)
    (blocks : List Block) :
    let inlined := inlineFrom graph (splice templates depth stack) exits walk blocks
    BooksAgree graph (exits.map (·.current)) walk.versions.current.version blocks inlined.blocks
      inlined.exits := by
  induction blocks generalizing exits walk with
  | nil => exact .nil
  | cons block rest ih =>
    let arm := block.armExit? graph exits
    let start := (arm.map walk.enter).getD walk
    let body := (block.expand (splice templates depth stack) start).2
    let resumed := if arm.isSome then body.walk.resume walk.exit else body.walk
    have noPhi := (expandBody_counts (splice_counts phiFree depth stack)
      { start with written := Table.empty } block.instructions).noPhi
    have here := (block.expand_tallies (splice_defines templates depth stack) start).balances noPhi
    -- This walk looks its arms up among its own exits, the entries among the tables in these.
    have found := block.armEntry?_map_current graph exits
    have entered : start.versions.current.version =
        ((block.armEntry? graph (exits.map (·.current))).map Table.version).getD
          walk.versions.current.version := by
      rw [found]
      unfold start arm
      cases block.armExit? graph exits <;> rfl
    have behind : versionsBehind (block.armEntry? graph (exits.map (·.current)))
        walk.versions.current.version body.walk.versions.current =
          resumed.versions.current.version := by
      rw [found, versionsBehind_resume]
      unfold resumed arm
      cases block.armExit? graph exits <;> rfl
    rw [entered] at here
    have later := ih (exits ++ [body.walk.exit]) resumed
    rw [List.map_append, ← behind] at later
    exact .cons here later

theorem numberBlocks_booksAgree (scope : Scope) (versions : Versions) (blocks : List Block) :
    BooksAgree (graphOf blocks) [] versions.current.version blocks
      (numberBlocks scope versions blocks).blocks (numberBlocks scope versions blocks).exits := by
  let names := blocks.flatMap fun block => block.accesses.names
  have seeded : (names.foldl Versions.seed versions).current.version = versions.current.version :=
    funext (current_seed names versions)
  rw [← seeded]
  exact numberFrom_booksAgree (graphOf blocks) scope [] (names.foldl Versions.seed versions) blocks

/-- What blocks note of their versions agrees with their instructions. This holds after any
numbering of any blocks, from whatever versions it starts, and after any expansion that puts
something in, if what it puts in has no phis; and bodies are kept without them. -/
theorem blocks_keepBooks :
    (∀ (scope : Scope) (versions : Versions) (blocks : List Block),
      let numbered := numberBlocks scope versions blocks
      BooksAgree (graphOf blocks) [] versions.current.version blocks numbered.blocks
        numbered.exits) ∧
    (∀ (templates : Table Template) (depth : Nat) (root : String) (versions : Versions)
        (blocks : List Block), templates.PhiFree →
      let inlined := inlineBlocks templates depth root versions blocks
      inlined.spliced ≠ 0 →
        BooksAgree (graphOf blocks) [] (fun _ => 0) blocks inlined.blocks inlined.exits) ∧
    ∀ parameters blocks, ∀ instruction ∈ (Template.ofBlocks parameters blocks).body,
      instruction.isPhi = false := by
  refine ⟨numberBlocks_booksAgree, ?_, Template.ofBlocks_noPhi⟩
  intro templates depth root versions blocks phiFree inlined put
  by_cases idle : (depth = 0 || !hasTargets templates root blocks) = true
  · have same : inlined = { blocks, versions } := if_pos idle
    exact absurd (congrArg Inlined.spliced same) put
  · have active : inlined = inlineFrom (graphOf blocks) (splice templates depth [root]) []
        (.start versions.calls) blocks := if_neg idle
    rw [active]
    exact inlineFrom_booksAgree phiFree (graphOf blocks) depth [root] []
      (.start versions.calls) blocks

/-- A call in the first arm of a branch puts a write of `x` in. The second arm starts and ends with
the version of the test, and the block behind both goes on from the later one. -/
theorem spliced_arm_keepsBooks :
    let write : Instruction := .assign { target := ⟨"x", 1⟩, value := .literal "1" }
    let call : Instruction := .call { result := ⟨"ret1", 1⟩, callee := "f", type := .internal }
    let template := Template.ofBlocks [] [{ id := "b", instructions := [write] }]
    let templates := Table.ofList [("f", template)]
    let blocks : List Block :=
      [{ id := "test", exit := .branch .missing "yes" "no", instructions := [write] },
        { id := "yes", exit := .goto "end", side := some true, instructions := [call] },
        { id := "no", exit := .goto "end", side := some false },
        { id := "end", exit := .ret }]
    let inlined := inlineBlocks templates 1 "g" {} blocks
    templates.PhiFree ∧ inlined.spliced = 1 ∧
      BooksAgree (graphOf blocks) [] (fun _ => 0) blocks inlined.blocks inlined.exits ∧
      inlined.blocks.map (·.versions.writes.get? "x") = [some 1, some 2, none, none] ∧
      inlined.exits.map (·.version "x") = [1, 2, 1, 2] := by
  intro write call template templates blocks inlined
  have phiFree : templates.PhiFree := by
    intro name template found
    rcases Table.mem_of_get?_insertAll found with made | absent
    · obtain ⟨_, rfl⟩ := Prod.mk.inj (List.mem_singleton.mp made)
      exact Template.ofBlocks_noPhi [] _
    · cases absent
  have put : inlined.spliced = 1 := by decide +kernel
  refine ⟨phiFree, put, ?_, by decide +kernel, by decide +kernel⟩
  exact blocks_keepBooks.2.1 templates 1 "g" {} blocks phiFree fun none => by
    cases put.symm.trans none

end Reentrancy
