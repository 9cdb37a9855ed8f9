import Reentrancy.Proofs.Flow.Cut
import Reentrancy.Proofs.Flow.Shape

/-! The blocks of a body as a partition of its statements. The rule says where a block ends, how
the blocks are numbered and how each is left, and there is one list of blocks that keeps to it. -/
namespace Reentrancy

/-- How control leaves a block whose last statement is `last`, with the block behind it. -/
inductive LeavesBy (last : Statement) (next : Option Block) : Exit → Prop where
  | returns (returned : last.kind = .ret) : LeavesBy last next .ret
  | reverts (reverted : last.isRevert = true) : LeavesBy last next .revert
  | goes {after : Block} (stays : last.kind ≠ .ret ∧ last.isRevert = false)
      (follows : next = some after) : LeavesBy last next (.goto after.id)
  | opens (stays : last.kind ≠ .ret ∧ last.isRevert = false) (final : next = none) :
      LeavesBy last next .pending

/-- The rule by which a body is cut into blocks with the numbers from `number` up to `free`. -/
structure Partitions (number : Nat) (body : List Statement) (blocks : List Block) (free : Nat) :
    Prop where
  whole : blocks.flatMap (·.statements) = body
  filled : ∀ block ∈ blocks, block.statements ≠ []
  quiet : ∀ block ∈ blocks, ∀ statement ∈ block.statements.dropLast,
    statement.kind.alwaysSplits = false ∧ statement.kind.isEffectful = false
  ended : ∀ block ∈ blocks.dropLast, ∃ last, block.statements.getLast? = some last ∧
    (last.kind.alwaysSplits = true ∨ last.kind.isEffectful = true)
  ids : blocks.map (·.id) = (List.range' number blocks.length).map blockId
  next : free = number + blocks.length
  exits : ∀ (index : Nat) (block : Block) (last : Statement), blocks[index]? = some block →
    block.statements.getLast? = some last → LeavesBy last blocks[index + 1]? block.exit
  /-- What the later passes fill in is still empty. -/
  bare : ∀ block ∈ blocks,
    block = { id := block.id, statements := block.statements, exit := block.exit }

theorem Statement.kind_ne_ret {statement : Statement} (reverts : statement.isRevert = true) :
    statement.kind ≠ .ret := by
  cases statement with
  | expression value => cases value <;> simp [kind]
  | ret => cases reverts
  | _ => simp [kind]

theorem leavesBy_iff {statements : List Statement} {last : Statement} {next : Option Block}
    {exit : Exit} (found : statements.getLast? = some last) :
    LeavesBy last next exit ↔
      exit = Exit.closing statements (.gotoOrPending (next.map (·.id))) := by
  unfold Exit.closing
  rw [found]
  constructor
  · intro leaves
    cases leaves with
    | returns returned => simp [returned]
    | reverts reverted => simp [Statement.kind_ne_ret reverted, reverted]
    | goes stays follows => simp [stays, follows, Exit.gotoOrPending]
    | opens stays final => simp [stays, final, Exit.gotoOrPending]
  · rintro rfl
    dsimp only
    split
    next returned => exact .returns returned
    next goes =>
      split
      next reverted => exact .reverts reverted
      next calm =>
        have stays : last.kind ≠ .ret ∧ last.isRevert = false := ⟨goes, by simpa using calm⟩
        cases next with
        | none => exact .opens stays rfl
        | some after => exact .goes stays rfl

def linkedBlock (number : Nat) (run : List Statement) (next : Option (List Statement)) : Block :=
  { id := blockId number
    statements := run
    exit := Exit.closing run (.gotoOrPending (next.map fun _ => blockId (number + 1))) }

theorem getElem?_linkBlocks (number : Nat) (runs : List (List Statement)) (index : Nat) :
    (linkBlocks number runs)[index]? =
      runs[index]?.map fun run => linkedBlock (number + index) run runs[index + 1]? := by
  induction runs generalizing number index with
  | nil => rfl
  | cons run rest ih =>
    cases rest with
    | nil => cases index <;> rfl
    | cons next others =>
      cases index with
      | zero => rfl
      | succ index =>
        have later := ih (number + 1) index
        rw [show number + 1 + index = number + (index + 1) by omega] at later
        exact later

theorem linkBlocks_runs (number : Nat) (runs : List (List Statement)) :
    (linkBlocks number runs).map (·.statements) = runs := by
  apply List.ext_getElem?
  intro index
  rw [List.getElem?_map, getElem?_linkBlocks, Option.map_map]
  exact Option.map_id'

theorem exists_linked {number : Nat} {runs : List (List Statement)} {block : Block}
    (member : block ∈ linkBlocks number runs) :
    ∃ place next, ∃ run ∈ runs, block = linkedBlock place run next := by
  obtain ⟨index, located⟩ := List.getElem?_of_mem member
  rw [getElem?_linkBlocks] at located
  obtain ⟨run, found, rfl⟩ := Option.map_eq_some_iff.mp located
  exact ⟨_, _, run, List.mem_of_getElem? found, rfl⟩

theorem run_of_mem_linkBlocks {number : Nat} {runs : List (List Statement)} {block : Block}
    (member : block ∈ linkBlocks number runs) : block.statements ∈ runs := by
  obtain ⟨_, _, run, inside, rfl⟩ := exists_linked member
  exact inside

theorem length_linkBlocks (number : Nat) (runs : List (List Statement)) :
    (linkBlocks number runs).length = runs.length := by
  have held := congrArg List.length (linkBlocks_runs number runs)
  rwa [List.length_map] at held

theorem Statement.endsBlock_eq_false {statement : Statement} :
    statement.endsBlock = false ↔
      statement.kind.alwaysSplits = false ∧ statement.kind.isEffectful = false := by
  rw [endsBlock, Bool.or_eq_false_iff]

theorem Statement.endsBlock_eq_true {statement : Statement} :
    statement.endsBlock = true ↔
      statement.kind.alwaysSplits = true ∨ statement.kind.isEffectful = true := by
  rw [endsBlock, Bool.or_eq_true]

theorem Partitions.calm {number free : Nat} {body : List Statement} {blocks : List Block}
    (rule : Partitions number body blocks free) {block : Block} (member : block ∈ blocks) :
    ∀ statement ∈ block.statements.dropLast, statement.endsBlock = false := by
  intro statement early
  exact Statement.endsBlock_eq_false.mpr (rule.quiet block member statement early)

theorem Partitions.cuts {number free : Nat} {body : List Statement} {blocks : List Block}
    (rule : Partitions number body blocks free) :
    CutsAfter Statement.endsBlock body (blocks.map (·.statements)) where
  whole := by rw [← List.flatMap_def, rule.whole]
  filled := by
    intro run member
    obtain ⟨block, inside, rfl⟩ := List.mem_map.mp member
    exact rule.filled block inside
  quiet := by
    intro run member
    obtain ⟨block, inside, rfl⟩ := List.mem_map.mp member
    exact rule.calm inside
  ended := by
    intro run member
    rw [← List.map_dropLast] at member
    obtain ⟨block, inside, rfl⟩ := List.mem_map.mp member
    obtain ⟨last, found, ends⟩ := rule.ended block inside
    exact ⟨last, found, Statement.endsBlock_eq_true.mpr ends⟩

theorem linkBlocks_partitions (number : Nat) {body : List Statement}
    {runs : List (List Statement)} (cuts : CutsAfter Statement.endsBlock body runs) :
    Partitions number body (linkBlocks number runs) (number + runs.length) where
  whole := by rw [List.flatMap_def, linkBlocks_runs, cuts.whole]
  filled := by
    intro block member
    exact cuts.filled _ (run_of_mem_linkBlocks member)
  quiet := by
    intro block member statement early
    exact Statement.endsBlock_eq_false.mp
      (cuts.quiet _ (run_of_mem_linkBlocks member) statement early)
  ended := by
    intro block member
    have run := List.mem_map_of_mem (f := Block.statements) member
    rw [List.map_dropLast, linkBlocks_runs] at run
    obtain ⟨last, found, ends⟩ := cuts.ended _ run
    exact ⟨last, found, Statement.endsBlock_eq_true.mp ends⟩
  ids := by
    have ids := linkBlocks_ids number runs
    rw [graphOf, Graph.ids, List.map_map] at ids
    rw [length_linkBlocks]
    exact ids
  next := by rw [length_linkBlocks]
  exits := by
    intro index block last located found
    rw [leavesBy_iff found]
    rw [getElem?_linkBlocks] at located ⊢
    obtain ⟨run, _, rfl⟩ := Option.map_eq_some_iff.mp located
    rw [Option.map_map]
    rfl
  bare := by
    intro block member
    obtain ⟨_, _, run, _, rfl⟩ := exists_linked member
    rfl

theorem buildBlocks_partitions (number : Nat) (body : List Statement) :
    Partitions number body (buildBlocks number body).1 (buildBlocks number body).2 :=
  linkBlocks_partitions number (cutAfter_cuts Statement.endsBlock body)

theorem Partitions.eq_linkedBlock {number free index : Nat} {body : List Statement}
    {blocks : List Block} {block : Block} (rule : Partitions number body blocks free)
    (located : blocks[index]? = some block) :
    block = linkedBlock (number + index) block.statements
      (blocks[index + 1]?.map (·.statements)) := by
  have member := List.mem_of_getElem? located
  have idAt {place : Nat} {other : Block} (there : blocks[place]? = some other) :
      other.id = blockId (number + place) := by
    have bound := (List.getElem?_eq_some_iff.mp there).1
    have listed := congrArg (·[place]?) rule.ids
    simp only [List.getElem?_map, there, List.getElem?_range' bound, Option.map_some,
      Nat.one_mul] at listed
    exact Option.some.inj listed
  obtain ⟨last, found⟩ : ∃ last, block.statements.getLast? = some last :=
    ⟨_, List.getLast?_eq_some_getLast (rule.filled block member)⟩
  have exit := (leavesBy_iff found).mp (rule.exits index block last located found)
  have next : blocks[index + 1]?.map (·.id) =
      (blocks[index + 1]?.map (·.statements)).map fun _ => blockId (number + index + 1) := by
    cases there : blocks[index + 1]? with
    | none => rfl
    | some other => simp only [Option.map_some, idAt there, Nat.add_assoc]
  rw [next] at exit
  rw [rule.bare block member, exit, idAt located]
  rfl

/-- The blocks of a body are the only ones that keep to the rule. -/
theorem buildBlocks_eq_iff (number : Nat) (body : List Statement) (blocks : List Block)
    (free : Nat) : buildBlocks number body = (blocks, free) ↔ Partitions number body blocks free := by
  constructor
  · intro built
    obtain ⟨rfl, rfl⟩ := Prod.mk.inj built
    exact buildBlocks_partitions number body
  · intro rule
    have runs := rule.cuts.eq_cutAfter
    refine Prod.ext (List.ext_getElem? fun index => ?_) ?_
    · change (linkBlocks number (cutAfter Statement.endsBlock body))[index]? = blocks[index]?
      rw [getElem?_linkBlocks, ← runs, List.getElem?_map, List.getElem?_map, Option.map_map]
      cases located : blocks[index]? with
      | none => rfl
      | some block => exact congrArg some (rule.eq_linkedBlock located).symm
    · rw [rule.next, buildBlocks, ← runs, List.length_map]

end Reentrancy
