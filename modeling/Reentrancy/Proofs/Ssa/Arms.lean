import Reentrancy.Proofs.Flow.TopBranches
import Reentrancy.Proofs.Ssa.Lookups
import Reentrancy.Proofs.Ssa.LoopPhis

/-! The versions in the arms of a branch. Both arms start from the versions at the end of their
test, so neither sees what the other defines; what follows them starts from the later of the
versions that they leave. -/
namespace Reentrancy

section Blocks

theorem Block.Performs.use_cases {block : Block} {actions : List Action} {start : Versions}
    (performs : block.Performs actions start)
    (noPhi : ∀ instruction ∈ block.instructions, instruction.isPhi = false) {used : Variable}
    (member : used ∈ block.instructions.flatMap Instruction.uses) :
    used.version = start.current.version used.name ∨
      used ∈ block.instructions.flatMap Instruction.defs := by
  rcases performs.uses used member with defined | ⟨front, back, split, looked⟩
  · exact .inr defined
  · rw [Action.read_applyAll] at looked
    cases last : lastMark used.name (Action.along Action.marks front start) with
    | none =>
      rw [last] at looked
      exact .inl (congrArg Variable.version looked)
    | some mark =>
      rw [last] at looked
      obtain rfl : used = mark.defined := looked
      refine .inr ?_
      rw [← marks_defined noPhi, performs.marks, split, Action.along_append]
      exact List.mem_map_of_mem (List.mem_append_left _ (mem_of_lastMark last).1)

theorem Block.number_current (block : Block) (scope : Scope) (start : Versions) (name : String) :
    let numbered := block.number scope start
    let defined := numbered.1.instructions.flatMap Instruction.defs
    numbered.2.2.current.version name =
      if name ∈ defined.map Variable.name then
        start.counter.version name + (versionsOf name defined).length
      else start.current.version name := by
  intro numbered defined
  obtain ⟨_, _, _, run⟩ := lowerParts_runs scope [] block.parts start [] (by simp)
  have names : _ = defined.map Variable.name := run.latest.1
  have settles := lowerParts_settles scope block.parts start
  rw [names] at settles
  split
  next member =>
    exact (settles.level name member).trans
      ((lowerParts_extends scope block.parts start).counted.version name)
  next absent => exact (settles.kept name absent).1

theorem Block.number_recordedReads (block : Block) (scope : Scope) (start : Versions)
    {name : String} {version : Nat}
    (found : (block.number scope start).1.versions.reads.get? name = some version) :
    version = start.current.version name ∨
      ⟨name, version⟩ ∈ (block.number scope start).1.instructions.flatMap Instruction.defs := by
  obtain ⟨_, _, _, run⟩ := lowerParts_runs scope [] block.parts start [] (by simp)
  rw [number] at found
  simp only [Table.get?_ofList_map] at found
  split at found
  · obtain rfl := Option.some.inj found
    split
    · exact (run.latest.2 name).symm.imp_left And.right
    · exact .inl rfl
  · cases found

end Blocks

theorem BranchAt.of_shells {blocks others : List Block} {condition : Expression}
    {yes no : List Statement} {index : Nat} {rawTest rawYes rawNo : Block}
    (same : blocks.map Block.shell = others.map Block.shell)
    (branch : BranchAt blocks condition yes no index rawTest rawYes rawNo) :
    ∃ test onYes onNo, BranchAt others condition yes no index test onYes onNo := by
  obtain ⟨test, testAt, asTest⟩ := getElem?_of_shells same branch.tested
  obtain ⟨onYes, yesAt, asYes⟩ := getElem?_of_shells same branch.first
  obtain ⟨onNo, noAt, asNo⟩ := getElem?_of_shells same branch.second
  refine ⟨test, onYes, onNo, testAt, ?_, ?_, ?_, yesAt, ?_, ?_, noAt, ?_, ?_, ?_⟩
  · exact (congrArg (·.statements.getLast?) asTest).trans branch.ends
  · exact (congrArg Block.side asTest).trans branch.whole
  · have yesId : rawYes.id = onYes.id := (congrArg Block.id asYes).symm
    have noId : rawNo.id = onNo.id := (congrArg Block.id asNo).symm
    rw [← yesId, ← noId]
    exact (congrArg Block.exit asTest).trans branch.leads
  · exact (congrArg Block.side asYes).trans branch.firstSide
  · exact (congrArg Block.statements asYes).trans branch.firstHolds
  · exact (congrArg Block.side asNo).trans branch.secondSide
  · exact (congrArg Block.statements asNo).trans branch.secondHolds
  · intro next found
    obtain ⟨raw, source, asNext⟩ := getElem?_of_shells same.symm found
    exact (congrArg Block.side asNext).symm.trans (branch.behind raw source)

/-- The reads of an arm: what it reads is current at the end of its test, or was defined before in
the same arm. -/
structure Block.ReadsFrom (arm : Block) (tested : Table Nat) : Prop where
  uses : ∀ front use back, arm.instructions = front ++ use :: back → ∀ read ∈ use.uses,
    read.version = tested.version read.name ∨ read ∈ front.flatMap Instruction.defs
  recorded : ∀ name version, arm.versions.reads.get? name = some version →
    version = tested.version name ∨
      ⟨name, version⟩ ∈ arm.instructions.flatMap Instruction.defs

section Numbered

variable {scope : Scope} {statements : List Statement}

theorem defsOf_take_add_one {blocks : List Block} {index : Nat} {block : Block}
    (located : blocks[index]? = some block) : defsOf (blocks.take (index + 1)) =
      defsOf (blocks.take index) ++ block.instructions.flatMap Instruction.defs := by
  rw [List.take_add_one, located, Option.toList_some, defsOf_append, defsOf_singleton]

theorem numberBody_fresh {index : Nat} {block : Block}
    (located : (numberBody scope statements).blocks[index]? = some block) :
    List.Disjoint (defsOf ((numberBody scope statements).blocks.take index))
      (block.instructions.flatMap Instruction.defs) := by
  have once := numberBlocks_once scope (flowBlocks statements).1
  rw [← List.take_append_drop (index + 1) (numberBlocks scope {} (flowBlocks statements).1).blocks,
    defsOf_append, defsOf_take_add_one located] at once
  exact List.disjoint_of_nodup_append once.of_append_left

/-- An arm is numbered from the versions at the end of its test; it leaves the latest version of
each name that it defines, and all others as the test left them. -/
theorem numberBody_arm {place index : Nat} {raw test arm : Block} {tested : Table Nat}
    (source : (flowBlocks statements).1[place]? = some raw) (side : raw.side.isSome = true)
    (there : (flowBlocks statements).1[index]? = some test) (leads : raw.id ∈ test.exit.targets)
    (left : (numberBody scope statements).exits[index]? = some tested)
    (located : (numberBody scope statements).blocks[place]? = some arm) :
    (∃ start : Versions, start.current = tested ∧ arm = (raw.number scope start).1) ∧
      ∃ exit, (numberBody scope statements).exits[place]? = some exit ∧
        ∀ name, exit.version name =
          if name ∈ (arm.instructions.flatMap Instruction.defs).map Variable.name then
            (versionsOf name (defsOf
              ((numberBody scope statements).blocks.take (place + 1)))).length
          else tested.version name := by
  have closed := numberBody_closed scope statements
  rw [graphOf_numberBody] at closed
  obtain ⟨position, other, found, earlier, tests, only⟩ :=
    arm_test closed (flowBlocks_laid statements) source side
  have same : test.vertex.id = other.vertex.id :=
    (only test.id).mp ⟨test.vertex, List.mem_of_getElem? (getElem?_graphOf there), rfl, leads⟩
  obtain ⟨rfl, _⟩ := Graph.eq_of_id closed.distinct (getElem?_graphOf there)
    (getElem?_graphOf found) same
  obtain ⟨before, _, counts, here, ended⟩ :=
    numberBlocks_starts scope (flowBlocks statements).1 source
  have entry : raw.armEntry? (graphOf (flowBlocks statements).1)
      ((numberBody scope statements).exits.take place) = some tested := by
    rw [Block.armEntry?_eq, tests, Option.bind_some, List.getElem?_take_of_lt earlier]
    exact left
  rw [entry, Option.getD_some] at here ended
  obtain rfl := Option.some.inj (located.symm.trans here)
  refine ⟨⟨_, rfl, rfl⟩, _, ended, fun name => ?_⟩
  rw [Block.number_current, defsOf_take_add_one located, versionsOf_append, List.length_append,
    ← counts]

theorem numberBody_readsFrom {place : Nat} {raw : Block} {start : Versions}
    (located : (numberBody scope statements).blocks[place]? = some (raw.number scope start).1) :
    (raw.number scope start).1.ReadsFrom start.current := by
  refine ⟨fun front use back split read member => ?_, fun name version => ?_⟩
  · have noPhi := (lowerParts_extends scope raw.parts start).noPhi
    have used : read ∈ (raw.number scope start).1.instructions.flatMap Instruction.uses := by
      rw [split]
      exact List.mem_flatMap.mpr ⟨use, by simp, member⟩
    refine ((raw.number_performs scope start).1.use_cases noPhi used).imp_right fun defined => ?_
    -- Nothing else defines what the block defines, so the definition that supplies it is its own.
    have supplied := (numberBlocks_sees scope (flowBlocks statements).1).1 place _ located
    rw [split] at supplied
    have everywhere : read ∈ defsOf (numberBody scope statements).blocks :=
      mem_defsOf.mpr ⟨_, List.mem_of_getElem? located, defined⟩
    rcases supplied.defined_before read member with zero | known
    · have positive := (numberBlocks_positive everywhere).1
      omega
    · refine (List.mem_append.mp known).resolve_left fun early => ?_
      obtain ⟨origin, other, before, found, inside⟩ := mem_defsOf_take early
      have within : origin < place := Nat.lt_of_lt_of_le before (Block.entry_le ..)
      refine numberBody_fresh located (mem_defsOf.mpr ⟨other, ?_, inside⟩) defined
      rw [← List.getElem?_take_of_lt within] at found
      exact List.mem_of_getElem? found
  · exact raw.number_recordedReads scope start

end Numbered

section Arms

variable {blocks : List Block} {condition : Expression} {yes no : List Statement} {index : Nat}
  {test onYes onNo : Block}

theorem length_firstArms_of_shells {others : List Block}
    (same : blocks.map Block.shell = others.map Block.shell) (count : Nat) :
    ((blocks.take count).filter Block.isFirstArm).length =
      ((others.take count).filter Block.isFirstArm).length := by
  have arms (blocks : List Block) : (blocks.filter Block.isFirstArm).length =
      ((blocks.map Block.shell).filter Block.isFirstArm).length := by
    rw [List.filter_map, List.length_map]
    rfl
  rw [arms, List.map_take, same, ← List.map_take, ← arms]

/-- Counters go on from arm to arm, so of what the arms leave of a name the greater version is that
of the arm that defines it last. -/
theorem BranchAt.latest (branch : BranchAt blocks condition yes no index test onYes onNo)
    {tested left right : Table Nat}
    (before : ∀ name, tested.version name =
      (versionsOf name (defsOf (blocks.take (index + 1)))).length)
    (leftOf : ∀ name, left.version name =
      if name ∈ (onYes.instructions.flatMap Instruction.defs).map Variable.name then
        (versionsOf name (defsOf (blocks.take (index + 2)))).length
      else tested.version name)
    (rightOf : ∀ name, right.version name =
      if name ∈ (onNo.instructions.flatMap Instruction.defs).map Variable.name then
        (versionsOf name (defsOf (blocks.take (index + 3)))).length
      else tested.version name) {name : String} :
    (versionsOf name (defsOf (blocks.take (index + 3)))).length =
      max (left.version name) (right.version name) := by
  have idle {defined : List Variable} (absent : name ∉ defined.map Variable.name) :
      (versionsOf name defined).length = 0 := by rw [versionsOf_eq_nil absent, List.length_nil]
  rw [leftOf, rightOf, before, defsOf_take_add_one branch.second, defsOf_take_add_one branch.first]
  simp only [versionsOf_append, List.length_append]
  split
  next inYes =>
    split
    next inNo => omega
    next inNo => rw [idle inNo]; omega
  next inYes =>
    split
    next inNo => rw [idle inYes]; omega
    next inNo => rw [idle inYes, idle inNo]; omega

end Arms

/-- Every branch of a body has its test and its arms among the numbered blocks. What an arm reads
has the version that the test left, or was defined before in the same arm; the arms define different
versions; and the block behind them starts from the greater of what they leave of every name. -/
theorem numberBody_arms (scope : Scope) (statements : List Statement) :
    let numbered := numberBody scope statements
    ∀ front condition yes no rest, statements = front ++ .branch condition yes no :: rest →
      ∃ index test onYes onNo tested left right,
        BranchAt numbered.blocks condition yes no index test onYes onNo ∧
        ((numbered.blocks.take index).filter Block.isFirstArm).length =
          (front.filter Statement.isBranch).length ∧
        numbered.exits[index]? = some tested ∧ numbered.exits[index + 1]? = some left ∧
        numbered.exits[index + 2]? = some right ∧
        onYes.ReadsFrom tested ∧ onNo.ReadsFrom tested ∧
        List.Disjoint (onYes.instructions.flatMap Instruction.defs)
          (onNo.instructions.flatMap Instruction.defs) ∧
        ∀ raw, (flowBlocks statements).1[index + 3]? = some raw → ∃ start : Versions,
          numbered.blocks[index + 3]? = some (raw.number scope start).1 ∧
          numbered.exits[index + 3]? = some (raw.number scope start).2.2.current ∧
          ∀ name, start.current.version name = max (left.version name) (right.version name) := by
  intro numbered front condition yes no rest split
  obtain ⟨index, rawTest, rawYes, rawNo, raw, count⟩ := exists_branch split
  have shells : numbered.blocks.map Block.shell = (flowBlocks statements).1.map Block.shell :=
    shells_numberFrom ..
  obtain ⟨test, onYes, onNo, branch⟩ := raw.of_shells shells.symm
  obtain ⟨tested, testLeft⟩ : ∃ tested, numbered.exits[index]? = some tested := by
    obtain ⟨_, _, _, _, ended⟩ := numberBlocks_starts scope (flowBlocks statements).1 raw.tested
    exact ⟨_, ended⟩
  obtain ⟨⟨early, atYes, asYes⟩, left, yesLeft, leftOf⟩ := numberBody_arm raw.first
    (by rw [raw.firstSide]; rfl) raw.tested (by simp [raw.leads, Exit.targets]) testLeft
    branch.first
  obtain ⟨⟨late, atNo, asNo⟩, right, noLeft, rightOf⟩ := numberBody_arm raw.second
    (by rw [raw.secondSide]; rfl) raw.tested (by simp [raw.leads, Exit.targets]) testLeft
    branch.second
  refine ⟨index, test, onYes, onNo, tested, left, right, branch, ?_, testLeft, yesLeft, noLeft,
    ?_, ?_, ?_, ?_⟩
  · rw [length_firstArms_of_shells shells]
    exact count
  · rw [asYes, ← atYes]
    exact numberBody_readsFrom (asYes ▸ branch.first)
  · rw [asNo, ← atNo]
    exact numberBody_readsFrom (asNo ▸ branch.second)
  · intro defined inYes inNo
    have fresh := numberBody_fresh branch.second
    rw [defsOf_take_add_one branch.first] at fresh
    exact fresh (List.mem_append_right _ inYes) inNo
  · intro next source
    obtain ⟨start, level, counts, here, ended⟩ :=
      numberBlocks_starts scope (flowBlocks statements).1 source
    rw [Block.armEntry?_of_plain (raw.behind next source), Option.getD_none] at here ended
    refine ⟨start, here, ended, fun name => ?_⟩
    rw [level, counts]
    refine branch.latest (fun defined => ?_) leftOf rightOf
    exact numberBlocks_counts scope _ branch.tested branch.whole testLeft defined

open Snippet in
/-- In `if (c) { x = 1; } else { x = x; } y = x;` the second arm does not see the first one, and
what follows reads the version of the second. -/
theorem second_arm_reads_test :
    let yes := [sets (named "x") one]
    let no := [sets (named "x") (named "x")]
    let statements := [.branch (named "c") yes no, sets (named "y") (named "x")]
    let numbered := numberBody {} statements
    ∃ test onYes onNo tested left right start, ∃ next : Block,
      BranchAt numbered.blocks (named "c") yes no 0 test onYes onNo ∧
      numbered.exits[1]? = some left ∧ numbered.exits[2]? = some right ∧
      onYes.ReadsFrom tested ∧ onNo.ReadsFrom tested ∧
      onNo.instructions.flatMap Instruction.uses = [⟨"x", 0⟩] ∧
      List.Disjoint (onYes.instructions.flatMap Instruction.defs)
        (onNo.instructions.flatMap Instruction.defs) ∧
      left.version "x" = 1 ∧ right.version "x" = 2 ∧
      numbered.blocks[3]? = some (next.number {} start).1 ∧ start.current.version "x" = 2 := by
  intro yes no statements numbered
  obtain ⟨index, test, onYes, onNo, tested, left, right, branch, _, _, atYes, atNo, readsYes,
    readsNo, apart, behind⟩ := numberBody_arms {} statements [] (named "c") yes no _ rfl
  have only : ∀ place < 4, (numbered.blocks[place + 1]?).any Block.isFirstArm = true →
      place = 0 := by decide +kernel
  have size : numbered.blocks.length = 4 := by decide +kernel
  obtain rfl : index = 0 := by
    have bound : index < 4 := size ▸ (List.getElem?_eq_some_iff.mp branch.tested).1
    refine only index bound ?_
    rw [branch.first]
    simp [Block.isFirstArm, branch.firstSide]
  have uses : (numbered.blocks[2]?).map (fun block => block.instructions.flatMap Instruction.uses) =
      some [⟨"x", 0⟩] := by decide +kernel
  have leaves : (numbered.exits[1]?).map (·.version "x") = some 1 ∧
      (numbered.exits[2]?).map (·.version "x") = some 2 := by decide +kernel
  obtain ⟨next, source⟩ : ∃ next, (flowBlocks statements).1[3]? = some next :=
    Option.isSome_iff_exists.mp (by decide +kernel)
  obtain ⟨start, here, _, greater⟩ := behind next source
  rw [branch.second] at uses
  rw [atYes, atNo] at leaves
  have ofLeft : left.version "x" = 1 := Option.some.inj leaves.1
  have ofRight : right.version "x" = 2 := Option.some.inj leaves.2
  refine ⟨test, onYes, onNo, tested, left, right, start, next, branch, atYes, atNo, readsYes,
    readsNo, Option.some.inj uses, apart, ofLeft, ofRight, here, ?_⟩
  rw [greater, ofLeft, ofRight]
  rfl

end Reentrancy
