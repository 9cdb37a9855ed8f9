import Reentrancy.Proofs.Ssa.CallSites
import Reentrancy.Proofs.Ssa.Current
import Reentrancy.Proofs.Ssa.Provenance

/-! What a name stands for where the source looks it up: the last definition of that name on the
way there. The result of a call is a definition like any other, so a source name that is spelled
like a result is taken for it. -/
namespace Reentrancy

def lastMark (name : String) (marks : List Mark) : Option Mark :=
  (marks.filter fun mark => mark.defined.name == name).getLast?

def marksOf (blocks : List Block) : List Mark := (instructionsOf blocks).flatMap Instruction.marks

/-- How a variable that was looked up stands to the definitions on the way. -/
inductive InForce (calls : Nat) (trail : List Mark) (read : Variable) : Prop where
  | initial (undefined : lastMark read.name trail = none) (zero : read.version = 0)
  | assigned (last : lastMark read.name trail = some ⟨read, false⟩)
  /-- The last definition is the result of one of the calls, and the name is spelled like it. -/
  | called (last : lastMark read.name trail = some ⟨read, true⟩) (call : Nat) (first : 1 ≤ call)
      (counted : call ≤ calls) (spelled : read.name = Versions.resultName call)

section Marks

variable {name : String} {marks : List Mark}

theorem lastMark_append (first second : List Mark) :
    lastMark name (first ++ second) = (lastMark name second).or (lastMark name first) := by
  rw [lastMark, List.filter_append, List.getLast?_append]
  rfl

theorem mem_of_lastMark {mark : Mark} (last : lastMark name marks = some mark) :
    mark ∈ marks ∧ mark.defined.name = name := by
  have listed := List.mem_filter.mp (List.mem_of_getLast? last)
  exact ⟨listed.1, eq_of_beq listed.2⟩

theorem versions_lastMark (name : String) (marks : List Mark) :
    (lastMark name marks).map (·.defined.version) =
      (versionsOf name (marks.map Mark.defined)).getLast? := by
  rw [versionsOf, List.filter_map, List.map_map, List.getLast?_map]
  rfl

theorem marks_defined {instructions : List Instruction}
    (noPhi : ∀ instruction ∈ instructions, instruction.isPhi = false) :
    (instructions.flatMap Instruction.marks).map Mark.defined =
      instructions.flatMap Instruction.defs := by
  rw [List.map_flatMap]
  apply List.flatMap_congr
  intro instruction member
  have plain := noPhi instruction member
  cases instruction with
  | phi => cases plain
  | assign assignment => simp [Instruction.marks, Instruction.defs, Function.comp_def]
  | call | condition | ret | emit | expression | raw => rfl

theorem lastMark_of_range' {count : Nat}
    (counted : versionsOf name (marks.map Mark.defined) = List.range' 1 count) :
    ((lastMark name marks).map Mark.defined).getD ⟨name, 0⟩ = ⟨name, count⟩ := by
  have version := versions_lastMark name marks
  rw [counted, List.getLast?_range'] at version
  cases last : lastMark name marks with
  | none =>
    rw [last] at version
    by_cases empty : count = 0
    · rw [empty]
      rfl
    · rw [if_neg empty] at version
      cases version
  | some mark =>
    rw [last] at version
    by_cases empty : count = 0
    · rw [if_pos empty] at version
      cases version
    · rw [if_neg empty] at version
      have number : mark.defined.version = 1 + count - 1 := Option.some.inj version
      have named : mark.defined.name = name := (mem_of_lastMark last).2
      have whole : mark.defined.version = count := by omega
      rw [← named, ← whole]
      rfl

end Marks

namespace Action

variable (name : String) (versions : Versions)

theorem read_definition (defined : String) (called : Bool) :
    (versions.define defined).2.read name =
      ((lastMark name [⟨(versions.define defined).1, called⟩]).map Mark.defined).getD
        (versions.read name) := by
  rw [Versions.read_define]
  by_cases same : name = defined
  · simp [same, lastMark, Versions.define, Versions.allocate]
  · simp [same, Ne.symm same, lastMark, Versions.define, Versions.allocate]

theorem read_defineAll (names : List String) :
    (Lower.defineAll names versions).versions.read name =
      ((lastMark name ((define names).marks versions)).map Mark.defined).getD
        (versions.read name) := by
  induction names generalizing versions with
  | nil => rfl
  | cons first rest ih =>
    have split : (define (first :: rest)).marks versions =
        [⟨(versions.define first).1, false⟩] ++ (define rest).marks (versions.define first).2 := by
      simp [marks, Lower.defineAll_cons]
    rw [split, lastMark_append, Option.map_or, Option.getD_or, ← read_definition,
      Lower.defineAll_cons]
    exact ih (versions.define first).2

theorem read_apply (action : Action) :
    (action.apply versions).read name =
      ((lastMark name (action.marks versions)).map Mark.defined).getD (versions.read name) := by
  cases action with
  | look => rfl
  | define names => exact read_defineAll name versions names
  | result => exact read_definition name { versions with calls := versions.calls + 1 } _ true

theorem read_applyAll (actions : List Action) :
    (applyAll actions versions).read name =
      ((lastMark name (along marks actions versions)).map Mark.defined).getD
        (versions.read name) := by
  induction actions generalizing versions with
  | nil => rfl
  | cons first rest ih =>
    rw [along, lastMark_append, Option.map_or, Option.getD_or, ← read_apply]
    exact ih (first.apply versions)

end Action

section Blocks

namespace Lower

theorem Step.operands {first second : Stage} {emission : Emission}
    (step : Step first emission second) : first.operands ⊆ second.operands ∧
      emission.instructions.flatMap Instruction.uses ⊆ first.operands := by
  cases step with
  | read name => exact ⟨List.subset_cons_self _ _, by simp⟩
  | plain instruction _ atHand => exact ⟨List.Subset.refl _, by simpa using atHand⟩
  | assign names assignment _ atHand => exact ⟨List.subset_cons_self _ _, by simpa using atHand⟩
  | call operation _ atHand =>
    exact ⟨List.subset_cons_self _ _, by simpa [Instruction.uses] using atHand⟩

theorem Run.operands {first second : Stage} {emission : Emission}
    (run : Run first emission second) : first.operands ⊆ second.operands ∧
      emission.instructions.flatMap Instruction.uses ⊆ second.operands := by
  induction run with
  | nil => exact ⟨List.Subset.refl _, by simp⟩
  | cons step _ ih =>
    obtain ⟨kept, atHand⟩ := step.operands
    refine ⟨fun _ member => ih.1 (kept member), ?_⟩
    intro used member
    rw [Emission.append, List.flatMap_append] at member
    rcases List.mem_append.mp member with here | later
    · exact ih.1 (kept (atHand here))
    · exact ih.2 later

end Lower

/-- The instructions of a block define what the actions define, in their order, and use nothing
else than that and what the actions look up. -/
structure Block.Performs (block : Block) (actions : List Action) (start : Versions) : Prop where
  marks : block.instructions.flatMap Instruction.marks =
    Action.along Action.marks actions start
  uses : ∀ used ∈ block.instructions.flatMap Instruction.uses,
    used ∈ block.instructions.flatMap Instruction.defs ∨
      ∃ front back, actions = front ++ .look used.name :: back ∧
        used = (Action.applyAll front start).read used.name

def Block.actions (block : Block) : List Action := partsActions block.parts

theorem Block.number_performs (block : Block) (scope : Scope) (start : Versions) :
    (block.number scope start).1.Performs block.actions start ∧
      (block.number scope start).2.2 = Action.applyAll block.actions start := by
  obtain ⟨left, _, _, acts⟩ := lowerParts_follows scope [] block.parts start [] (by simp)
  have marks : (block.number scope start).1.instructions.flatMap Instruction.marks =
      Action.along Action.marks block.actions start := acts.marks
  have defs : _ = (block.number scope start).1.instructions.flatMap Instruction.defs :=
    marks_defined (lowerParts_extends scope block.parts start).noPhi
  refine ⟨⟨marks, ?_⟩, acts.versions⟩
  intro used member
  have atHand := acts.operands (acts.run.operands.2 member)
  rw [List.append_nil] at atHand
  refine (Action.mem_along_gets atHand).imp_left fun defined => ?_
  rw [← defs, marks]
  exact defined

theorem mem_resultNames_of_called {instructions : List Instruction} {mark : Mark}
    (member : mark ∈ instructions.flatMap Instruction.marks) (called : mark.called = true) :
    mark.defined.name ∈ resultNames instructions := by
  obtain ⟨instruction, inside, marked⟩ := List.mem_flatMap.mp member
  refine List.mem_filterMap.mpr ⟨instruction, inside, ?_⟩
  cases instruction with
  | assign assignment =>
    obtain ⟨_, _, rfl⟩ := List.mem_map.mp marked
    cases called
  | call operation =>
    obtain rfl := List.mem_singleton.mp marked
    rfl
  | _ => cases marked

end Blocks

section Body

variable (scope : Scope) (statements : List Statement)

theorem test_whole {blocks : List Block} (closed : (graphOf blocks).Closed)
    (laid : Laid (outlinesOf blocks)) {index place : Nat} {arm test : Block}
    (located : blocks[index]? = some arm) (side : arm.side.isSome = true)
    (there : blocks[place]? = some test)
    (leads : (graphOf blocks).Links test.id arm.id) : test.side = none := by
  have distinct := closed.distinct
  obtain ⟨vertex, listed, same, named⟩ := leads
  obtain ⟨position, found⟩ := List.getElem?_of_mem listed
  obtain ⟨_, rfl⟩ := Graph.eq_of_id distinct found (getElem?_graphOf there) same
  by_contra sided
  obtain ⟨target, member, equal, whole⟩ :=
    laid.arm_leads (List.mem_of_getElem? (getElem?_outlinesOf there))
      (Option.isSome_iff_ne_none.mpr sided) named
  obtain ⟨other, outlined⟩ := List.getElem?_of_mem member
  obtain ⟨block, here, rfl⟩ := getElem?_of_outlinesOf outlined
  obtain ⟨rfl, _⟩ :=
    Graph.eq_of_id distinct (getElem?_graphOf here) (getElem?_graphOf located) equal
  obtain rfl := Option.some.inj (here.symm.trans located)
  rw [show block.side = none from whole] at side
  cases side

theorem numberBody_start {index : Nat} {raw : Block}
    (source : (flowBlocks statements).1[index]? = some raw) :
    ∃ start : Versions,
      (numberBody scope statements).blocks[index]? = some (raw.number scope start).1 ∧
      ∀ name, start.current.version name = (versionsOf name (defsOf
        ((numberBody scope statements).blocks.take
          (raw.entry (graphOf (flowBlocks statements).1) index)))).length := by
  obtain ⟨before, level, counts, here, left⟩ :=
    numberBlocks_starts scope (flowBlocks statements).1 source
  refine ⟨_, here, fun name => ?_⟩
  have bound := (List.getElem?_eq_some_iff.mp left).1
  have size : ((numberBody scope statements).exits.take index).length = index :=
    List.length_take_of_le (Nat.le_of_lt bound)
  rcases raw.armEntry?_cases (graphOf (flowBlocks statements).1)
      ((numberBody scope statements).exits.take index) with
    ⟨plain, entry⟩ | ⟨position, table, found, listed, entry⟩
  · rw [size] at entry
    rw [plain, entry, Option.getD_none, level name]
    exact counts name
  · rw [size] at entry
    have side : raw.side.isSome = true := by
      by_contra none
      rw [Block.armEntry?_of_plain (Option.not_isSome_iff_eq_none.mp none)] at found
      cases found
    have closed := numberBody_closed scope statements
    have laid := numberBody_laid scope statements
    obtain ⟨place, test, there, earlier, after, only⟩ := arm_entry closed laid here side
    have same : position = place := by
      rw [graphOf_numberBody] at after
      exact Nat.succ.inj (entry.symm.trans after)
    have whole := test_whole closed laid here side there ((only test.id).mpr rfl)
    rw [same, List.getElem?_take_of_lt earlier] at listed
    rw [found, entry, Option.getD_some, same]
    exact numberBlocks_counts scope _ there whole listed name

theorem mem_marksOf {blocks : List Block} {mark : Mark} : mark ∈ marksOf blocks ↔
    ∃ block ∈ blocks, mark ∈ block.instructions.flatMap Instruction.marks := by
  rw [marksOf, instructionsOf, List.flatMap_assoc, List.mem_flatMap]

theorem numberBody_called {mark : Mark}
    (member : mark ∈ marksOf (numberBody scope statements).blocks) (called : mark.called = true) :
    ∃ call, 1 ≤ call ∧ call ≤ (numberBody scope statements).versions.calls ∧
      mark.defined.name = Versions.resultName call := by
  have reports := numberBlocks_reports scope (flowBlocks statements).1
  have counted : (numberBody scope statements).versions.calls = _ := reports.counted
  have named := mem_resultNames_of_called member called
  rw [numberBody, reports.results] at named
  obtain ⟨call, inside, same⟩ := List.mem_map.mp named
  rw [List.mem_range'_1] at inside
  exact ⟨call, by omega, by omega, same.symm⟩

theorem numberBody_lastMark (name : String) (count : Nat) :
    let front := (numberBody scope statements).blocks.take count
    ((lastMark name (marksOf front)).map Mark.defined).getD ⟨name, 0⟩ =
      ⟨name, (versionsOf name (defsOf front)).length⟩ := by
  intro front
  have noPhi : ∀ instruction ∈ instructionsOf front, instruction.isPhi = false := by
    intro instruction member
    apply (numberBlocks_extends scope {} (flowBlocks statements).1).noPhi
    obtain ⟨block, taken, inside⟩ := List.mem_flatMap.mp member
    exact List.mem_flatMap.mpr ⟨block, List.mem_of_mem_take taken, inside⟩
  apply lastMark_of_range'
  rw [marksOf, marks_defined noPhi]
  exact numberBlocks_take scope (flowBlocks statements).1 name count

/-- Where a block looks a name up it gets the last definition on the way: in the blocks that it
comes after, or in what the block did before. It may be the result of a call, but only of a call
whose result is spelled like the name. -/
theorem numberBody_lookups {index : Nat} {raw block : Block}
    (source : (flowBlocks statements).1[index]? = some raw)
    (located : (numberBody scope statements).blocks[index]? = some block) :
    ∃ start : Versions, block = (raw.number scope start).1 ∧ block.Performs raw.actions start ∧
      ∀ front name back, raw.actions = front ++ .look name :: back →
        InForce (numberBody scope statements).versions.calls
          (marksOf ((numberBody scope statements).blocks.take
              (block.entry (graphOf (numberBody scope statements).blocks) index)) ++
            Action.along Action.marks front start)
          ((Action.applyAll front start).read name) := by
  obtain ⟨start, here, current⟩ := numberBody_start scope statements source
  obtain rfl := Option.some.inj (located.symm.trans here)
  have performs := (raw.number_performs scope start).1
  refine ⟨start, rfl, performs, fun front name back split => ?_⟩
  let entry := (raw.number scope start).1.entry (graphOf (numberBody scope statements).blocks) index
  let earlier := marksOf ((numberBody scope statements).blocks.take entry)
  let own := Action.along Action.marks front start
  have entered : entry = raw.entry (graphOf (flowBlocks statements).1) index := by
    unfold entry
    rw [graphOf_numberBody]
    rfl
  have started : start.read name = ((lastMark name earlier).map Mark.defined).getD ⟨name, 0⟩ := by
    rw [numberBody_lastMark, entered, ← current]
    rfl
  have read : (Action.applyAll front start).read name =
      ((lastMark name (earlier ++ own)).map Mark.defined).getD ⟨name, 0⟩ := by
    rw [Action.read_applyAll, started, lastMark_append, Option.map_or, Option.getD_or]
  have inside {mark : Mark} (member : mark ∈ earlier ++ own) :
      mark ∈ marksOf (numberBody scope statements).blocks := by
    rcases List.mem_append.mp member with before | within
    · obtain ⟨block, taken, found⟩ := mem_marksOf.mp before
      exact mem_marksOf.mpr ⟨block, List.mem_of_mem_take taken, found⟩
    · refine mem_marksOf.mpr ⟨_, List.mem_of_getElem? located, ?_⟩
      rw [performs.marks, split, Action.along_append]
      exact List.mem_append_left _ within
  cases last : lastMark name (earlier ++ own) with
  | none =>
    rw [last] at read
    exact .initial last (congrArg Variable.version read)
  | some mark =>
    rw [last, Option.map_some, Option.getD_some] at read
    obtain ⟨defined, called⟩ := mark
    obtain rfl : (Action.applyAll front start).read name = defined := read
    cases called with
    | false => exact .assigned last
    | true =>
      obtain ⟨call, first, counted, spelled⟩ :=
        numberBody_called scope statements (inside (mem_of_lastMark last).1) rfl
      exact .called last call first counted spelled

end Body

open Snippet in
/-- In `f(); x = ret1;` the second statement starts with the result of the call as `ret1`. -/
theorem result_name_in_force :
    let statements := [calls "f" [], sets (named "x") (named "ret1")]
    let numbered := numberBody {} statements
    ∃ (raw block : Block) (start : Versions), (flowBlocks statements).1[1]? = some raw ∧
      numbered.blocks[1]? = some block ∧ raw.actions = [.look "ret1", .define ["x"]] ∧
      block.Performs raw.actions start ∧ start.read "ret1" = ⟨"ret1", 1⟩ ∧
      InForce numbered.versions.calls [⟨⟨"ret1", 1⟩, true⟩] (start.read "ret1") := by
  intro statements numbered
  obtain ⟨raw, source⟩ : ∃ raw, (flowBlocks statements).1[1]? = some raw :=
    Option.isSome_iff_exists.mp (by decide +kernel)
  obtain ⟨block, located⟩ : ∃ block, numbered.blocks[1]? = some block :=
    Option.isSome_iff_exists.mp (by decide +kernel)
  have acts : raw.actions = [.look "ret1", .define ["x"]] := by
    have told : (flowBlocks statements).1[1]?.map Block.actions =
        some [.look "ret1", .define ["x"]] := by decide +kernel
    rw [source] at told
    exact Option.some.inj told
  have entry : block.entry (graphOf numbered.blocks) 1 = 1 := by
    have told : numbered.blocks[1]?.map (fun block => block.entry (graphOf numbered.blocks) 1) =
        some 1 := by decide +kernel
    rw [located] at told
    exact Option.some.inj told
  have trail : marksOf (numbered.blocks.take 1) = [⟨⟨"ret1", 1⟩, true⟩] := by decide +kernel
  obtain ⟨start, _, performs, lookups⟩ := numberBody_lookups {} statements source located
  have force : InForce numbered.versions.calls [⟨⟨"ret1", 1⟩, true⟩] (start.read "ret1") := by
    have looked := lookups [] "ret1" [.define ["x"]] acts
    rwa [entry, trail] at looked
  refine ⟨raw, block, start, source, located, acts, performs, ?_, force⟩
  have last : lastMark "ret1" [⟨⟨"ret1", 1⟩, true⟩] = some ⟨⟨"ret1", 1⟩, true⟩ := by decide +kernel
  cases force with
  | initial undefined => cases undefined.symm.trans last
  | assigned kept => exact congrArg Mark.defined (Option.some.inj (kept.symm.trans last))
  | called kept => exact congrArg Mark.defined (Option.some.inj (kept.symm.trans last))

open Snippet in
/-- In `f(); x = ret1;` the call defines `ret1_1` and the assignment to `x` reads it. -/
theorem result_of_call_captured :
    let statements := [calls "f" [], sets (named "x") (named "ret1")]
    (flowBlocks statements).1.map Block.actions =
        [[.result], [.look "ret1", .define ["x"]]] ∧
      (numberBody {} statements).blocks.map (fun block =>
          block.instructions.map fun instruction => (instruction.marks, instruction.uses)) =
        [[([⟨⟨"ret1", 1⟩, true⟩], [])], [([⟨⟨"x", 1⟩, false⟩], [⟨"ret1", 1⟩])]] := by
  decide +kernel

end Reentrancy
