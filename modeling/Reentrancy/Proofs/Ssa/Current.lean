import Reentrancy.Proofs.Ssa.Definedness

/-! The version that is current at a place. Versions are given out one by one, so outside the arms
of branches the current version of a name is the number of its definitions so far, and the last
definition on the way is the one that a read sees. -/
namespace Reentrancy

namespace Versions

def Level (versions : Versions) : Prop :=
  ∀ name, versions.current.version name = versions.counter.version name

/-- Over code that defines the names `defined` these come up to their counters, and all others
stay. -/
structure Settles (before : Versions) (defined : List String) (after : Versions) : Prop where
  level : ∀ name ∈ defined, after.current.version name = after.counter.version name
  kept : ∀ name, name ∉ defined → after.current.version name = before.current.version name ∧
    after.counter.version name = before.counter.version name

namespace Settles

theorem refl (versions : Versions) : Settles versions [] versions :=
  ⟨by simp, fun _ _ => ⟨rfl, rfl⟩⟩

theorem trans {before middle after : Versions} {first second : List String}
    (left : Settles before first middle) (right : Settles middle second after) :
    Settles before (first ++ second) after := by
  refine ⟨fun name member => ?_, fun name absent => ?_⟩
  · by_cases again : name ∈ second
    · exact right.level name again
    · have early := (List.mem_append.mp member).resolve_right again
      rw [(right.kept name again).1, (right.kept name again).2]
      exact left.level name early
  · rw [List.mem_append, not_or] at absent
    rw [(right.kept name absent.2).1, (right.kept name absent.2).2]
    exact left.kept name absent.1

theorem define (versions : Versions) (name : String) :
    Settles versions [name] (versions.define name).2 := by
  refine ⟨fun other member => ?_, fun other absent => ?_⟩
  · obtain rfl := List.mem_singleton.mp member
    simp
  · have apart : other ≠ name := by simpa using absent
    simp [apart]

theorem all_level {before after : Versions} {defined : List String}
    (settles : Settles before defined after) (level : before.Level) : after.Level := by
  intro name
  by_cases member : name ∈ defined
  · exact settles.level name member
  · rw [(settles.kept name member).1, (settles.kept name member).2]
    exact level name

end Settles
end Versions

namespace Lower

open Versions

theorem defineAll_settles (names : List String) (versions : Versions) :
    versions.Settles names (defineAll names versions).versions := by
  induction names generalizing versions with
  | nil => exact .refl versions
  | cons name rest ih =>
    rw [defineAll_cons]
    exact (Settles.define versions name).trans (ih (versions.define name).2)

theorem Step.settles {first second : Stage} {emission : Emission}
    (step : Step first emission second) :
    first.versions.Settles emission.defined second.versions := by
  cases step with
  | read name => exact .refl _
  | plain instruction => exact .refl _
  | assign names assignment => exact defineAll_settles names first.versions
  | call operation defined =>
    rw [defined]
    have counted : first.versions.Settles [] { first.versions with
        calls := first.versions.calls + 1 } := ⟨by simp, fun _ _ => ⟨rfl, rfl⟩⟩
    exact counted.trans (Settles.define _ _)

theorem Run.settles {first second : Stage} {emission : Emission}
    (run : Run first emission second) :
    first.versions.Settles emission.defined second.versions := by
  induction run with
  | nil => exact .refl _
  | cons step _ ih => exact step.settles.trans ih

end Lower

theorem lowerParts_settles (scope : Scope) (parts : List (Statement × Bool))
    (versions : Versions) :
    versions.Settles (lowerParts scope parts versions).emission.defined
      (lowerParts scope parts versions).versions := by
  obtain ⟨_, _, _, run⟩ := lowerParts_runs scope [] parts versions [] (by simp)
  exact run.settles

section Counting

theorem defsOf_singleton (block : Block) :
    defsOf [block] = block.instructions.flatMap Instruction.defs := by
  rw [defsOf_cons]
  exact List.append_nil _

theorem Continues.version {before after : Table Nat} {defined : List Variable}
    (continues : Continues before defined after) (name : String) :
    after.version name = before.version name + (versionsOf name defined).length := by
  obtain ⟨count, reached, versions⟩ := continues name
  rw [reached, versions, List.length_range']

theorem append_eq_range' {first second : List Nat} {start count : Nat}
    (whole : first ++ second = List.range' start count) :
    first = List.range' start first.length := by
  obtain ⟨size, _, same, _⟩ := List.range'_eq_append_iff.mp whole.symm
  rw [same, List.length_range']

theorem getLast?_of_append {first second : List Nat} {count : Nat}
    (whole : first ++ second = List.range' 1 count) (filled : second ≠ []) :
    second.getLast? = some count := by
  have positive : count ≠ 0 := by
    rintro rfl
    exact filled (List.append_eq_nil_iff.mp whole).2
  rw [← List.getLast?_append_of_ne_nil first filled, whole, List.getLast?_range', if_neg positive]
  congr 1
  omega

end Counting

/-- A walk between two blocks: the current versions are the highest ones, and no block has left
a higher one. -/
structure Versions.Paces (versions : Versions) (exits : List (Table Nat)) : Prop where
  level : versions.Level
  below : ∀ exit ∈ exits, ∀ name, exit.version name ≤ versions.counter.version name

theorem Block.number_paces (graph : Graph) (scope : Scope) {exits : List (Table Nat)}
    {versions : Versions} (paces : versions.Paces exits) (block : Block) :
    let entry := block.armEntry? graph exits
    let after := (block.number scope { versions with current := entry.getD versions.current }).2.2
    Versions.Paces (if entry.isSome then after.resume versions.current else after)
      (exits ++ [after.current]) := by
  intro entry after
  let start : Versions := { versions with current := entry.getD versions.current }
  have settles : start.Settles _ after := lowerParts_settles scope block.parts start
  have advances : start.Advances _ after := lowerParts_advances scope block.parts start
  have started (name : String) : start.current.version name ≤ versions.current.version name := by
    rw [paces.level name]
    cases found : entry with
    | none => simp [start, found, paces.level name]
    | some table => simpa [start, found] using paces.below table (armEntry?_mem found) name
  constructor
  · split
    next =>
      intro name
      have grown := advances.counter name
      rw [Versions.current_resume]
      change _ = after.counter.version name
      by_cases member : name ∈ (lowerParts scope block.parts start).emission.defined
      · rw [settles.level name member, paces.level name]
        exact Nat.max_eq_left grown
      · obtain ⟨current, counter⟩ := settles.kept name member
        rw [current, counter, Nat.max_eq_right (started name)]
        exact paces.level name
    next plain =>
      have none : entry = none := by simpa using plain
      refine settles.all_level ?_
      intro name
      simpa [start, none] using paces.level name
  · have kept := (resumed_counts entry versions.current after).1
    have ended : after.Bounded := advances.bounded fun name => by
      have low := started name
      rw [paces.level name] at low
      exact low
    intro exit member name
    rw [kept]
    rcases List.mem_append.mp member with old | new
    · exact Nat.le_trans (paces.below exit old name) (advances.counter name)
    · obtain rfl := List.mem_singleton.mp new
      exact ended name

/-- The versions from which a walk numbers a block: as many of a name as were defined before it,
and in an arm those current at the end of its test. -/
theorem numberFrom_starts (graph : Graph) (scope : Scope) (exits : List (Table Nat))
    {versions : Versions} (paces : versions.Paces exits) (blocks : List Block) :
    let numbered := numberFrom graph scope exits versions blocks
    ∀ (index : Nat) (block : Block), blocks[index]? = some block → ∃ before : Versions,
      before.Level ∧
      (∀ name, before.counter.version name = versions.counter.version name +
        (versionsOf name (defsOf (numbered.blocks.take index))).length) ∧
      let start := { before with current :=
        (block.armEntry? graph (exits ++ numbered.exits.take index)).getD before.current }
      numbered.blocks[index]? = some (block.number scope start).1 ∧
        numbered.exits[index]? = some (block.number scope start).2.2.current := by
  induction blocks generalizing exits versions with
  | nil =>
    intro _ index block located
    cases located
  | cons first rest ih =>
    let entry := first.armEntry? graph exits
    let start : Versions := { versions with current := entry.getD versions.current }
    let after := (first.number scope start).2.2
    let resumed := if entry.isSome then after.resume versions.current else after
    have paced : resumed.Paces (exits ++ [after.current]) :=
      Block.number_paces graph scope paces first
    have later := ih (exits ++ [after.current]) paced
    have counted (name : String) : resumed.counter.version name =
        versions.counter.version name +
          (versionsOf name (defsOf [(first.number scope start).1])).length := by
      have continues := (lowerParts_extends scope first.parts start).counted
      have kept : resumed.counter = after.counter :=
        (resumed_counts entry versions.current after).1
      rw [kept, defsOf_singleton]
      exact continues.version name
    intro numbered index block located
    cases index with
    | zero =>
      obtain rfl : first = block := Option.some.inj located
      refine ⟨versions, paces.level, fun name => rfl, ?_⟩
      rw [List.take_zero, List.append_nil]
      exact ⟨rfl, rfl⟩
    | succ index =>
      obtain ⟨before, level, reached, here, left⟩ := later index block located
      have split : numbered.blocks.take (index + 1) = [(first.number scope start).1] ++
          (numberFrom graph scope (exits ++ [after.current]) resumed rest).blocks.take index := rfl
      refine ⟨before, level, fun name => ?_, ?_⟩
      · rw [reached name, counted, split, defsOf_append, versionsOf_append, List.length_append]
        omega
      · rw [List.append_assoc] at here left
        exact ⟨here, left⟩

section Exits

variable (scope : Scope) (blocks : List Block)

theorem numberBlocks_starts {index : Nat} {raw : Block} (located : blocks[index]? = some raw) :
    ∃ before : Versions, before.Level ∧
      (∀ name, before.counter.version name = (versionsOf name
        (defsOf ((numberBlocks scope {} blocks).blocks.take index))).length) ∧
      let start := { before with current := (raw.armEntry? (graphOf blocks)
        ((numberBlocks scope {} blocks).exits.take index)).getD before.current }
      (numberBlocks scope {} blocks).blocks[index]? = some (raw.number scope start).1 ∧
        (numberBlocks scope {} blocks).exits[index]? =
          some (raw.number scope start).2.2.current := by
  let names := blocks.flatMap fun block => block.accesses.names
  have zero (name : String) : (names.foldl Versions.seed {}).counter.version name = 0 :=
    (seed_counts names {}).1 name
  have level : (names.foldl Versions.seed {}).Level := by
    intro name
    rw [current_seed, zero]
    rfl
  obtain ⟨before, levelled, counts, numbered⟩ :=
    numberFrom_starts (graphOf blocks) scope [] ⟨level, by simp⟩ blocks index raw located
  refine ⟨before, levelled, fun name => ?_, numbered⟩
  rw [counts, zero, Nat.zero_add]
  rfl

theorem numberBlocks_counts {index : Nat} {block : Block} {exit : Table Nat}
    (located : (numberBlocks scope {} blocks).blocks[index]? = some block)
    (plain : block.side = none) (left : (numberBlocks scope {} blocks).exits[index]? = some exit)
    (name : String) :
    exit.version name = (versionsOf name
      (defsOf ((numberBlocks scope {} blocks).blocks.take (index + 1)))).length := by
  have outlines : outlinesOf (numberBlocks scope {} blocks).blocks = outlinesOf blocks :=
    outlinesOf_numberFrom ..
  have outlined := getElem?_outlinesOf located
  rw [outlines] at outlined
  obtain ⟨raw, found, _⟩ := getElem?_of_outlinesOf outlined
  obtain ⟨before, level, counts, here, ended⟩ := numberBlocks_starts scope blocks found
  obtain rfl := Option.some.inj (located.symm.trans here)
  obtain rfl := Option.some.inj (left.symm.trans ended)
  have whole : raw.side = none := plain
  rw [Block.armEntry?_of_plain whole, Option.getD_none] at here ⊢
  have settles := lowerParts_settles scope raw.parts before
  have continues := (lowerParts_extends scope raw.parts before).counted
  have taken : (numberBlocks scope {} blocks).blocks.take (index + 1) =
      (numberBlocks scope {} blocks).blocks.take index ++ [(raw.number scope before).1] := by
    rw [List.take_add_one, here]
    rfl
  calc (lowerParts scope raw.parts before).versions.current.version name
    _ = (lowerParts scope raw.parts before).versions.counter.version name :=
      settles.all_level level name
    _ = before.counter.version name + (versionsOf name
          ((raw.number scope before).1.instructions.flatMap Instruction.defs)).length :=
      continues.version name
    _ = _ := by
      rw [counts, taken, defsOf_append, versionsOf_append, List.length_append, defsOf_singleton]

theorem numberBlocks_range' (name : String) :
    ∃ count, versionsOf name (defsOf (numberBlocks scope {} blocks).blocks) =
      List.range' 1 count := by
  obtain ⟨count, _, versions⟩ := (numberBlocks_extends scope {} blocks).counted name
  exact ⟨count, versions⟩

theorem numberBlocks_take (name : String) (count : Nat) :
    let defined := versionsOf name (defsOf ((numberBlocks scope {} blocks).blocks.take count))
    defined = List.range' 1 defined.length := by
  obtain ⟨size, whole⟩ := numberBlocks_range' scope blocks name
  rw [← List.take_append_drop count (numberBlocks scope {} blocks).blocks, defsOf_append,
    versionsOf_append] at whole
  exact append_eq_range' whole

variable {scope blocks}

/-- The last definition in a stretch of blocks is current at its end, if it ends in no arm. -/
theorem numberBlocks_last (first : Nat) {last : Nat} {block : Block} {exit : Table Nat}
    (located : (numberBlocks scope {} blocks).blocks[last]? = some block)
    (plain : block.side = none) (left : (numberBlocks scope {} blocks).exits[last]? = some exit)
    {name : String} (defined : name ∈ (defsOf (((numberBlocks scope {} blocks).blocks.take
      (last + 1)).drop first)).map Variable.name) :
    (versionsOf name (defsOf (((numberBlocks scope {} blocks).blocks.take (last + 1)).drop
      first))).getLast? = some (exit.version name) := by
  have whole := numberBlocks_take scope blocks name (last + 1)
  dsimp only at whole
  rw [← numberBlocks_counts scope blocks located plain left name,
    ← List.take_append_drop first ((numberBlocks scope {} blocks).blocks.take (last + 1)),
    defsOf_append, versionsOf_append] at whole
  apply getLast?_of_append whole
  obtain ⟨member, inside, rfl⟩ := List.mem_map.mp defined
  exact List.ne_nil_of_mem (mem_versionsOf inside)

end Exits

theorem numberBlocks_once (scope : Scope) (blocks : List Block) :
    (defsOf (numberBlocks scope {} blocks).blocks).Nodup :=
  (numberBlocks_extends scope {} blocks).counted.nodup

theorem numberBlocks_positive {scope : Scope} {blocks : List Block} {defined : Variable}
    (member : defined ∈ defsOf (numberBlocks scope {} blocks).blocks) :
    1 ≤ defined.version ∧ defined.version ≤
      (numberBlocks scope {} blocks).versions.counter.version defined.name := by
  obtain ⟨count, reached, versions⟩ :=
    (numberBlocks_extends scope {} blocks).counted defined.name
  have listed := mem_versionsOf member
  have whole : versionsOf defined.name (defsOf (numberBlocks scope {} blocks).blocks) =
      List.range' 1 count := versions
  rw [whole, List.mem_range'_1] at listed
  have zero : (({} : Versions).counter).version defined.name = 0 := rfl
  rw [zero] at reached
  omega

abbrev numberBody (scope : Scope) (statements : List Statement) : Numbered :=
  numberBlocks scope {} (flowBlocks statements).1

section Flow

variable (scope : Scope) (statements : List Statement)

theorem graphOf_numberBody :
    graphOf (numberBody scope statements).blocks = graphOf (flowBlocks statements).1 :=
  graphOf_numberFrom ..

theorem numberBody_closed : (graphOf (numberBody scope statements).blocks).Closed := by
  rw [graphOf_numberBody]
  exact ⟨(flowBlocks_numbered statements).distinct, flowBlocks_decided statements,
    (flowBlocks_numbered statements).inside⟩

theorem numberBody_laid : Laid (outlinesOf (numberBody scope statements).blocks) := by
  have outlines : outlinesOf (numberBody scope statements).blocks =
      outlinesOf (flowBlocks statements).1 := outlinesOf_numberFrom ..
  rw [outlines]
  exact flowBlocks_laid statements

theorem numberBody_apart : (graphOf (numberBody scope statements).blocks).LoopsApart
    ((numberBody scope statements).blocks.map (·.side)) := by
  have sides : (numberBody scope statements).blocks.map (·.side) =
      (flowBlocks statements).1.map (·.side) := sides_numberFrom ..
  rw [graphOf_numberBody, sides]
  exact flowBlocks_loopsApart statements

end Flow
end Reentrancy
