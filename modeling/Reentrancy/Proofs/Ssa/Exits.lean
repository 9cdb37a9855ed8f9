import Reentrancy.Proofs.Ssa.Numbering
import Reentrancy.Proofs.Table
import Reentrancy.Ssa.Phi

/-! The versions at the end of each block. A block records for every name that it writes the
version current at its end. Where blocks follow one another without a branch, versions only grow
and a name that a block does not write keeps its version, so the latest write of a loop is what
is current at the end of the loop. -/
namespace Reentrancy

namespace Versions

@[simp] theorem name_define (versions : Versions) (name : String) :
    (versions.define name).1.name = name := rfl

@[simp] theorem version_define (versions : Versions) (name : String) :
    (versions.define name).1.version = versions.counter.version name + 1 := rfl

@[simp] theorem current_define (versions : Versions) (name other : String) :
    (versions.define name).2.current.version other =
      if other = name then versions.counter.version name + 1
      else versions.current.version other :=
  Table.version_insert versions.current name other _

@[simp] theorem counter_define (versions : Versions) (name other : String) :
    (versions.define name).2.counter.version other =
      if other = name then versions.counter.version name + 1
      else versions.counter.version other :=
  Table.version_insert versions.counter name other _

theorem read_define (versions : Versions) (name other : String) :
    (versions.define name).2.read other =
      if other = name then (versions.define name).1 else versions.read other := by
  unfold read
  rw [current_define]
  split
  next same => exact same ▸ rfl
  next => rfl

theorem current_resume (versions : Versions) (earlier : Table Nat) (name : String) :
    (versions.resume earlier).current.version name =
      max (versions.current.version name) (earlier.version name) := by
  let later (current : Table Nat) (entry : String × Nat) : Table Nat :=
    if current.version entry.1 < entry.2 then current.insert entry.1 entry.2 else current
  let change (old : Option Nat) (version : Nat) : Option Nat :=
    if old.getD 0 < version then some version else old
  have steps (current : Table Nat) (entry : String × Nat) (name : String) :
      (later current entry).get? name =
        if name = entry.1 then change (current.get? name) entry.2 else current.get? name := by
    unfold later change Table.version
    by_cases same : name = entry.1
    · subst same
      split <;> simp
    · split <;> simp [same]
  have walked : (versions.resume earlier).current.get? name =
      (earlier.get? name).elim (versions.current.get? name)
        (change (versions.current.get? name)) :=
    Table.get?_foldl_entries steps earlier versions.current name
  unfold Table.version
  rw [walked]
  cases earlier.get? name with
  | none => simp
  | some version =>
    dsimp only [Option.elim_some, change]
    split
    next below => simp [Nat.max_eq_right (Nat.le_of_lt below)]
    next above => simp [Nat.max_eq_left (Nat.le_of_not_lt above)]

def Bounded (versions : Versions) : Prop :=
  ∀ name, versions.current.version name ≤ versions.counter.version name

structure Advances (before : Versions) (defined : List String) (after : Versions) : Prop where
  bounded : before.Bounded → after.Bounded
  counter : ∀ name, before.counter.version name ≤ after.counter.version name
  grows : before.Bounded → ∀ name, before.current.version name ≤ after.current.version name
  kept : ∀ name, name ∉ defined → after.current.version name = before.current.version name

namespace Advances

theorem refl (versions : Versions) : Advances versions [] versions :=
  ⟨id, fun _ => Nat.le_refl _, fun _ _ => Nat.le_refl _, fun _ _ => rfl⟩

theorem trans {before middle after : Versions} {first second : List String}
    (left : Advances before first middle) (right : Advances middle second after) :
    Advances before (first ++ second) after where
  bounded start := right.bounded (left.bounded start)
  counter name := Nat.le_trans (left.counter name) (right.counter name)
  grows start name := Nat.le_trans (left.grows start name) (right.grows (left.bounded start) name)
  kept name apart := by
    rw [List.mem_append, not_or] at apart
    rw [right.kept name apart.2, left.kept name apart.1]

theorem define (versions : Versions) (name : String) :
    Advances versions [name] (versions.define name).2 where
  bounded start other := by
    have below := start other
    rw [current_define, counter_define]
    split
    · exact Nat.le_refl _
    · exact below
  counter other := by
    rw [counter_define]
    split
    next same =>
      rw [same]
      exact Nat.le_succ _
    next => exact Nat.le_refl _
  grows start other := by
    rw [current_define]
    split
    next same =>
      rw [same]
      exact Nat.le_succ_of_le (start name)
    next => exact Nat.le_refl _
  kept other apart := by
    rw [current_define, if_neg (by simpa using apart)]

end Advances

/-- Over code with these definitions every name comes to stand at its last one, or stays where it
stood. -/
def Latest (before : Versions) (defined : List Variable) (after : Versions) : Prop :=
  ∀ name, ⟨name, after.current.version name⟩ ∈ defined ∨
    name ∉ defined.map Variable.name ∧ after.current.version name = before.current.version name

/-- Over code with these definitions the table comes to give every name its last one, and for a name
without one it stays as it was. -/
def Lands (before : Versions) (defined : List Variable) (after : Versions) : Prop :=
  ∀ name, after.current.get? name =
    (versionsOf name defined).getLast?.or (before.current.get? name)

namespace Lands

theorem refl (versions : Versions) : Lands versions [] versions := fun _ => rfl

theorem trans {before middle after : Versions} {first second : List Variable}
    (left : Lands before first middle) (right : Lands middle second after) :
    Lands before (first ++ second) after := by
  intro name
  rw [right name, left name, versionsOf_append, List.getLast?_append, Option.or_assoc]

theorem define (versions : Versions) (name : String) :
    Lands versions [(versions.define name).1] (versions.define name).2 := by
  intro other
  have entered : (versions.define name).2.current.get? other =
      if other = name then some (versions.define name).1.version
      else versions.current.get? other := Table.get?_insert ..
  rw [entered]
  by_cases same : other = name
  · simp [versionsOf, same]
  · simp [versionsOf, same, Ne.symm same]

variable {before after : Versions} {defined : List Variable} (lands : Lands before defined after)
  {name : String}

include lands

theorem last_eq (member : name ∈ defined.map Variable.name) :
    (versionsOf name defined).getLast? = some (after.current.version name) := by
  obtain ⟨definition, inside, rfl⟩ := List.mem_map.mp member
  have filled := List.ne_nil_of_mem (mem_versionsOf inside)
  have found := lands definition.name
  rw [List.getLast?_eq_some_getLast filled, Option.some_or] at found
  rw [List.getLast?_eq_some_getLast filled, Table.version, found]
  rfl

theorem kept (absent : name ∉ defined.map Variable.name) :
    after.current.get? name = before.current.get? name := by
  rw [lands name, versionsOf_eq_nil absent]
  rfl

theorem latest : Latest before defined after := by
  intro name
  by_cases member : name ∈ defined.map Variable.name
  · exact .inl (mem_of_versionsOf (List.mem_of_getLast? (lands.last_eq member)))
  · refine .inr ⟨member, ?_⟩
    rw [Table.version, lands.kept member]
    rfl

end Lands

theorem Latest.define (versions : Versions) (name : String) :
    Latest versions [(versions.define name).1] (versions.define name).2 :=
  (Lands.define versions name).latest

end Versions

namespace Lower

open Versions

theorem defineAll_advances (names : List String) (versions : Versions) :
    versions.Advances names (defineAll names versions).versions := by
  induction names generalizing versions with
  | nil => exact .refl versions
  | cons name rest ih =>
    rw [defineAll_cons]
    exact (Advances.define versions name).trans (ih (versions.define name).2)

theorem defineAll_lands (names : List String) (versions : Versions) :
    versions.Lands (defineAll names versions).value (defineAll names versions).versions := by
  induction names generalizing versions with
  | nil => exact .refl versions
  | cons name rest ih =>
    rw [defineAll_cons]
    exact (Lands.define versions name).trans (ih (versions.define name).2)

theorem defineAll_names (names : List String) (versions : Versions) :
    (defineAll names versions).value.map Variable.name = names := by
  induction names generalizing versions with
  | nil => rfl
  | cons name rest ih =>
    rw [defineAll_cons]
    exact congrArg (name :: ·) (ih (versions.define name).2)

theorem Step.advances {first second : Stage} {emission : Emission}
    (step : Step first emission second) :
    first.versions.Advances emission.defined second.versions := by
  cases step with
  | read name => exact .refl _
  | plain instruction => exact .refl _
  | assign names assignment => exact defineAll_advances names first.versions
  | call operation defined =>
    rw [defined]
    have counted : first.versions.Advances [] { first.versions with
        calls := first.versions.calls + 1 } :=
      ⟨id, fun _ => Nat.le_refl _, fun _ _ => Nat.le_refl _, fun _ _ => rfl⟩
    exact counted.trans (Advances.define _ _)

theorem Run.advances {first second : Stage} {emission : Emission}
    (run : Run first emission second) :
    first.versions.Advances emission.defined second.versions := by
  induction run with
  | nil => exact .refl _
  | cons step _ ih => exact step.advances.trans ih

theorem Step.lands {first second : Stage} {emission : Emission}
    (step : Step first emission second) :
    emission.defined = (emission.instructions.flatMap Instruction.defs).map Variable.name ∧
      first.versions.Lands (emission.instructions.flatMap Instruction.defs) second.versions := by
  cases step with
  | read name => exact ⟨rfl, .refl _⟩
  | plain instruction definesNothing _ => simpa [definesNothing] using Lands.refl first.versions
  | assign names assignment defined _ =>
    simp only [List.flatMap_singleton, Instruction.defs, defined]
    exact ⟨(defineAll_names names first.versions).symm, defineAll_lands names first.versions⟩
  | call operation defined _ =>
    refine ⟨rfl, ?_⟩
    simp only [List.flatMap_singleton, Instruction.defs, defined]
    exact Lands.define { first.versions with calls := first.versions.calls + 1 } _

theorem Run.lands {first second : Stage} {emission : Emission} (run : Run first emission second) :
    emission.defined = (emission.instructions.flatMap Instruction.defs).map Variable.name ∧
      first.versions.Lands (emission.instructions.flatMap Instruction.defs) second.versions := by
  induction run with
  | nil => exact ⟨rfl, .refl _⟩
  | cons step _ ih =>
    obtain ⟨hereNames, here⟩ := step.lands
    obtain ⟨laterNames, later⟩ := ih
    simp only [Emission.append, List.flatMap_append, List.map_append]
    exact ⟨by rw [hereNames, laterNames], here.trans later⟩

theorem Run.latest {first second : Stage} {emission : Emission} (run : Run first emission second) :
    emission.defined = (emission.instructions.flatMap Instruction.defs).map Variable.name ∧
      first.versions.Latest (emission.instructions.flatMap Instruction.defs) second.versions :=
  ⟨run.lands.1, run.lands.2.latest⟩

end Lower

theorem lowerParts_advances (scope : Scope) (parts : List (Statement × Bool))
    (versions : Versions) :
    versions.Advances (lowerParts scope parts versions).emission.defined
      (lowerParts scope parts versions).versions := by
  obtain ⟨_, _, _, run⟩ := lowerParts_runs scope [] parts versions [] (by simp)
  exact run.advances

/-- What a walk over blocks leaves behind: the blocks with what they write, and the versions at
the end of each; `start` are the versions before the first. -/
inductive Recorded : Table Nat → List Block → List (Table Nat) → Prop where
  | nil (start : Table Nat) : Recorded start [] []
  | cons {start after next : Table Nat} {block : Block} {rest : List Block}
      {exits : List (Table Nat)}
      (written : ∀ name version, block.versions.writes.get? name = some version →
        version = after.version name)
      (grows : block.side = none → ∀ name, start.version name ≤ after.version name)
      (kept : block.side = none → ∀ name, block.versions.writes.get? name = none →
        after.version name = start.version name)
      (goes : block.side = none → next = after) (later : Recorded next rest exits) :
      Recorded start (block :: rest) (after :: exits)

namespace Recorded

variable {start : Table Nat} {blocks : List Block} {exits : List (Table Nat)}

theorem written_at (recorded : Recorded start blocks exits) {index : Nat} {block : Block}
    (located : blocks[index]? = some block) :
    ∃ exit, exits[index]? = some exit ∧
      ∀ name version, block.versions.writes.get? name = some version →
        version = exit.version name := by
  induction recorded generalizing index with
  | nil => simp at located
  | @cons _ after _ _ _ _ written _ _ _ _ ih =>
    cases index with
    | zero =>
      obtain rfl := Option.some.inj located
      exact ⟨after, rfl, written⟩
    | succ index => exact ih located

theorem drop (recorded : Recorded start blocks exits) (count : Nat) :
    ∃ entry, Recorded entry (blocks.drop count) (exits.drop count) := by
  induction recorded generalizing count with
  | nil start => exact ⟨start, by simpa using Recorded.nil start⟩
  | @cons start _ _ _ _ _ written grows kept goes later ih =>
    cases count with
    | zero => exact ⟨start, .cons written grows kept goes later⟩
    | succ count => exact ih count

end Recorded

def mergeWrites (latest : Table Nat) (block : Block) : Table Nat :=
  block.versions.writes.entries.foldl (fun latest entry =>
    latest.insert entry.1 (max (latest.version entry.1) entry.2)) latest

theorem latestWrites_eq_foldl (blocks : List Block) :
    latestWrites blocks = blocks.foldl mergeWrites Table.empty := by
  rw [latestWrites, List.foldl_flatMap]
  rfl

theorem get?_mergeWrites (latest : Table Nat) (block : Block) (name : String) :
    (mergeWrites latest block).get? name =
      (block.versions.writes.get? name).elim (latest.get? name) fun version =>
        some (max (latest.version name) version) := by
  let change (old : Option Nat) (version : Nat) : Option Nat := some (max (old.getD 0) version)
  have steps (latest : Table Nat) (entry : String × Nat) (name : String) :
      (latest.insert entry.1 (max (latest.version entry.1) entry.2)).get? name =
        if name = entry.1 then change (latest.get? name) entry.2 else latest.get? name := by
    rw [Table.get?_insert]
    by_cases same : name = entry.1
    · rw [if_pos same, if_pos same, same]
      rfl
    · rw [if_neg same, if_neg same]
  exact Table.get?_foldl_entries steps block.versions.writes latest name

namespace Recorded

variable {start : Table Nat} {blocks : List Block} {exits : List (Table Nat)}

/-- Over blocks that are no arms, a name is current at the end in its latest version. -/
theorem latest (recorded : Recorded start blocks exits) {count : Nat} {exit : Table Nat}
    (plain : ∀ block ∈ blocks.take (count + 1), block.side = none)
    (located : exits[count]? = some exit) {name : String} {version : Nat} {early : Table Nat}
    (before : ∀ version, early.get? name = some version → version = start.version name)
    (found : ((blocks.take (count + 1)).foldl mergeWrites early).get? name = some version) :
    version = exit.version name := by
  induction recorded generalizing count early with
  | nil => simp at located
  | @cons start after next block rest _ written grows kept goes _ ih =>
    rw [List.take_succ_cons, List.forall_mem_cons] at plain
    have side := plain.1
    have below : early.version name ≤ start.version name := by
      unfold Table.version
      cases known : early.get? name with
      | none => exact Nat.zero_le _
      | some version => exact Nat.le_of_eq (before version known)
    have merged (version : Nat) (known : (mergeWrites early block).get? name = some version) :
        version = after.version name := by
      rw [get?_mergeWrites] at known
      cases writes : block.versions.writes.get? name with
      | some latest =>
        rw [writes] at known
        have last := written name latest writes
        have above := grows side name
        obtain rfl := Option.some.inj known
        omega
      | none =>
        rw [writes] at known
        rw [kept side name writes]
        exact before version known
    cases count with
    | zero =>
      obtain rfl := Option.some.inj located
      rw [List.take_succ_cons, List.take_zero] at found
      exact merged version found
    | succ count =>
      have same := goes side
      subst same
      exact ih plain.2 located merged found

end Recorded

def Block.Records (block : Block) (start after : Versions) : Prop :=
  ∃ defined, start.Advances defined after ∧
    ∀ name, block.versions.writes.get? name =
      if name ∈ defined then some (after.current.version name) else none

theorem Block.Records.cons {block : Block} {start after : Versions} {before next : Table Nat}
    {rest : List Block} {exits : List (Table Nat)} (records : block.Records start after)
    (bounded : start.Bounded) (enters : block.side = none → start.current = before)
    (goes : block.side = none → next = after.current) (later : Recorded next rest exits) :
    Recorded before (block :: rest) (after.current :: exits) := by
  obtain ⟨defined, advances, writes⟩ := records
  refine .cons ?_ ?_ ?_ goes later
  · intro name version found
    rw [writes] at found
    split at found
    · exact (Option.some.inj found).symm
    · cases found
  · intro side name
    rw [← enters side]
    exact advances.grows bounded name
  · intro side name found
    rw [← enters side]
    apply advances.kept name
    intro member
    rw [writes, if_pos member] at found
    cases found

structure Block.Signed (block : Block) : Prop where
  own : ∀ name version, block.versions.writes.get? name = some version →
    ⟨name, version⟩ ∈ block.instructions.flatMap Instruction.defs
  all : ∀ defined ∈ block.instructions.flatMap Instruction.defs,
    (block.versions.writes.get? defined.name).isSome = true

/-- What a block records agrees with its instructions, which lead from `start` to `after`: each name
that they define stands at its last definition. -/
structure Block.Tallies (block : Block) (start after : Versions) : Prop where
  writes : ∀ name, block.versions.writes.get? name =
    (versionsOf name (block.instructions.flatMap Instruction.defs)).getLast?
  lands : start.Lands (block.instructions.flatMap Instruction.defs) after

theorem Block.tallies_of_lands {block : Block} {start after : Versions}
    (lands : start.Lands (block.instructions.flatMap Instruction.defs) after)
    (writes : ∀ name, block.versions.writes.get? name =
      if name ∈ (block.instructions.flatMap Instruction.defs).map Variable.name then
        some (after.current.version name)
      else none) : block.Tallies start after := by
  refine ⟨fun name => ?_, lands⟩
  rw [writes]
  split
  next member => exact (lands.last_eq member).symm
  next absent =>
    rw [versionsOf_eq_nil absent]
    rfl

theorem Block.Tallies.signed {block : Block} {start after : Versions}
    (tallies : block.Tallies start after) : block.Signed := by
  constructor
  · intro name version found
    rw [tallies.writes] at found
    exact mem_of_versionsOf (List.mem_of_getLast? found)
  · intro defined member
    rw [tallies.writes, List.getLast?_isSome]
    exact List.ne_nil_of_mem (mem_versionsOf member)

theorem Versions.Bounded.resume {versions : Versions} (bounded : versions.Bounded)
    {earlier : Table Nat}
    (below : ∀ name, earlier.version name ≤ versions.counter.version name) :
    (versions.resume earlier).Bounded := by
  intro name
  rw [current_resume]
  exact Nat.max_le.mpr ⟨bounded name, below name⟩

namespace Block

theorem number_records (block : Block) (scope : Scope) (versions : Versions) :
    (block.number scope versions).1.Records versions (block.number scope versions).2.2 := by
  refine ⟨_, lowerParts_advances scope block.parts versions, fun name => ?_⟩
  rw [number]
  simp only [Table.get?_ofList_map, Names.mem_toList_ofList]

theorem number_tallies (block : Block) (scope : Scope) (versions : Versions) :
    (block.number scope versions).1.Tallies versions (block.number scope versions).2.2 := by
  obtain ⟨_, _, _, run⟩ := lowerParts_runs scope [] block.parts versions [] (by simp)
  obtain ⟨names, lands⟩ := run.lands
  refine tallies_of_lands lands fun name => ?_
  rw [number]
  simp only [Table.get?_ofList_map, Names.mem_toList_ofList]
  rw [← names]

theorem armEntry?_of_plain {block : Block} (side : block.side = none) (graph : Graph)
    (exits : List (Table Nat)) : block.armEntry? graph exits = none := by
  unfold armEntry?
  rw [side]

theorem armEntry?_mem {block : Block} {graph : Graph} {exits : List (Table Nat)}
    {entry : Table Nat} (found : block.armEntry? graph exits = some entry) : entry ∈ exits := by
  unfold armEntry? at found
  split at found
  · obtain ⟨index, _, located⟩ := Option.bind_eq_some_iff.mp found
    exact List.mem_of_getElem? located
  · cases found

end Block

theorem numberFrom_recorded (graph : Graph) (scope : Scope) (exits : List (Table Nat))
    (versions : Versions) (blocks : List Block) (bounded : versions.Bounded)
    (below : ∀ exit ∈ exits, ∀ name, exit.version name ≤ versions.counter.version name) :
    Recorded versions.current (numberFrom graph scope exits versions blocks).blocks
      (numberFrom graph scope exits versions blocks).exits := by
  induction blocks generalizing exits versions with
  | nil => exact .nil _
  | cons block rest ih =>
    let entry := block.armEntry? graph exits
    let start : Versions := { versions with current := entry.getD versions.current }
    let after := (block.number scope start).2.2
    let resumed := if entry.isSome then after.resume versions.current else after
    have records := block.number_records scope start
    have advances : start.Advances _ after := lowerParts_advances scope block.parts start
    have plain (side : block.side = none) : entry = none :=
      Block.armEntry?_of_plain side graph exits
    have started : start.Bounded := by
      intro name
      cases found : entry with
      | none => simpa [start, found] using bounded name
      | some table => simpa [start, found] using below table (Block.armEntry?_mem found) name
    have ended := advances.bounded started
    have early (name : String) (version : Nat) (old : version ≤ versions.counter.version name) :
        version ≤ resumed.counter.version name := by
      have kept : resumed.counter = after.counter :=
        (resumed_counts entry versions.current after).1
      rw [kept]
      exact Nat.le_trans old (advances.counter name)
    have again : resumed.Bounded := by
      unfold resumed
      split
      · exact ended.resume fun name => Nat.le_trans (bounded name) (advances.counter name)
      · exact ended
    have later := ih (exits ++ [after.current]) resumed again fun exit member name => by
      rcases List.mem_append.mp member with old | new
      · exact early name _ (below exit old name)
      · obtain rfl := List.mem_singleton.mp new
        have last := ended name
        unfold resumed
        split <;> exact last
    refine records.cons started ?_ ?_ later
    · intro side
      simp [start, plain side]
    · intro side
      simp [resumed, after, plain side]

theorem numberFrom_signed (graph : Graph) (scope : Scope) (exits : List (Table Nat))
    (versions : Versions) (blocks : List Block) :
    ∀ block ∈ (numberFrom graph scope exits versions blocks).blocks, block.Signed := by
  induction blocks generalizing exits versions with
  | nil => simp [numberFrom]
  | cons block rest ih =>
    rw [numberFrom, List.forall_mem_cons]
    exact ⟨(block.number_tallies scope _).signed, ih _ _⟩

theorem current_seed (names : List String) (versions : Versions) (name : String) :
    (names.foldl Versions.seed versions).current.version name = versions.current.version name := by
  induction names generalizing versions with
  | nil => rfl
  | cons first rest ih =>
    rw [List.foldl_cons, ih, Versions.seed, Table.version_insert]
    split
    next same => rw [same]
    next => rfl

theorem numberBlocks_recorded (scope : Scope) (blocks : List Block) :
    ∃ start, Recorded start (numberBlocks scope {} blocks).blocks
      (numberBlocks scope {} blocks).exits := by
  refine ⟨_, numberFrom_recorded (graphOf blocks) scope [] _ blocks ?_ (by simp)⟩
  intro name
  rw [current_seed]
  exact Nat.zero_le _

end Reentrancy
