import Mathlib.Logic.Basic
import Reentrancy.Proofs.Inline.Expansion
import Reentrancy.Proofs.Ssa.Exits

/-! What a walk can do. Over the blocks of a function and over every body put in, a walk defines
names, one at a time, and notes what became of old versions; nothing else changes it. -/
namespace Reentrancy

/-- Steps of a walk: the variables defined, in order. What became of old versions is noted in
between. -/
inductive Walk.Writes : Walk → List Variable → Walk → Prop where
  | nil (walk : Walk) : Writes walk [] walk
  | define (walk : Walk) (name : String) {rest : List Variable} {last : Walk}
      (later : Writes (walk.define name).2 rest last) :
      Writes walk ((walk.define name).1 :: rest) last
  | note (walk : Walk) (live : Table (List Nat)) (renamed : List (Variable × Nat))
      {defined : List Variable} {last : Walk}
      (later : Writes { walk with live, renamed } defined last) : Writes walk defined last

inductive Walk.Defines : Walk → List Variable → Walk → Prop where
  | nil (walk : Walk) : Defines walk [] walk
  | cons (walk : Walk) (name : String) {rest : List Variable} {last : Walk}
      (later : Defines (walk.define name).2 rest last) :
      Defines walk ((walk.define name).1 :: rest) last

namespace Walk.Writes

theorem append {before middle after : Walk} {first second : List Variable}
    (left : Writes before first middle) (right : Writes middle second after) :
    Writes before (first ++ second) after := by
  induction left with
  | nil => exact right
  | define walk name _ ih => exact .define walk name (ih right)
  | note walk live renamed _ ih => exact .note walk live renamed (ih right)

theorem redefine (walk : Walk) (old : Variable) :
    Writes walk [(walk.redefine old).1] (walk.redefine old).2 :=
  .define walk old.name (.note _ _ _ (.nil _))

theorem meetPhi (walk : Walk) (target : Variable) : Writes walk [] (walk.meetPhi target) :=
  .note walk _ walk.renamed (.nil _)

variable {before after : Walk} {defined : List Variable} (writes : Writes before defined after)

include writes

theorem advances : before.versions.Advances (defined.map Variable.name) after.versions := by
  induction writes with
  | nil => exact .refl _
  | define walk name _ ih => exact (Versions.Advances.define walk.versions name).trans ih
  | note _ _ _ _ ih => exact ih

theorem lands : before.versions.Lands defined after.versions := by
  induction writes with
  | nil => exact .refl _
  | define walk name _ ih => exact (Versions.Lands.define walk.versions name).trans ih
  | note _ _ _ _ ih => exact ih

theorem latest : before.versions.Latest defined after.versions := writes.lands.latest

theorem written : after.written = before.written.addAll (defined.map Variable.name) := by
  induction writes with
  | nil => rfl
  | define _ _ _ ih => exact ih
  | note _ _ _ _ ih => exact ih

end Walk.Writes

namespace Walk.Defines

theorem append {before middle after : Walk} {first second : List Variable}
    (left : Defines before first middle) (right : Defines middle second after) :
    Defines before (first ++ second) after := by
  induction left with
  | nil => exact right
  | cons walk name _ ih => exact .cons walk name (ih right)

theorem writes {before after : Walk} {defined : List Variable}
    (defines : Defines before defined after) : Writes before defined after := by
  induction defines with
  | nil walk => exact .nil walk
  | cons walk name _ ih => exact .define walk name ih

theorem notes {before after : Walk} {defined : List Variable}
    (defines : Defines before defined after) :
    after.live = before.live ∧ after.renamed = before.renamed := by
  induction defines with
  | nil => exact ⟨rfl, rfl⟩
  | cons _ _ _ ih => exact ih

end Walk.Defines

section Definitions

variable {σ : Type} (step : σ → Variable → Variable × σ)

theorem Instruction.redefine_eq (state : σ) (instruction : Instruction) :
    (instruction.redefine step state).1.defs = (mapDefinitions step state instruction.defs).1 ∧
      (instruction.redefine step state).2 = (mapDefinitions step state instruction.defs).2 := by
  cases instruction <;> exact ⟨rfl, rfl⟩

@[simp] theorem Instruction.uses_redefine (state : σ) (instruction : Instruction) :
    (instruction.redefine step state).1.uses = instruction.uses := by
  cases instruction <;> rfl

theorem mapDefinitions_names (named : ∀ state old, (step state old).1.name = old.name) (state : σ)
    (defined : List Variable) :
    (mapDefinitions step state defined).1.map Variable.name = defined.map Variable.name := by
  induction defined generalizing state with
  | nil => rfl
  | cons first rest ih => exact congrArg₂ List.cons (named state first) (ih (step state first).2)

end Definitions

theorem mapDefinitions_writes (walk : Walk) (defined : List Variable) :
    walk.Writes (mapDefinitions Walk.redefine walk defined).1
      (mapDefinitions Walk.redefine walk defined).2 := by
  induction defined generalizing walk with
  | nil => exact .nil _
  | cons first rest ih =>
    exact (Walk.Writes.redefine walk first).append (ih (walk.redefine first).2)

theorem mapDefinitions_defines (region : Region) (defined : List Variable) :
    region.walk.Defines (mapDefinitions Region.redefine region defined).1
      (mapDefinitions Region.redefine region defined).2.walk := by
  induction defined generalizing region with
  | nil => exact .nil _
  | cons first rest ih => exact .cons region.walk first.name (ih (region.redefine first).2)

section Bodies

variable {expand : String → List Value → Walk → Expansion}
  (defines : ∀ target arguments walk, Walk.Defines walk
    ((expand target arguments walk).instructions.flatMap Instruction.defs)
    (expand target arguments walk).walk)

include defines

theorem expandAfter_defines (written : Instruction) (walk : Walk) :
    walk.Defines ((expandAfter expand written walk).instructions.flatMap Instruction.defs)
      (expandAfter expand written walk).walk := by
  unfold expandAfter
  split
  · exact defines _ _ walk
  · exact .nil walk

theorem spliceBody_defines (bindings : Table Value) (region : Region) (body : List Instruction) :
    region.walk.Defines
      ((spliceBody bindings expand region body).instructions.flatMap Instruction.defs)
      (spliceBody bindings expand region body).walk := by
  induction body generalizing region with
  | nil => exact .nil _
  | cons first rest ih =>
    let bound := (first.bindNames bindings).substitute fun read =>
      some (region.resolve bindings read)
    let written := bound.redefine Region.redefine region
    obtain ⟨defs, state⟩ := Instruction.redefine_eq Region.redefine region bound
    have here : region.walk.Defines written.1.defs written.2.walk := by
      rw [defs, state]
      exact mapDefinitions_defines region bound.defs
    have inner := expandAfter_defines defines written.1 written.2.walk
    have others := ih ⟨(expandAfter expand written.1 written.2.walk).walk, written.2.renamed⟩
    rw [spliceBody_cons, List.flatMap_append, List.flatMap_cons]
    exact (here.append inner).append others

theorem expandBody_writes (walk : Walk) (body : List Instruction) :
    walk.Writes ((expandBody expand walk body).instructions.flatMap Instruction.defs)
      (expandBody expand walk body).walk := by
  induction body generalizing walk with
  | nil => exact .nil walk
  | cons first rest ih =>
    cases phi : first.isPhi with
    | true =>
      cases first with
      | phi target sources => exact (Walk.Writes.meetPhi walk target).append (ih _)
      | _ => simp [Instruction.isPhi] at phi
    | false =>
      have here (instruction : Instruction) :
          walk.Writes (instruction.redefine Walk.redefine walk).1.defs
            (instruction.redefine Walk.redefine walk).2 := by
        obtain ⟨defs, state⟩ := Instruction.redefine_eq Walk.redefine walk instruction
        rw [defs, state]
        exact mapDefinitions_writes walk instruction.defs
      rw [expandBody_cons walk phi, List.flatMap_append, List.flatMap_cons]
      exact ((here _).append (expandAfter_defines defines _ _).writes).append (ih _)

end Bodies

theorem splice_defines (templates : Table Template) (depth : Nat) (stack : List String)
    (target : String) (arguments : List Value) (walk : Walk) :
    walk.Defines
      ((splice templates depth stack target arguments walk).instructions.flatMap Instruction.defs)
      (splice templates depth stack target arguments walk).walk := by
  induction depth generalizing stack target arguments walk with
  | zero => exact .nil walk
  | succ depth ih =>
    rw [splice]
    split
    · exact .nil walk
    · split
      · exact .nil walk
      next template _ =>
        exact spliceBody_defines (ih (target :: stack)) (template.bindings arguments) ⟨walk, []⟩
          template.body

@[simp] theorem isLive_insert (live : Table (List Nat)) (old read : Variable) :
    isLive (live.insert old.name [old.version]) read =
      if read.name = old.name then read.version == old.version else isLive live read := by
  unfold isLive
  by_cases same : read.name = old.name
  · have contained : [old.version].contains read.version = (read.version == old.version) := by
      simp [Bool.beq_eq_decide_eq]
    simp only [same, Table.get?_insert, if_true, contained]
  · simp [same]

@[simp] theorem lookupVariable_cons (renamed : List (Variable × Nat)) (old read : Variable)
    (version : Nat) :
    lookupVariable ((old, version) :: renamed) read =
      if old = read then some version else lookupVariable renamed read := by
  unfold lookupVariable
  by_cases same : old = read
  · simp [same]
  · have other : (old == read) = false := by simpa using same
    simp [same, other]

/-- Every name is read at its latest definition. -/
def Walk.Level (walk : Walk) : Prop :=
  ∀ name, walk.versions.current.version name = walk.versions.counter.version name

theorem Walk.Level.define {walk : Walk} (level : walk.Level) (name : String) :
    (walk.define name).2.Level := by
  intro other
  change (walk.versions.define name).2.current.version other =
    (walk.versions.define name).2.counter.version other
  rw [Versions.current_define, Versions.counter_define, level other]

namespace Block

variable {expansion : String → List Value → Walk → Expansion}

section Writes

variable (defines : ∀ target arguments walk, Walk.Defines walk
    ((expansion target arguments walk).instructions.flatMap Instruction.defs)
    (expansion target arguments walk).walk) (block : Block) (walk : Walk)

include defines

theorem expand_writes (name : String) :
    (block.expand expansion walk).1.versions.writes.get? name =
      if name ∈ ((block.expand expansion walk).1.instructions.flatMap Instruction.defs).map
          Variable.name then
        some ((block.expand expansion walk).2.walk.versions.current.version name)
      else none := by
  have walked := expandBody_writes defines { walk with written := Table.empty }
    block.instructions
  have recorded : (block.expand expansion walk).1.versions.writes.get? name =
      if name ∈ (block.expand expansion walk).2.walk.written.toList then
        some ((block.expand expansion walk).2.walk.versions.current.version name)
      else none := Table.get?_ofList_map _ _ name
  have listed : (block.expand expansion walk).2.walk.written =
      Names.ofList (((block.expand expansion walk).1.instructions.flatMap Instruction.defs).map
        Variable.name) := walked.written
  rw [recorded]
  simp only [listed, Names.mem_toList_ofList]

theorem expand_records :
    (block.expand expansion walk).1.Records walk.versions
      (block.expand expansion walk).2.walk.versions :=
  ⟨_, (expandBody_writes defines { walk with written := Table.empty } block.instructions).advances,
    block.expand_writes defines walk⟩

theorem expand_tallies :
    (block.expand expansion walk).1.Tallies walk.versions
      (block.expand expansion walk).2.walk.versions :=
  tallies_of_lands (expandBody_writes defines { walk with written := Table.empty }
    block.instructions).lands (block.expand_writes defines walk)

end Writes

theorem armExit?_of_plain {block : Block} (side : block.side = none) (graph : Graph)
    (exits : List WalkExit) : block.armExit? graph exits = none := by
  unfold armExit?
  rw [side]

theorem armExit?_mem {block : Block} {graph : Graph} {exits : List WalkExit} {entry : WalkExit}
    (found : block.armExit? graph exits = some entry) : entry ∈ exits := by
  unfold armExit? at found
  split at found
  · obtain ⟨index, _, located⟩ := Option.bind_eq_some_iff.mp found
    exact List.mem_of_getElem? located
  · cases found

end Block

theorem inlineFrom_signed {expansion : String → List Value → Walk → Expansion}
    (defines : ∀ target arguments walk, Walk.Defines walk
      ((expansion target arguments walk).instructions.flatMap Instruction.defs)
      (expansion target arguments walk).walk) (graph : Graph) (exits : List WalkExit) (walk : Walk)
    (blocks : List Block) :
    ∀ block ∈ (inlineFrom graph expansion exits walk blocks).blocks, block.Signed := by
  induction blocks generalizing exits walk with
  | nil => simp [inlineFrom]
  | cons block rest ih =>
    rw [inlineFrom, List.forall_mem_cons]
    exact ⟨(block.expand_tallies defines _).signed, ih _ _⟩

theorem inlineFrom_recorded (graph : Graph) (templates : Table Template) (depth : Nat)
    (stack : List String) (exits : List WalkExit) (walk : Walk) (blocks : List Block)
    (bounded : walk.versions.Bounded)
    (below : ∀ exit ∈ exits, ∀ name,
      exit.current.version name ≤ walk.versions.counter.version name) :
    let inlined := inlineFrom graph (splice templates depth stack) exits walk blocks
    Recorded walk.versions.current inlined.blocks inlined.exits := by
  induction blocks generalizing exits walk with
  | nil => exact .nil _
  | cons block rest ih =>
    let entry := block.armExit? graph exits
    let start := (entry.map walk.enter).getD walk
    let after := (block.expand (splice templates depth stack) start).2.walk
    let resumed := if entry.isSome then after.resume walk.exit else after
    have records := block.expand_records (splice_defines templates depth stack) start
    have plain (side : block.side = none) : entry = none :=
      Block.armExit?_of_plain side graph exits
    have started : start.versions.Bounded := by
      intro name
      cases found : entry with
      | none => simpa [start, found] using bounded name
      | some exit =>
        simpa [start, found, Walk.enter] using below exit (Block.armExit?_mem found) name
    have counter : start.versions.counter = walk.versions.counter := by
      unfold start
      cases entry <;> rfl
    have ⟨defined, advances, _⟩ := records
    have early (name : String) (version : Nat)
        (old : version ≤ walk.versions.counter.version name) :
        version ≤ after.versions.counter.version name :=
      Nat.le_trans old (counter ▸ advances.counter name)
    have ended := advances.bounded started
    have kept : resumed.versions.counter = after.versions.counter := by
      unfold resumed
      split <;> rfl
    have again : resumed.versions.Bounded := by
      unfold resumed
      split
      · exact ended.resume fun name => early name _ (bounded name)
      · exact ended
    have later := ih (exits ++ [after.exit]) resumed again fun exit member name => by
      rw [kept]
      rcases List.mem_append.mp member with old | new
      · exact early name _ (below exit old name)
      · obtain rfl := List.mem_singleton.mp new
        exact ended name
    refine records.cons started ?_ ?_ later
    · intro side
      simp [start, plain side]
    · intro side
      simp [resumed, after, plain side]

end Reentrancy
