import Reentrancy.Proofs.Ssa.PhiSources
import Reentrancy.Proofs.Ssa.Straight

/-! The expansion of straight-line code, instruction by instruction: what stood there, what is
written in its place, and what is put in after it. Blocks do not show in a trace; where a new one
is entered only the list of the names it writes starts anew. -/
namespace Reentrancy

/-- An instruction of the function, what is written for it, and what is put in after it. -/
structure Passed where
  old : Instruction
  written : Instruction
  spliced : List Instruction

def Passed.idle (instruction : Instruction) : Passed := ⟨instruction, instruction, []⟩

def Passed.code (step : Passed) : List Instruction := step.written :: step.spliced

def Walk.rewrite (walk : Walk) (instruction : Instruction) : Instruction × Walk :=
  (instruction.substitute fun read => some (.var (walk.resolve read))).redefine Walk.redefine walk

section Values

variable (rename : Variable → Variable)

theorem Value.reads_rename (value : Value) :
    (value.substitute fun read => some (.var (rename read))).reads = value.reads.map rename := by
  rw [reads_substitute]
  exact List.flatMap_pure_eq_map rename value.reads

theorem Instruction.uses_rename {instruction : Instruction} (noPhi : instruction.isPhi = false) :
    (instruction.substitute fun read => some (.var (rename read))).uses =
      instruction.uses.map rename := by
  cases instruction with
  | assign assignment =>
    have renamed : Assignment.substitutePrevious (fun read => some (.var (rename read))) = rename :=
      rfl
    cases previous : assignment.previous <;>
      simp [substitute, uses, Assignment.substitute, previous, renamed, Value.reads_rename]
  | call operation =>
    cases receiver : operation.receiver <;>
      simp [substitute, uses, CallOperation.substitute, CallOperation.reads, receiver,
        Value.reads_rename, List.flatMap_map, List.map_flatMap]
  | phi target sources => simp [isPhi] at noPhi
  | _ => simp [substitute, uses, Value.reads_rename, List.flatMap_map, List.map_flatMap]

end Values

theorem Walk.rewrite_eq (walk : Walk) (old : Instruction) :
    (walk.rewrite old).1.defs = (mapDefinitions Walk.redefine walk old.defs).1 ∧
      (walk.rewrite old).2 = (mapDefinitions Walk.redefine walk old.defs).2 := by
  rw [← old.defs_substitute fun read => some (.var (walk.resolve read))]
  exact Instruction.redefine_eq Walk.redefine walk _

theorem Walk.uses_rewrite (walk : Walk) {old : Instruction} (noPhi : old.isPhi = false) :
    (walk.rewrite old).1.uses = old.uses.map walk.resolve := by
  unfold Walk.rewrite
  rw [Instruction.uses_redefine, Instruction.uses_rename _ noPhi]

inductive Walked (expand : String → List Value → Walk → Expansion) :
    Walk → List Passed → Walk → Prop where
  | nil (walk : Walk) : Walked expand walk [] walk
  | enter {walk last : Walk} {steps : List Passed}
      (entered : Walked expand { walk with written := Table.empty } steps last) :
      Walked expand walk steps last
  | cons (walk : Walk) {old : Instruction} (noPhi : old.isPhi = false) {last : Walk}
      {steps : List Passed}
      (later : Walked expand
        (expandAfter expand (walk.rewrite old).1 (walk.rewrite old).2).walk steps last) :
      Walked expand walk (⟨old, (walk.rewrite old).1,
        (expandAfter expand (walk.rewrite old).1 (walk.rewrite old).2).instructions⟩ :: steps) last

section Walks

variable {expand : String → List Value → Walk → Expansion}

theorem Walked.append {first middle last : Walk} {here later : List Passed}
    (walked : Walked expand first here middle) (rest : Walked expand middle later last) :
    Walked expand first (here ++ later) last := by
  induction walked with
  | nil => exact rest
  | enter _ ih => exact .enter (ih rest)
  | cons walk noPhi _ ih => exact .cons walk noPhi (ih rest)

theorem Walked.uncons {first last : Walk} {steps : List Passed} {old : Instruction}
    {rest : List Instruction} (walked : Walked expand first steps last)
    (olds : steps.map Passed.old = old :: rest) :
    ∃ written later, let start := { first with written }
      let inner := expandAfter expand (start.rewrite old).1 (start.rewrite old).2
      Walked expand inner.walk later last ∧ later.map Passed.old = rest ∧
        steps = ⟨old, (start.rewrite old).1, inner.instructions⟩ :: later := by
  induction walked with
  | nil => cases olds
  | enter _ ih => exact ih olds
  | cons walk noPhi later =>
    obtain ⟨rfl, rfl⟩ := List.cons.inj olds
    exact ⟨walk.written, _, later, rfl, rfl⟩

theorem Walked.versions_of_nil {first last : Walk} {steps : List Passed}
    (walked : Walked expand first steps last) (done : steps = []) :
    last.versions = first.versions := by
  induction walked with
  | nil => rfl
  | enter _ ih => exact ih done
  | cons => cases done

variable (expand)

theorem expandBody_walked (walk : Walk) {body : List Instruction}
    (noPhi : ∀ instruction ∈ body, instruction.isPhi = false) :
    ∃ steps, Walked expand walk steps (expandBody expand walk body).walk ∧
      steps.map Passed.old = body ∧
      steps.flatMap Passed.code = (expandBody expand walk body).instructions := by
  induction body generalizing walk with
  | nil => exact ⟨[], .nil walk, rfl, rfl⟩
  | cons first rest ih =>
    rw [List.forall_mem_cons] at noPhi
    let inner := expandAfter expand (walk.rewrite first).1 (walk.rewrite first).2
    obtain ⟨steps, walked, olds, code⟩ := ih inner.walk noPhi.2
    refine ⟨⟨first, (walk.rewrite first).1, inner.instructions⟩ :: steps, ?_, ?_, ?_⟩
    · rw [expandBody_cons walk noPhi.1]
      exact .cons walk noPhi.1 walked
    · rw [List.map_cons, olds]
    · rw [expandBody_cons walk noPhi.1, List.flatMap_cons, code]
      rfl

theorem inlineFrom_walked (graph : Graph) (exits : List WalkExit) (walk : Walk)
    {blocks : List Block} (plain : ∀ block ∈ blocks, block.side = none)
    (noPhi : ∀ instruction ∈ instructionsOf blocks, instruction.isPhi = false) :
    let inlined := inlineFrom graph expand exits walk blocks
    ∃ steps last, Walked expand walk steps last ∧ steps.map Passed.old = instructionsOf blocks ∧
      steps.flatMap Passed.code = instructionsOf inlined.blocks ∧
      last.versions = inlined.versions := by
  induction blocks generalizing exits walk with
  | nil => exact ⟨[], walk, .nil walk, rfl, rfl, rfl⟩
  | cons block rest ih =>
    rw [List.forall_mem_cons] at plain
    rw [instructionsOf, List.flatMap_cons, List.forall_mem_append] at noPhi
    let body := expandBody expand { walk with written := Table.empty } block.instructions
    obtain ⟨here, entered, hereOlds, hereCode⟩ :=
      expandBody_walked expand { walk with written := Table.empty } noPhi.1
    obtain ⟨later, last, walked, laterOlds, laterCode, versions⟩ :=
      ih (exits ++ [body.walk.exit]) body.walk plain.2 noPhi.2
    have entry : block.armExit? graph exits = none :=
      Block.armExit?_of_plain plain.1 graph exits
    simp only [inlineFrom, entry, Option.map_none, Option.getD_none, Option.isSome_none,
      Bool.false_eq_true, if_false]
    refine ⟨here ++ later, last, .enter (entered.append walked), ?_, ?_, versions⟩
    · rw [List.map_append, hereOlds, laterOlds]
      rfl
    · rw [List.flatMap_append, hereCode, laterCode]
      rfl

end Walks

section Build

variable (scope : Scope) {statements : List Statement}
  (plain : ∀ statement ∈ statements, statement.kind.isStructured = false)

include plain

theorem build_sides : ∀ block ∈ (Body.build scope statements).blocks, block.side = none := by
  have sides : (Body.build scope statements).blocks.map (·.side) =
      (flowBlocks statements).1.map (·.side) := (sides_joinFrom ..).trans (sides_numberFrom ..)
  intro block member
  have listed : block.side ∈ (flowBlocks statements).1.map (·.side) :=
    sides ▸ List.mem_map_of_mem member
  obtain ⟨flow, inside, same⟩ := List.mem_map.mp listed
  exact same ▸ flowBlocks_sides plain flow inside

theorem inlineBlocks_walked (templates : Table Template) (depth : Nat) (root : String) :
    let body := Body.build scope statements
    let inlined := inlineBlocks templates depth root body.versions body.blocks
    (depth = 0 || !hasTargets templates root body.blocks) = true ∧
        inlined = { blocks := body.blocks, versions := body.versions } ∨
      ∃ steps last, Walked (splice templates depth [root])
          (.start body.versions.calls) steps last ∧
        steps.map Passed.old = instructionsOf body.blocks ∧
        steps.flatMap Passed.code = instructionsOf inlined.blocks ∧
        last.versions = inlined.versions := by
  intro body inlined
  have walked := inlineFrom_walked (splice templates depth [root]) (graphOf body.blocks) []
    (.start body.versions.calls) (build_sides scope plain)
    (Body.build_noPhi scope plain)
  unfold inlined inlineBlocks
  split
  next idle => exact Or.inl ⟨idle, rfl⟩
  next => exact Or.inr walked

end Build

end Reentrancy
