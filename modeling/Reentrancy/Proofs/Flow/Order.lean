import Reentrancy.Proofs.Flow.Partition
import Reentrancy.Proofs.Lowering.Agreement
import Reentrancy.Proofs.Ssa.Numbering
import Reentrancy.Ssa.Body

/-! Blocks keep the order of the source. Cutting a body and refining its branches and loops
lowers every statement once, in the place where lowering the body as a whole meets it. -/
namespace Reentrancy

def partsOf (blocks : List Block) : List (Statement × Bool) := blocks.flatMap Block.parts

def wholes (statements : List Statement) : List (Statement × Bool) :=
  statements.map fun statement => (statement, false)

theorem wholes_append (first second : List Statement) :
    wholes (first ++ second) = wholes first ++ wholes second := List.map_append

theorem withHeads_false (statements : List Statement) :
    withHeads false statements = wholes statements := by
  induction statements with
  | nil => rfl
  | cons first rest ih =>
    cases rest with
    | nil => rfl
    | cons next others => exact congrArg ((first, false) :: ·) ih

theorem withHeads_concat (branches : Bool) (front : List Statement) (last : Statement) :
    withHeads branches (front ++ [last]) =
      wholes front ++ [(last, branches && last.kind.isStructured)] := by
  induction front with
  | nil => rfl
  | cons first rest ih =>
    cases rest with
    | nil => rfl
    | cons next others => exact congrArg ((first, false) :: ·) ih

section Parts

variable (scope : Scope)

theorem lowerParts_append (first second : List (Statement × Bool)) :
    lowerParts scope (first ++ second) =
      lowerParts scope first >>= fun _ => lowerParts scope second := by
  induction first with
  | nil => exact (Lower.pure_then () fun _ => lowerParts scope second).symm
  | cons part rest ih =>
    obtain ⟨statement, headOnly⟩ := part
    cases headOnly with
    | true => simp only [List.cons_append, lowerParts, ih, bind_assoc, if_true]
    | false => simp [List.cons_append, lowerParts, ih, bind_assoc]

theorem lowerParts_wholes (statements : List Statement) :
    lowerParts scope (wholes statements) = Statement.lowerBody scope statements := by
  induction statements with
  | nil => rfl
  | cons first rest ih =>
    rw [Statement.lowerBody, ← ih]
    rfl

end Parts

theorem Exit.isBranch_branch (condition : Expression) (yes no : String) :
    (branch condition yes no).isBranch = true := rfl

theorem Exit.isBranch_goto (target : String) : (goto target).isBranch = false := rfl

theorem Exit.closing_isBranch {statements : List Statement} {otherwise : Exit}
    (plain : otherwise.isBranch = false) : (closing statements otherwise).isBranch = false := by
  unfold closing
  split
  · split
    · rfl
    · split
      · rfl
      · exact plain
  · exact plain

namespace Block

theorem parts_of_plain {block : Block} (plain : block.exit.isBranch = false) :
    block.parts = wholes block.statements := by
  rw [parts, plain, withHeads_false]

end Block

theorem mem_of_mem_buildBlocks {number : Nat} {body : List Statement} {block : Block}
    {statement : Statement} (member : block ∈ (buildBlocks number body).1)
    (inside : statement ∈ block.statements) : statement ∈ body := by
  rw [← (buildBlocks_partitions number body).whole]
  exact List.mem_flatMap.mpr ⟨block, member, inside⟩

theorem buildBlocks_plain (number : Nat) (body : List Statement) :
    ∀ block ∈ (buildBlocks number body).1, block.exit.isBranch = false := by
  intro block member
  obtain ⟨_, next, run, _, rfl⟩ := exists_linked member
  refine Exit.closing_isBranch ?_
  cases next with
  | none => rfl
  | some => rfl

/-- The parts of a statement in the blocks of a body: the head of a branch or of a loop that tests
first stands apart from the bodies. -/
def Statement.spread : Statement → List (Statement × Bool)
  | branch condition yes no => (branch condition yes no, true) :: (wholes yes ++ wholes no)
  | forLoop start condition step body counters =>
    wholes start ++
      (forLoop start condition step body counters, true) :: (wholes body ++ wholes step)
  | whileLoop condition body counters =>
    (whileLoop condition body counters, true) :: wholes body
  | statement => [(statement, false)]

theorem Statement.spread_of_quiet {statement : Statement} (idle : statement.endsBlock = false) :
    statement.spread = [(statement, false)] := by
  cases statement with
  | branch | forLoop | whileLoop => cases idle
  | _ => rfl

theorem Statement.flatMap_spread {statements : List Statement}
    (quiet : ∀ statement ∈ statements, statement.endsBlock = false) :
    statements.flatMap spread = wholes statements := by
  induction statements with
  | nil => rfl
  | cons first rest ih =>
    rw [List.forall_mem_cons] at quiet
    rw [List.flatMap_cons, spread_of_quiet quiet.1, ih quiet.2]
    rfl

namespace Block

variable {block : Block} (number : Nat)

theorem continuation_plain (block : Block) :
    (Exit.gotoOrPending block.continuation).isBranch = false := by
  cases block.continuation <;> rfl

theorem partsOf_refineBranch {front yes no : List Statement} {condition : Expression}
    (statements : block.statements = front ++ [.branch condition yes no]) :
    partsOf (block.refineBranch number condition yes no) =
      wholes front ++ (.branch condition yes no, true) :: (wholes yes ++ wholes no) := by
  simp only [refineBranch, partsOf, List.flatMap_cons, List.flatMap_nil, parts, ofBody,
    Exit.closing_isBranch block.continuation_plain, withHeads_false, statements, withHeads_concat,
    Exit.isBranch_branch, Statement.kind, StatementKind.isStructured, Bool.and_true,
    List.append_assoc, List.cons_append, List.nil_append, List.append_nil]

theorem partsOf_refineFor {front start step body : List Statement} {condition : Expression}
    {counters : List String}
    (statements : block.statements = front ++ [.forLoop start condition step body counters]) :
    let loop := Statement.forLoop start condition step body counters
    partsOf (block.refineFor number loop start condition step body) =
      wholes front ++ (wholes start ++ (loop, true) :: (wholes body ++ wholes step)) := by
  simp only [refineFor, partsOf, List.flatMap_cons, List.flatMap_nil, parts, ofBody, loopInit,
    loopHeader, loopExit, Exit.closing_isBranch (Exit.isBranch_goto _), Exit.isBranch_goto,
    Exit.isBranch_branch, withHeads_false, withHeads, Statement.kind,
    StatementKind.isStructured, Bool.and_true, statements, List.dropLast_concat, wholes_append,
    List.append_assoc, List.cons_append, List.nil_append, List.append_nil]

theorem partsOf_refineWhile {front body : List Statement} {condition : Expression}
    {counters : List String}
    (statements : block.statements = front ++ [.whileLoop condition body counters]) :
    let loop := Statement.whileLoop condition body counters
    partsOf (block.refineWhile number loop condition body) =
      wholes front ++ (loop, true) :: wholes body := by
  simp only [refineWhile, partsOf, List.flatMap_cons, List.flatMap_nil, parts, ofBody, loopInit,
    loopHeader, loopExit, Exit.closing_isBranch (Exit.isBranch_goto _), Exit.isBranch_goto,
    Exit.isBranch_branch, withHeads_false, withHeads, Statement.kind,
    StatementKind.isStructured, Bool.and_true, statements, List.dropLast_concat,
    List.cons_append, List.nil_append, List.append_nil]

theorem partsOf_refine (plain : block.exit.isBranch = false)
    (quiet : ∀ statement ∈ block.statements.dropLast, statement.endsBlock = false) :
    partsOf (block.refine number).1 = block.statements.flatMap Statement.spread := by
  -- Only the last statement moves to new blocks.
  have split {front : List Statement} {last : Statement}
      (statements : block.statements = front ++ [last]) :
      block.statements.flatMap Statement.spread = wholes front ++ last.spread := by
    rw [statements, List.dropLast_concat] at quiet
    rw [statements, List.flatMap_append, List.flatMap_singleton, Statement.flatMap_spread quiet]
  unfold refine
  split
  next condition yes no last =>
    obtain ⟨front, statements⟩ := List.getLast?_eq_some_iff.mp last
    rw [partsOf_refineBranch number statements, split statements, Statement.spread]
  next start condition step body counters last =>
    obtain ⟨front, statements⟩ := List.getLast?_eq_some_iff.mp last
    rw [partsOf_refineFor number statements, split statements, Statement.spread]
  next condition body counters last =>
    obtain ⟨front, statements⟩ := List.getLast?_eq_some_iff.mp last
    rw [partsOf_refineWhile number statements, split statements, Statement.spread]
  next noBranch noFor noWhile =>
    rw [partsOf, List.flatMap_singleton, parts_of_plain plain]
    cases last : block.statements.getLast? with
    | none => rw [List.getLast?_eq_none_iff.mp last, List.flatMap_nil, wholes, List.map_nil]
    | some final =>
      obtain ⟨front, statements⟩ := List.getLast?_eq_some_iff.mp last
      rw [split statements, statements, wholes_append]
      cases final with
      | branch condition yes no => exact absurd last (noBranch condition yes no)
      | forLoop start condition step body counters =>
        exact absurd last (noFor start condition step body counters)
      | whileLoop condition body counters => exact absurd last (noWhile condition body counters)
      | _ => rfl

theorem parts_finalize (block : Block) : block.finalize.parts = block.parts := by
  unfold finalize parts
  cases block.exit <;> rfl

theorem parts_track (block : Block) : block.track.parts = block.parts := rfl

end Block

theorem partsOf_append (first second : List Block) :
    partsOf (first ++ second) = partsOf first ++ partsOf second := List.flatMap_append

theorem partsOf_refineBlocks (number : Nat) (blocks : List Block)
    (plain : ∀ block ∈ blocks, block.exit.isBranch = false)
    (quiet : ∀ block ∈ blocks, ∀ statement ∈ block.statements.dropLast,
      statement.endsBlock = false) :
    partsOf (refineBlocks number blocks).1 =
      (blocks.flatMap (·.statements)).flatMap Statement.spread := by
  induction blocks generalizing number with
  | nil => rfl
  | cons block rest ih =>
    rw [List.forall_mem_cons] at plain quiet
    rw [refineBlocks, partsOf_append, Block.partsOf_refine number plain.1 quiet.1,
      ih _ plain.2 quiet.2, List.flatMap_cons, List.flatMap_append]

theorem partsOf_flowBlocks (body : List Statement) :
    partsOf (flowBlocks body).1 = body.flatMap Statement.spread := by
  have kept (blocks : List Block) :
      partsOf ((blocks.map Block.finalize).map Block.track) = partsOf blocks := by
    simp only [partsOf, List.flatMap_map, Block.parts_track, Block.parts_finalize]
  have rule := buildBlocks_partitions 0 body
  rw [flowBlocks, kept, partsOf_refineBlocks _ _ (buildBlocks_plain 0 body)
    (fun block member => rule.calm member), rule.whole]

theorem lowerParts_spread (scope : Scope) (statement : Statement) :
    lowerParts scope statement.spread = statement.lower scope := by
  have headed (last : Statement) (rest : List (Statement × Bool)) :
      lowerParts scope ((last, true) :: rest) =
        last.lowerHead scope >>= fun _ => lowerParts scope rest := rfl
  cases statement with
  | branch condition yes no =>
    rw [Statement.spread, headed, lowerParts_append, lowerParts_wholes, lowerParts_wholes,
      Statement.lowerHead, Statement.lower]
  | forLoop start condition step body counters =>
    rw [Statement.spread, lowerParts_append, headed, lowerParts_append, lowerParts_wholes,
      lowerParts_wholes, lowerParts_wholes, Statement.lowerHead, Statement.lower]
  | whileLoop condition body counters =>
    rw [Statement.spread, headed, lowerParts_wholes, Statement.lowerHead, Statement.lower]
  | _ => exact bind_pure_unit

theorem lower_flowBlocks (scope : Scope) (body : List Statement) :
    lowerParts scope (partsOf (flowBlocks body).1) = Statement.lowerBody scope body := by
  rw [partsOf_flowBlocks]
  induction body with
  | nil => rfl
  | cons first rest ih =>
    rw [List.flatMap_cons, lowerParts_append, lowerParts_spread, ih, Statement.lowerBody]

theorem lowerParts_agree (scope : Scope) (parts : List (Statement × Bool)) :
    Lower.Agree id (lowerParts scope parts) (lowerParts scope parts) := by
  induction parts with
  | nil => exact .pure rfl
  | cons part rest ih =>
    obtain ⟨statement, headOnly⟩ := part
    rw [lowerParts]
    cases headOnly with
    | true => exact (statement.lowerHead_agree scope).bindSame fun _ => ih
    | false => exact (statement.lower_agree scope).bindSame fun _ => ih

theorem numberFrom_alike (graph : Graph) (scope : Scope) (exits : List (Table Nat))
    {versions linear : Versions} (alike : versions.CountAlike linear) (blocks : List Block) :
    let numbered := numberFrom graph scope exits versions blocks
    let lowered := lowerParts scope (partsOf blocks) linear
    Emission.Alike { instructions := instructionsOf numbered.blocks, sites := numbered.sites }
      lowered.emission := by
  induction blocks generalizing exits versions linear with
  | nil => exact ⟨rfl, rfl⟩
  | cons block rest ih =>
    let entry := block.armEntry? graph exits
    let entered : Versions := { versions with current := entry.getD versions.current }
    let after := (lowerParts scope block.parts entered).versions
    let resumed := if entry.isSome then after.resume versions.current else after
    -- An arm starts from other current versions, but the counters go on from block to block.
    have start : entered.CountAlike linear := ⟨alike.counter, alike.calls⟩
    obtain ⟨_, here, counted⟩ := lowerParts_agree scope block.parts entered linear start
    have going : resumed.CountAlike (lowerParts scope block.parts linear).versions := by
      unfold resumed
      split
      · exact ⟨counted.counter, counted.calls⟩
      · exact counted
    have later := ih (exits ++ [after.current]) going
    have parts : partsOf (block :: rest) = block.parts ++ partsOf rest := rfl
    rw [parts, lowerParts_append]
    exact ⟨(here.append later).instructions, (here.append later).sites⟩

theorem numberBlocks_alike (scope : Scope) (versions : Versions) (blocks : List Block) :
    let numbered := numberBlocks scope versions blocks
    Emission.Alike { instructions := instructionsOf numbered.blocks, sites := numbered.sites }
      (lowerParts scope (partsOf blocks) versions).emission := by
  obtain ⟨counter, calls⟩ :=
    seed_counts (blocks.flatMap fun block => block.accesses.names) versions
  exact numberFrom_alike (graphOf blocks) scope [] ⟨counter, calls⟩ blocks

/-- Nothing is lost, repeated or moved on the way to blocks: they hold the instructions that
the whole body lowers to, equal in all but the versions read, and record the same calls. -/
theorem flowBlocks_inSourceOrder (scope : Scope) (statements : List Statement) :
    let numbered := numberBlocks scope {} (flowBlocks statements).1
    let lowered := (Statement.lowerBody scope statements {}).emission
    (instructionsOf numbered.blocks).length = lowered.instructions.length ∧
      (instructionsOf numbered.blocks).map Instruction.defs =
        lowered.instructions.map Instruction.defs ∧
      (instructionsOf numbered.blocks).map Instruction.unversioned =
        lowered.instructions.map Instruction.unversioned ∧
      numbered.sites = lowered.sites := by
  intro numbered lowered
  have alike : Emission.Alike
      { instructions := instructionsOf numbered.blocks, sites := numbered.sites } lowered := by
    have blockwise := numberBlocks_alike scope {} (flowBlocks statements).1
    rwa [lower_flowBlocks] at blockwise
  have defined (instruction : Instruction) : instruction.unversioned.defs = instruction.defs :=
    instruction.defs_substitute _
  refine ⟨?_, ?_, alike.instructions, alike.sites⟩
  · simpa using congrArg List.length alike.instructions
  · simpa [Function.comp_def, defined] using congrArg (List.map Instruction.defs) alike.instructions

end Reentrancy
