import Reentrancy.Proofs.Flow.TopLoops

/-! The branches of a body and their arms. A branch that stands in the body itself, not inside
another statement, has its test at the end of a block, and its two arms are the next two blocks;
what comes behind them is no arm. -/
namespace Reentrancy

/-- A branch among blocks: the block that ends in its test, and its arms right behind. -/
structure BranchAt (blocks : List Block) (condition : Expression) (yes no : List Statement)
    (index : Nat) (test onYes onNo : Block) : Prop where
  tested : blocks[index]? = some test
  ends : test.statements.getLast? = some (.branch condition yes no)
  whole : test.side = none
  leads : test.exit = .branch (Block.testOf condition) onYes.id onNo.id
  first : blocks[index + 1]? = some onYes
  firstSide : onYes.side = some true
  firstHolds : onYes.statements = yes
  second : blocks[index + 2]? = some onNo
  secondSide : onNo.side = some false
  secondHolds : onNo.statements = no
  behind : ∀ next, blocks[index + 3]? = some next → next.side = none

theorem filter_of_quiet {α : Type} {keep : α → Bool} {items : List α}
    (quiet : ∀ item ∈ items.dropLast, keep item = false) :
    items.filter keep = items.getLast?.toList.filter keep := by
  cases found : items.getLast? with
  | none =>
    rw [List.getLast?_eq_none_iff.mp found]
    rfl
  | some last =>
    obtain ⟨front, rfl⟩ := List.getLast?_eq_some_iff.mp found
    rw [List.dropLast_concat] at quiet
    have dropped : front.filter keep = [] := by
      rw [List.filter_eq_nil_iff]
      intro item member
      simp [quiet item member]
    rw [List.filter_append, dropped]
    rfl

def Statement.isBranch (statement : Statement) : Bool := statement.kind == .ifStatement

namespace Block

def isFirstArm (block : Block) : Bool := block.side == some true

theorem refine_starts (block : Block) (number : Nat) :
    ∃ first others, (block.refine number).1 = first :: others ∧ first.side = block.side := by
  unfold refine
  split <;> exact ⟨_, _, rfl, rfl⟩

theorem refine_firstArms {block : Block} (whole : block.side = none)
    (quiet : ∀ statement ∈ block.statements.dropLast, statement.isBranch = false) (number : Nat) :
    ((block.refine number).1.filter isFirstArm).length =
      (block.statements.filter (·.isBranch)).length := by
  have plain : block.isFirstArm = false := by simp [isFirstArm, whole]
  rw [filter_of_quiet quiet]
  unfold refine
  split
  next found =>
    rw [found]
    simp [refineBranch, ofBody, isFirstArm, whole, Statement.isBranch, Statement.kind]
  next found =>
    rw [found]
    simp [refineFor, loopInit, loopHeader, ofBody, loopExit, isFirstArm, whole, Statement.isBranch,
      Statement.kind]
  next found =>
    rw [found]
    simp [refineWhile, loopInit, loopHeader, ofBody, loopExit, isFirstArm, whole,
      Statement.isBranch, Statement.kind]
  next noBranch _ _ =>
    have idle : block.statements.getLast?.toList.filter (·.isBranch) = [] := by
      rw [List.filter_eq_nil_iff]
      intro last found
      rw [Option.mem_toList] at found
      cases last with
      | branch => exact (noBranch _ _ _ found).elim
      | expression value => cases value <;> simp [Statement.isBranch, Statement.kind]
      | _ => simp [Statement.isBranch, Statement.kind]
    rw [idle]
    simp [plain]

end Block

theorem refineBlocks_append (number : Nat) (first second : List Block) :
    (refineBlocks number (first ++ second)).1 =
      (refineBlocks number first).1 ++ (refineBlocks (refineBlocks number first).2 second).1 := by
  induction first generalizing number with
  | nil => rfl
  | cons block rest ih =>
    rw [List.cons_append, refineBlocks_cons, ih, refineBlocks_cons, List.append_assoc]
    rfl

theorem refineBlocks_firstArms (number : Nat) {blocks : List Block}
    (whole : ∀ block ∈ blocks, block.side = none)
    (quiet : ∀ block ∈ blocks, ∀ statement ∈ block.statements.dropLast,
      statement.isBranch = false) :
    ((refineBlocks number blocks).1.filter Block.isFirstArm).length =
      ((blocks.flatMap (·.statements)).filter (·.isBranch)).length := by
  induction blocks generalizing number with
  | nil => rfl
  | cons block rest ih =>
    rw [List.forall_mem_cons] at whole quiet
    rw [refineBlocks_cons, List.filter_append, List.length_append, List.flatMap_cons,
      List.filter_append, List.length_append, Block.refine_firstArms whole.1 quiet.1,
      ih _ whole.2 quiet.2]

theorem Statement.quiet_isBranch {statement : Statement} (quiet : statement.endsBlock = false) :
    statement.isBranch = false := by
  unfold endsBlock at quiet
  unfold isBranch
  cases kind : statement.kind <;> rw [kind] at quiet <;> first | rfl | cases quiet

section Flow

variable {body front rest : List Statement}

/-- A statement that ends a block is the last of one of the blocks of the cut body, and what that
block is refined to stands between what the blocks before and behind it are refined to. -/
theorem exists_refined {last : Statement} (split : body = front ++ last :: rest)
    (chosen : last.endsBlock = true) :
    ∃ early block late run number, (buildBlocks 0 body).1 = early ++ block :: late ∧
      early.flatMap (·.statements) ++ run = front ∧ block.statements = run ++ [last] ∧
      (∀ statement ∈ run, statement.endsBlock = false) ∧
      (flowBlocks body).1 = ((refineBlocks (buildBlocks 0 body).2 early).1 ++
        ((block.refine number).1 ++ (refineBlocks (block.refine number).2 late).1)).map
          fun block => block.finalize.track := by
  obtain ⟨runs, run, cut, whole⟩ := cutAfter_split Statement.endsBlock front rest chosen
  rw [← split] at cut
  have held := (linkBlocks_runs 0 _).trans cut
  obtain ⟨early, tail, parts, earlyHeld, tailHeld⟩ := List.map_eq_append_iff.mp held
  obtain ⟨block, late, rfl, blockHeld, _⟩ := List.map_eq_cons_iff.mp tailHeld
  have built : (buildBlocks 0 body).1 = early ++ block :: late := parts
  have quiet := cutAfter_quiet Statement.endsBlock
    (cut ▸ List.mem_append_right runs List.mem_cons_self)
  rw [List.dropLast_concat] at quiet
  refine ⟨early, block, late, run, (refineBlocks (buildBlocks 0 body).2 early).2, built, ?_,
    blockHeld, quiet, ?_⟩
  · rw [List.flatMap_def, earlyHeld, whole]
  · rw [← refineBlocks_cons, ← refineBlocks_append, ← built]
    simp only [flowBlocks, List.map_map]
    rfl

theorem buildBlocks_quiet_branches {block : Block} (member : block ∈ (buildBlocks 0 body).1) :
    ∀ statement ∈ block.statements.dropLast, statement.isBranch = false := by
  intro statement inside
  apply Statement.quiet_isBranch
  exact (buildBlocks_partitions 0 body).calm member statement inside

/-- A branch of a body has its test and arms; as many branches have their arms before it as stand
before it in the body. -/
theorem exists_branch {condition : Expression} {yes no : List Statement}
    (split : body = front ++ .branch condition yes no :: rest) :
    ∃ index test onYes onNo,
      BranchAt (flowBlocks body).1 condition yes no index test onYes onNo ∧
      (((flowBlocks body).1.take index).filter Block.isFirstArm).length =
        (front.filter (·.isBranch)).length := by
  obtain ⟨early, block, late, run, number, parts, whole, held, calm, flow⟩ :=
    exists_refined split rfl
  let ahead := (refineBlocks (buildBlocks 0 body).2 early).1
  let behind := (refineBlocks (number + 2) late).1
  have ends : block.statements.getLast? = some (.branch condition yes no) := by
    rw [held, List.getLast?_concat]
  have arms : block.refine number = (block.refineBranch number condition yes no, number + 2) := by
    rw [Block.refine, ends]
  rw [arms] at flow
  have blockAt (offset : Nat) : (flowBlocks body).1[ahead.length + offset]? =
      ((block.refineBranch number condition yes no ++ behind)[offset]?).map fun block =>
        block.finalize.track := by
    rw [flow, List.getElem?_map, getElem?_behind]
  have plain : ∀ other ∈ early ++ block :: late, other.side = none := by
    rw [← parts]
    exact linkBlocks_sides
  refine ⟨ahead.length, _, _, _,
    ⟨blockAt 0, ends, ?_, rfl, blockAt 1, rfl, rfl, blockAt 2, rfl, rfl, ?_⟩, ?_⟩
  · exact plain block (by simp)
  · intro next found
    rw [blockAt 3] at found
    cases late with
    | nil => cases found
    | cons following others =>
      obtain ⟨first, _, starts, side⟩ := following.refine_starts (number + 2)
      have here : behind = (following.refine (number + 2)).1 ++ _ := refineBlocks_cons ..
      rw [here, starts] at found
      obtain rfl := Option.some.inj found
      exact side.trans (plain following (by simp))
  · have counted := refineBlocks_firstArms (buildBlocks 0 body).2
      (fun other member => plain other (List.mem_append_left _ member))
      (fun other member => buildBlocks_quiet_branches (parts ▸ List.mem_append_left _ member))
    have ran : run.filter (·.isBranch) = [] := by
      rw [List.filter_eq_nil_iff]
      intro statement member
      simp [Statement.quiet_isBranch (calm statement member)]
    rw [flow, List.map_append, List.take_left' (List.length_map _), List.filter_map,
      List.length_map, ← whole, List.filter_append, ran, List.append_nil]
    exact counted

end Flow
end Reentrancy
