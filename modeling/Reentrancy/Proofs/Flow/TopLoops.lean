import Reentrancy.Proofs.Access
import Reentrancy.Proofs.Flow.Layout

/-! The loops of a body and their headers. A loop that stands in the body itself, not inside
another statement, has one header; headers come in the order of the loops, and the blocks of a
round follow the header. -/
namespace Reentrancy

namespace Statement

/-- A loop that tests `condition` first and can go round: its rounds run through `bodies`. -/
inductive Circles : Statement → Expression → List String → List (List Statement) → Prop where
  | forLoop (start : List Statement) (condition : Expression) (step body : List Statement)
      (counters : List String) :
      Circles (.forLoop start condition step body counters) condition counters [body, step]
  | whileLoop (condition : Expression) {body : List Statement} (counters : List String)
      (stays : ∀ last, body.getLast? = some last → last.kind ≠ .ret ∧ last.isRevert = false) :
      Circles (.whileLoop condition body counters) condition counters [body]

variable {loop : Statement} {condition : Expression} {counters : List String}
  {bodies : List (List Statement)}

theorem Circles.isLoop (circles : loop.Circles condition counters bodies) :
    loop.kind.isLoop = true := by
  cases circles <;> rfl

theorem Circles.headAccesses (circles : loop.Circles condition counters bodies) :
    loop.headAccesses = condition.accesses .value ++ counters.map Access.read := by
  cases circles <;> rfl

theorem quiet_isLoop {statement : Statement} (quiet : statement.endsBlock = false) :
    statement.kind.isLoop = false := by
  unfold endsBlock at quiet
  cases kind : statement.kind <;> rw [kind] at quiet <;> first | rfl | cases quiet

end Statement

theorem Exit.closing_of_stays {body : List Statement}
    (stays : ∀ last, body.getLast? = some last → last.kind ≠ .ret ∧ last.isRevert = false)
    (otherwise : Exit) : closing body otherwise = otherwise := by
  unfold closing
  cases found : body.getLast? with
  | none => rfl
  | some last => simp [(stays last found).1, (stays last found).2]

namespace Block

def isHeader (block : Block) : Bool := block.role == some .header

structure Heads (blocks : List Block) (index : Nat) (header : Block) (loop : Statement) : Prop where
  holds : header.statements = [loop]
  tests : header.exit.isBranch = true
  whole : loop.kind.isStructured = true
  rounds : ∀ condition counters bodies, loop.Circles condition counters bodies →
    Rounds (blocks.map Block.finished) (index + bodies.length) index ∧
      ((blocks.drop (index + 1)).take bodies.length).map (·.statements) = bodies

variable {block : Block}

theorem refine_heads (unmarked : block.role = none) (number : Nat) {index : Nat} {header : Block}
    (located : (block.refine number).1[index]? = some header) (role : header.isHeader = true) :
    ∃ loop, Heads (block.refine number).1 index header loop := by
  unfold refine at located ⊢
  split at located
  next =>
    match index, located with
    | 0, rfl => simp [isHeader, unmarked] at role
    | 1, rfl => cases role
    | 2, rfl => cases role
  next start condition step body counters found =>
    match index, located with
    | 0, rfl => cases role
    | 1, rfl =>
      refine ⟨_, rfl, rfl, rfl, ?_⟩
      rintro _ _ _ ⟨⟩
      exact ⟨⟨rfl, rfl, rfl, rfl, rfl, .inr ⟨rfl, rfl⟩⟩, rfl⟩
    | 2, rfl => cases role
    | 3, rfl => cases role
    | 4, rfl => cases role
  next condition body counters found =>
    match index, located with
    | 0, rfl => cases role
    | 1, rfl =>
      refine ⟨_, rfl, rfl, rfl, ?_⟩
      intro _ _ _ circles
      cases circles with
      | whileLoop _ _ stays =>
        have goes : (Exit.closing body (.goto (blockId number))).final =
            .goto (blockId number) := by
          rw [Exit.closing_of_stays stays]
          rfl
        exact ⟨⟨rfl, rfl, rfl, rfl, goes, .inl ⟨rfl, rfl⟩⟩, rfl⟩
    | 2, rfl => cases role
    | 3, rfl => cases role
  next =>
    match index, located with
    | 0, rfl => simp [isHeader, unmarked] at role

theorem Heads.before {blocks : List Block} {index : Nat} {header : Block} {loop : Statement}
    (heads : Heads blocks index header loop) (rest : List Block) :
    Heads (blocks ++ rest) index header loop := by
  refine ⟨heads.holds, heads.tests, heads.whole, fun condition counters bodies circles => ?_⟩
  obtain ⟨rounds, inner⟩ := heads.rounds condition counters bodies circles
  obtain @⟨_, _, headed, role, plain, ended, leads, inside⟩ := rounds
  have within {place : Nat} {outline : Outline}
      (found : (blocks.map finished)[place]? = some outline) :
      ((blocks ++ rest).map finished)[place]? = some outline := by
    rw [List.map_append, List.getElem?_append_left (List.getElem?_eq_some_iff.mp found).1]
    exact found
  have bound : index + bodies.length < blocks.length := by
    simpa using (List.getElem?_eq_some_iff.mp ended).1
  refine ⟨⟨within headed, role, plain, within ended, leads, inside⟩, ?_⟩
  rw [List.drop_append_of_le_length (by omega), List.take_append_of_le_length]
  · exact inner
  · rw [List.length_drop]
    omega

theorem Heads.behind {blocks : List Block} {index : Nat} {header : Block} {loop : Statement}
    (heads : Heads blocks index header loop) (front : List Block) :
    Heads (front ++ blocks) (front.length + index) header loop := by
  refine ⟨heads.holds, heads.tests, heads.whole, fun condition counters bodies circles => ?_⟩
  obtain ⟨rounds, inner⟩ := heads.rounds condition counters bodies circles
  have moved := rounds.behind (front.map finished)
  rw [List.length_map, ← List.map_append, ← Nat.add_assoc] at moved
  refine ⟨moved, ?_⟩
  rw [Nat.add_assoc, List.drop_append, List.drop_eq_nil_of_le (by omega), Nat.add_sub_cancel_left]
  exact inner

theorem refine_headers (unmarked : block.role = none)
    (quiet : ∀ statement ∈ block.statements.dropLast, statement.kind.isLoop = false)
    (number : Nat) :
    ((block.refine number).1.filter isHeader).map (·.statements) =
      (block.statements.filter (·.kind.isLoop)).map ([·]) := by
  have plain : block.isHeader = false := by simp [isHeader, unmarked]
  -- Only the last statement of the block can be a loop.
  have loops {last : Statement} (found : block.statements.getLast? = some last) :
      block.statements.filter (·.kind.isLoop) = [last].filter (·.kind.isLoop) := by
    obtain ⟨front, statements⟩ := List.getLast?_eq_some_iff.mp found
    rw [statements, List.dropLast_concat] at quiet
    rw [statements, List.filter_append, List.filter_eq_nil_iff.mpr, List.nil_append]
    intro statement member
    simp [quiet statement member]
  unfold refine
  split
  next found =>
    rw [loops found]
    simp [refineBranch, isHeader, unmarked, ofBody, Statement.kind, StatementKind.isLoop]
  next found =>
    rw [loops found]
    rfl
  next found =>
    rw [loops found]
    rfl
  next noFor noWhile =>
    cases found : block.statements.getLast? with
    | none =>
      rw [List.getLast?_eq_none_iff.mp found]
      simp [plain]
    | some last =>
      have idle : last.kind.isLoop = false := by
        cases last with
        | forLoop => exact (noFor _ _ _ _ _ found).elim
        | whileLoop => exact (noWhile _ _ _ found).elim
        | expression value => cases value <;> rfl
        | _ => rfl
      rw [loops found]
      simp [plain, idle]

end Block

section Blocks

variable {blocks : List Block} (unmarked : ∀ block ∈ blocks, block.role = none)

include unmarked

theorem refineBlocks_heads (number : Nat) {index : Nat} {header : Block}
    (located : (refineBlocks number blocks).1[index]? = some header)
    (role : header.isHeader = true) :
    ∃ loop, Block.Heads (refineBlocks number blocks).1 index header loop := by
  induction blocks generalizing number index with
  | nil => cases located
  | cons block rest ih =>
    rw [List.forall_mem_cons] at unmarked
    rw [refineBlocks_cons] at located ⊢
    rcases Nat.lt_or_ge index (block.refine number).1.length with here | later
    · rw [List.getElem?_append_left here] at located
      obtain ⟨loop, heads⟩ := Block.refine_heads unmarked.1 number located role
      exact ⟨loop, heads.before _⟩
    · obtain ⟨offset, rfl⟩ := Nat.exists_eq_add_of_le later
      rw [getElem?_behind] at located
      obtain ⟨loop, heads⟩ := ih unmarked.2 _ located
      exact ⟨loop, heads.behind _⟩

theorem refineBlocks_headers (number : Nat)
    (quiet : ∀ block ∈ blocks, ∀ statement ∈ block.statements.dropLast,
      statement.kind.isLoop = false) :
    ((refineBlocks number blocks).1.filter Block.isHeader).map (·.statements) =
      ((blocks.flatMap (·.statements)).filter (·.kind.isLoop)).map ([·]) := by
  induction blocks generalizing number with
  | nil => rfl
  | cons block rest ih =>
    rw [List.forall_mem_cons] at unmarked quiet
    rw [refineBlocks_cons, List.filter_append, List.map_append, List.flatMap_cons,
      List.filter_append, List.map_append, Block.refine_headers unmarked.1 quiet.1,
      ih unmarked.2 _ quiet.2]

end Blocks

section Flow

variable (body : List Statement)

theorem buildBlocks_quiet {block : Block} (member : block ∈ (buildBlocks 0 body).1) :
    ∀ statement ∈ block.statements.dropLast, statement.kind.isLoop = false := by
  intro statement inside
  apply Statement.quiet_isLoop
  exact (buildBlocks_partitions 0 body).calm member statement inside

theorem flowBlocks_headers :
    ((flowBlocks body).1.filter Block.isHeader).map (·.statements) =
      (body.filter (·.kind.isLoop)).map ([·]) := by
  have unmarked : ∀ block ∈ (buildBlocks 0 body).1, block.role = none := linkBlocks_unmarked 0 _
  have refined := refineBlocks_headers unmarked (buildBlocks 0 body).2
    fun block member => buildBlocks_quiet body member
  rw [(buildBlocks_partitions 0 body).whole] at refined
  rw [← refined]
  simp only [flowBlocks, List.filter_map, List.map_map]
  rfl

variable {body}

/-- A loop of a body has a header; as many headers stand before it as loops before the loop. -/
theorem exists_header {front rest : List Statement} {loop : Statement}
    (split : body = front ++ loop :: rest) (loops : loop.kind.isLoop = true) :
    ∃ index header, (flowBlocks body).1[index]? = some header ∧ header.isHeader = true ∧
      header.statements = [loop] ∧
      (((flowBlocks body).1.take index).filter Block.isHeader).length =
        (front.filter (·.kind.isLoop)).length := by
  have headers := flowBlocks_headers body
  rw [split, List.filter_append, List.filter_cons, if_pos loops, List.map_append,
    List.map_cons, ← split] at headers
  obtain ⟨before, others, whole, early, late⟩ := List.map_eq_append_iff.mp headers
  obtain ⟨header, _, rfl, holds, _⟩ := List.map_eq_cons_iff.mp late
  obtain ⟨left, right, blocks, lefts, rights⟩ := List.filter_eq_append_iff.mp whole
  obtain ⟨skipped, tail, rfl, quiet, role, _⟩ := List.filter_eq_cons_iff.mp rights
  refine ⟨(left ++ skipped).length, header, ?_, role, holds, ?_⟩
  · rw [blocks, ← List.append_assoc, List.getElem?_append_right (Nat.le_refl _), Nat.sub_self]
    rfl
  · rw [blocks, ← List.append_assoc, List.take_left', List.filter_append, lefts,
      List.filter_eq_nil_iff.mpr quiet, List.append_nil]
    · simpa using congrArg List.length early
    · rfl

theorem flowBlocks_heads {index : Nat} {header : Block}
    (located : (flowBlocks body).1[index]? = some header) (role : header.isHeader = true)
    {loop : Statement} (holds : header.statements = [loop]) {condition : Expression}
    {counters : List String} {bodies : List (List Statement)}
    (circles : loop.Circles condition counters bodies) :
    Rounds (outlinesOf (flowBlocks body).1) (index + bodies.length) index ∧
      (((flowBlocks body).1.drop (index + 1)).take bodies.length).map (·.statements) = bodies ∧
      ∀ name, name ≠ "" → .read name ∈ condition.accesses .value ∨ name ∈ counters →
        header.accesses.reads.contains name = true := by
  let refined := (refineBlocks (buildBlocks 0 body).2 (buildBlocks 0 body).1).1
  have blocks : (flowBlocks body).1 = refined.map fun block => block.finalize.track := by
    simp only [flowBlocks, List.map_map]
    rfl
  have outlines : outlinesOf (flowBlocks body).1 = refined.map Block.finished := by
    rw [blocks, outlinesOf, List.map_map]
    rfl
  rw [blocks, List.getElem?_map] at located
  obtain ⟨raw, found, rfl⟩ := Option.map_eq_some_iff.mp located
  obtain ⟨other, heads⟩ := refineBlocks_heads (linkBlocks_unmarked 0 _) _ found role
  obtain rfl : loop = other := by
    have same : [loop] = [other] := holds.symm.trans heads.holds
    exact (List.cons.inj same).1
  obtain ⟨rounds, inner⟩ := heads.rounds condition counters bodies circles
  refine ⟨outlines ▸ rounds, ?_, fun name filled reads => ?_⟩
  · rw [blocks, ← List.map_drop, ← List.map_take, List.map_map]
    exact inner
  · have parts : raw.finalize.parts = [(loop, true)] := by
      rw [Block.parts_finalize, Block.parts, heads.holds, withHeads, heads.tests, heads.whole]
      rfl
    have accesses : raw.finalize.track.accesses =
        Accesses.union {} (Accesses.ofList loop.headAccesses) := by
      rw [Block.track, parts]
      rfl
    rw [accesses]
    have listed : .read name ∈ loop.headAccesses := by
      rw [circles.headAccesses, List.mem_append, List.mem_map]
      exact reads.imp_right fun counter => ⟨name, counter, rfl⟩
    exact (Accesses.holds_union _ _ (.read name)).mpr
      (.inr ((Accesses.holds_ofList _ (.read name)).mpr ⟨listed, filled⟩))

end Flow
end Reentrancy
