import Mathlib.Data.List.Chain
import Reentrancy.Proofs.Flow.TopBranches

/-! Loops as rings of blocks. The header of a loop leads into the body, the body on to the step if
there is one, and the last of them back to the header, so that each of these blocks reaches all of
them. -/
namespace Reentrancy

/-- A loop that tests first and whose body is not left at its end: a round runs through `bodies`. -/
inductive Statement.Repeats : Statement → List (List Statement) → Prop where
  | forLoop (start : List Statement) (condition : Expression) (step : List Statement)
      {body : List Statement} (counters : List String)
      (stays : ∀ last, body.getLast? = some last → last.kind ≠ .ret ∧ last.isRevert = false) :
      Repeats (.forLoop start condition step body counters) [body, step]
  | whileLoop (condition : Expression) {body : List Statement} (counters : List String)
      (stays : ∀ last, body.getLast? = some last → last.kind ≠ .ret ∧ last.isRevert = false) :
      Repeats (.whileLoop condition body counters) [body]

def Block.Leads (one two : Block) : Prop := two.id ∈ one.exit.targets

/-- A loop among blocks: from `index` on its header and the blocks of a round, each leading to the
next and the last to the header. -/
structure RingAt (blocks : List Block) (loop : Statement) (bodies : List (List Statement))
    (index : Nat) (header : Block) (round : List Block) : Prop where
  listed : (blocks.drop index).take (bodies.length + 1) = header :: round
  role : header.role = some .header
  holds : header.statements = [loop]
  runs : round.map (·.statements) = bodies
  leads : List.IsChain Block.Leads (header :: round ++ [header])

section Refining

variable {loop : Statement} {bodies : List (List Statement)} (repeats : loop.Repeats bodies)

include repeats

theorem Statement.Repeats.endsBlock : loop.endsBlock = true := by
  cases repeats <;> rfl

theorem Block.refine_ring {block : Block} (ends : block.statements.getLast? = some loop)
    (number : Nat) :
    ∃ init header round exit, ((block.refine number).1.map fun block => block.finalize.track) =
        init :: header :: round ++ [exit] ∧
      init.isHeader = false ∧ header.role = some .header ∧ header.statements = [loop] ∧
      round.map (·.statements) = bodies ∧
      List.IsChain Block.Leads (header :: round ++ [header]) := by
  rw [refine, ends]
  cases repeats with
  | forLoop start condition step counters stays =>
    refine ⟨_, _, [_, _], _, rfl, rfl, rfl, rfl, rfl, ?_⟩
    refine .cons_cons (.head _) (.cons_cons ?_ (.cons_cons (.head _) (.singleton _)))
    rw [Leads, ofBody, Exit.closing_of_stays stays]
    exact .head _
  | whileLoop condition counters stays =>
    refine ⟨_, _, [_], _, rfl, rfl, rfl, rfl, rfl, ?_⟩
    refine .cons_cons (.head _) (.cons_cons ?_ (.singleton _))
    rw [Leads, ofBody, Exit.closing_of_stays stays]
    exact .head _

end Refining

theorem exists_ring {body front rest : List Statement} {loop : Statement}
    {bodies : List (List Statement)} (split : body = front ++ loop :: rest)
    (repeats : loop.Repeats bodies) :
    ∃ index header round, RingAt (flowBlocks body).1 loop bodies index header round ∧
      (((flowBlocks body).1.take index).filter Block.isHeader).length =
        (front.filter (·.kind.isLoop)).length := by
  obtain ⟨early, block, late, run, number, parts, whole, held, calm, flow⟩ :=
    exists_refined split repeats.endsBlock
  have ends : block.statements.getLast? = some loop := by rw [held, List.getLast?_concat]
  obtain ⟨init, header, round, exit, segment, before, role, holds, runs, leads⟩ :=
    Block.refine_ring repeats ends number
  let ahead := (refineBlocks (buildBlocks 0 body).2 early).1.map fun block => block.finalize.track
  rw [List.map_append, List.map_append, segment] at flow
  have shape : (flowBlocks body).1 = (ahead ++ [init]) ++ ((header :: round) ++ (exit ::
      (refineBlocks (block.refine number).2 late).1.map fun block => block.finalize.track)) := by
    rw [flow]
    simp [ahead]
  refine ⟨(ahead ++ [init]).length, header, round, ⟨?_, role, holds, runs, leads⟩, ?_⟩
  · rw [shape, List.drop_left, List.take_left']
    simp [← runs]
  · have member {other : Block} (inside : other ∈ early) : other ∈ (buildBlocks 0 body).1 :=
      parts ▸ List.mem_append_left _ inside
    have counted := congrArg List.length (refineBlocks_headers
      (fun other inside => linkBlocks_unmarked 0 _ other (member inside)) (buildBlocks 0 body).2
      (fun other inside => buildBlocks_quiet body (member inside)))
    rw [List.length_map, List.length_map] at counted
    have ran : run.filter (·.kind.isLoop) = [] := by
      rw [List.filter_eq_nil_iff]
      intro statement inside
      simp [Statement.quiet_isLoop (calm statement inside)]
    have headers : (ahead.filter Block.isHeader).length =
        ((refineBlocks (buildBlocks 0 body).2 early).1.filter Block.isHeader).length := by
      rw [List.filter_map, List.length_map]
      rfl
    rw [shape, List.take_left, List.filter_append, List.filter_cons_of_neg (by simp [before]),
      List.filter_nil, List.append_nil, headers, counted, ← whole, List.filter_append, ran,
      List.append_nil]

end Reentrancy
