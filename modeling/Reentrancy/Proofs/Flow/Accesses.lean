import Reentrancy.Proofs.Access
import Reentrancy.Proofs.Flow.Order
import Reentrancy.Tree.Reading

/-! What blocks access. The blocks of a body access what its statements access, although the
parts of a branch or of a loop stand in several of them. The one thing added is that the header of
a loop reads what the body of the loop counts. -/
namespace Reentrancy

def Statement.loopCounters : Statement → List String
  | forLoop _ _ _ _ counters => counters
  | whileLoop _ _ counters => counters
  | _ => []

def partAccesses (part : Statement × Bool) : List Access :=
  if part.2 then part.1.headAccesses else part.1.accesses

section Parts

theorem accesses_wholes (statements : List Statement) :
    (wholes statements).flatMap partAccesses = Statement.bodyAccesses statements := by
  induction statements with
  | nil => rfl
  | cons first rest ih => exact congrArg (first.accesses ++ ·) ih

theorem Statement.mem_accesses_spread (statement : Statement) (access : Access) :
    access ∈ statement.spread.flatMap partAccesses ↔
      access ∈ statement.accesses ∨ access ∈ statement.loopCounters.map Access.read := by
  have headed (rest : List (Statement × Bool)) (last : Statement) :
      ((last, true) :: rest).flatMap partAccesses =
        last.headAccesses ++ rest.flatMap partAccesses := rfl
  cases statement with
  | branch condition yes no =>
    rw [spread, headed, List.flatMap_append, accesses_wholes, accesses_wholes, headAccesses,
      accesses, List.append_assoc]
    simp [loopCounters]
  | forLoop start condition step body counters =>
    rw [spread, List.flatMap_append, headed, List.flatMap_append, accesses_wholes,
      accesses_wholes, accesses_wholes, headAccesses, accesses, loopCounters]
    simp only [List.mem_append]
    grind
  | whileLoop condition body counters =>
    rw [spread, headed, accesses_wholes, headAccesses, accesses, loopCounters]
    simp only [List.mem_append]
    grind
  | _ => simp [spread, partAccesses, loopCounters]

end Parts

section Blocks

variable (body : List Statement) (access : Access)

theorem flowBlocks_tracked {block : Block} (member : block ∈ (flowBlocks body).1) :
    block.accesses = Accesses.unionAll
      (block.parts.map fun part => Accesses.ofList (partAccesses part)) := by
  obtain ⟨raw, _, rfl⟩ := List.mem_map.mp member
  rfl

theorem holds_flowBlocks :
    (Accesses.unionAll ((flowBlocks body).1.map (·.accesses))).holds access = true ↔
      access ∈ (partsOf (flowBlocks body).1).flatMap partAccesses ∧ access.name ≠ "" := by
  rw [Accesses.holds_unionAll]
  constructor
  · rintro ⟨_, listed, held⟩
    obtain ⟨block, member, rfl⟩ := List.mem_map.mp listed
    rw [flowBlocks_tracked body member, Accesses.holds_unionAll] at held
    obtain ⟨_, among, holds⟩ := held
    obtain ⟨part, inside, rfl⟩ := List.mem_map.mp among
    obtain ⟨touched, filled⟩ := (Accesses.holds_ofList _ access).mp holds
    have present : part ∈ partsOf (flowBlocks body).1 :=
      List.mem_flatMap.mpr ⟨block, member, inside⟩
    exact ⟨List.mem_flatMap.mpr ⟨part, present, touched⟩, filled⟩
  · rintro ⟨touched, filled⟩
    obtain ⟨part, present, listed⟩ := List.mem_flatMap.mp touched
    obtain ⟨block, member, inside⟩ := List.mem_flatMap.mp present
    refine ⟨_, List.mem_map_of_mem member, ?_⟩
    rw [flowBlocks_tracked body member, Accesses.holds_unionAll]
    exact ⟨_, List.mem_map_of_mem inside, (Accesses.holds_ofList _ access).mpr ⟨listed, filled⟩⟩

theorem holds_statements :
    (Accesses.unionAll (body.map (·.accessesOf false))).holds access = true ↔
      (∃ statement ∈ body, access ∈ statement.accesses) ∧ access.name ≠ "" := by
  rw [Accesses.holds_unionAll]
  constructor
  · rintro ⟨_, listed, held⟩
    obtain ⟨statement, member, rfl⟩ := List.mem_map.mp listed
    obtain ⟨touched, filled⟩ := (Accesses.holds_ofList _ access).mp held
    exact ⟨⟨statement, member, touched⟩, filled⟩
  · rintro ⟨⟨statement, member, touched⟩, filled⟩
    exact ⟨_, List.mem_map_of_mem member, (Accesses.holds_ofList _ access).mpr ⟨touched, filled⟩⟩

theorem holds_flowBlocks_iff :
    (Accesses.unionAll ((flowBlocks body).1.map (·.accesses))).holds access = true ↔
      (Accesses.unionAll (body.map (·.accessesOf false))).holds access = true ∨
        ∃ name ∈ body.flatMap Statement.loopCounters, name ≠ "" ∧ access = .read name := by
  rw [holds_flowBlocks, holds_statements, partsOf_flowBlocks, List.flatMap_assoc]
  constructor
  · rintro ⟨touched, filled⟩
    obtain ⟨statement, member, inside⟩ := List.mem_flatMap.mp touched
    rcases (statement.mem_accesses_spread access).mp inside with own | counted
    · exact .inl ⟨⟨statement, member, own⟩, filled⟩
    · obtain ⟨name, counter, rfl⟩ := List.mem_map.mp counted
      exact .inr ⟨name, List.mem_flatMap.mpr ⟨statement, member, counter⟩, filled, rfl⟩
  · rintro (⟨⟨statement, member, own⟩, filled⟩ | ⟨name, listed, filled, rfl⟩)
    · have inside := (statement.mem_accesses_spread access).mpr (.inl own)
      exact ⟨List.mem_flatMap.mpr ⟨statement, member, inside⟩, filled⟩
    · obtain ⟨statement, member, counter⟩ := List.mem_flatMap.mp listed
      have inside := (statement.mem_accesses_spread (.read name)).mpr
        (.inr (List.mem_map_of_mem counter))
      exact ⟨List.mem_flatMap.mpr ⟨statement, member, inside⟩, filled⟩

end Blocks

theorem Statement.loopCounters_ofJson (node : Json) :
    (ofJson node).loopCounters =
      if node.tag = "ForStatement" ∨ node.tag = "WhileStatement" then
        ((node.child? "body").map counters).getD []
      else [] := by
  rw [ofJson]
  split <;> simp_all [loopCounters]

/-- Blocks write what the statements of the body write. They read what the statements read, and
the names that the bodies of its loops count. -/
theorem flowBlocks_keepAccesses (body : List Statement) :
    let tracked := Accesses.unionAll ((flowBlocks body).1.map (·.accesses))
    let whole := Accesses.unionAll (body.map (·.accessesOf false))
    tracked.writes = whole.writes ∧
      tracked.reads = whole.reads.union
        (Names.ofList ((body.flatMap Statement.loopCounters).filter (· ≠ ""))) ∧
      ∀ node : Json, (Statement.ofJson node).loopCounters =
        if node.tag = "ForStatement" ∨ node.tag = "WhileStatement" then
          ((node.child? "body").map counters).getD []
        else [] := by
  intro tracked whole
  refine ⟨Names.ext_contains fun name => ?_, Names.ext_contains fun name => ?_,
    Statement.loopCounters_ofJson⟩
  · refine (holds_flowBlocks_iff body (.write name)).trans ⟨?_, .inl⟩
    rintro (own | ⟨_, _, _, other⟩)
    · exact own
    · cases other
  · rw [Names.contains_union, Names.contains_ofList]
    refine (holds_flowBlocks_iff body (.read name)).trans (or_congr_right ?_)
    rw [List.mem_filter, decide_eq_true_eq]
    constructor
    · rintro ⟨other, counted, filled, same⟩
      obtain rfl := Access.read.inj same
      exact ⟨counted, filled⟩
    · rintro ⟨counted, filled⟩
      exact ⟨name, counted, filled, rfl⟩

end Reentrancy
