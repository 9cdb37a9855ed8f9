import Reentrancy.Proofs.Flow.Edges
import Reentrancy.Proofs.Flow.Shape

/-! Where jumps go. A jump leads forward in the list of blocks or back to the header of a loop,
and no block between that header and the jump is an arm of a branch. -/
namespace Reentrancy

/-- The jump of a block to `target`, between the blocks before it and the ids after it. -/
inductive Leads (before : List Block) (block : Block) (after : List String) (target : String) :
    Prop where
  | forward (later : target ∈ after)
  | back (front inner : List Block) (header : Block)
      (split : before ++ [block] = front ++ header :: inner) (named : header.id = target)
      (plain : ∀ other ∈ inner, other.side = none)

def JumpsLead (later : List String) : List Block → List Block → Prop
  | _, [] => True
  | before, block :: rest =>
    (∀ target, block.exit = .goto target →
      Leads before block (rest.map (·.id) ++ later) target) ∧
      JumpsLead later (before ++ [block]) rest

namespace JumpsLead

variable {later : List String} {before : List Block}

theorem append {first second : List Block}
    (one : JumpsLead (second.map (·.id) ++ later) before first)
    (two : JumpsLead later (before ++ first) second) :
    JumpsLead later before (first ++ second) := by
  induction first generalizing before with
  | nil => simpa using two
  | cons block rest ih =>
    obtain ⟨here, others⟩ := one
    refine ⟨fun target jump => ?_, ih others ?_⟩
    · have leads := here target jump
      rwa [← List.append_assoc, ← List.map_append] at leads
    · rwa [List.append_assoc]

theorem leads {front rest : List Block} {block : Block} {target : String}
    (jumps : JumpsLead later before (front ++ block :: rest))
    (jump : block.exit = .goto target) :
    Leads (before ++ front) block (rest.map (·.id) ++ later) target := by
  induction front generalizing before with
  | nil =>
    rw [List.append_nil]
    exact jumps.1 target jump
  | cons first others ih =>
    have inner := ih jumps.2
    rwa [List.append_assoc] at inner

theorem map (change : Block → Block) (ids : ∀ block, (change block).id = block.id)
    (sides : ∀ block, (change block).side = block.side)
    (jumps : ∀ block target, (change block).exit = .goto target → block.exit = .goto target)
    {blocks : List Block} (leads : JumpsLead later before blocks) :
    JumpsLead later (before.map change) (blocks.map change) := by
  induction blocks generalizing before with
  | nil => trivial
  | cons block rest ih =>
    have named : (rest.map change).map (·.id) = rest.map (·.id) := by simp [ids]
    have placed : before.map change ++ [change block] = (before ++ [block]).map change := by simp
    constructor
    · intro target jump
      rw [named]
      cases leads.1 target (jumps block target jump) with
      | forward found => exact .forward found
      | back front inner header split same plain =>
        refine .back (front.map change) (inner.map change) (change header) ?_ ?_ ?_
        · rw [placed, split, List.map_append, List.map_cons]
        · rw [ids, same]
        · intro other member
          obtain ⟨old, inside, rfl⟩ := List.mem_map.mp member
          rw [sides, plain old inside]
    · have later := ih leads.2
      rwa [← placed] at later

end JumpsLead

namespace Exit

theorem targets_goto {exit : Exit} {target : String} (jump : exit = .goto target) :
    target ∈ exit.targets := by
  rw [jump]
  exact List.mem_singleton_self target

end Exit

namespace Block

variable {block : Block} {later : List String} (before : List Block) (number : Nat)

theorem refineBranch_leads (known : ∀ target ∈ block.exit.targets, target ∈ later)
    (condition : Expression) (yes no : List Statement) :
    JumpsLead later before (block.refineBranch number condition yes no) := by
  have leaves {body : List Statement} {target : String} (jump :
      Exit.closing body (Exit.gotoOrPending block.continuation) = .goto target) :
      target ∈ later :=
    known target (targets_continuation (Exit.targets_closing (Exit.targets_goto jump)))
  refine ⟨fun target jump => ?_, fun target jump => ?_, fun target jump => ?_, trivial⟩
  · cases jump
  · exact .forward (List.mem_append_right _ (leaves jump))
  · exact .forward (List.mem_append_right _ (leaves jump))

theorem loopExit_leads (known : ∀ target ∈ block.exit.targets, target ∈ later) (id : String)
    {target : String} (jump : (block.loopExit id).exit = .goto target) :
    target ∈ later :=
  known target (targets_continuation (Exit.targets_goto jump))

theorem refineFor_leads (known : ∀ target ∈ block.exit.targets, target ∈ later) (loop : Statement)
    (start : List Statement) (condition : Expression) (step body : List Statement) :
    JumpsLead later before (block.refineFor number loop start condition step body) := by
  refine ⟨fun target jump => ?_, fun target jump => ?_, fun target jump => ?_,
    fun target jump => ?_, fun target jump => ?_, trivial⟩
  · cases jump
    exact .forward List.mem_cons_self
  · cases jump
  · obtain rfl := List.mem_singleton.mp (Exit.targets_closing (Exit.targets_goto jump))
    exact .forward List.mem_cons_self
  · cases jump
    refine .back (before ++ [block.loopInit start (blockId number)]) [?inner, ?increment]
      (loopHeader (blockId number) loop condition (blockId (number + 1)) (blockId (number + 3)))
      ?split rfl ?plain
    case split =>
      simp only [List.append_assoc, List.cons_append, List.nil_append]
      rfl
    case plain =>
      intro other member
      rcases List.mem_cons.mp member with rfl | last
      · rfl
      · obtain rfl := List.mem_singleton.mp last
        rfl
  · exact .forward (List.mem_append_right _ (loopExit_leads known _ jump))

theorem refineWhile_leads (known : ∀ target ∈ block.exit.targets, target ∈ later)
    (loop : Statement) (condition : Expression) (body : List Statement) :
    JumpsLead later before (block.refineWhile number loop condition body) := by
  refine ⟨fun target jump => ?_, fun target jump => ?_, fun target jump => ?_,
    fun target jump => ?_, trivial⟩
  · cases jump
    exact .forward List.mem_cons_self
  · cases jump
  · obtain rfl := List.mem_singleton.mp (Exit.targets_closing (Exit.targets_goto jump))
    refine .back (before ++ [block.loopInit [] (blockId number)]) [?inner]
      (loopHeader (blockId number) loop condition (blockId (number + 1)) (blockId (number + 2)))
      ?split rfl ?plain
    case split =>
      simp only [List.append_assoc, List.cons_append, List.nil_append]
      rfl
    case plain =>
      intro other member
      obtain rfl := List.mem_singleton.mp member
      rfl
  · exact .forward (List.mem_append_right _ (loopExit_leads known _ jump))

theorem refine_leads (known : ∀ target ∈ block.exit.targets, target ∈ later) :
    JumpsLead later before (block.refine number).1 := by
  unfold refine
  split
  · exact refineBranch_leads before number known ..
  · exact refineFor_leads before number known ..
  · exact refineWhile_leads before number known ..
  · refine ⟨fun target jump => ?_, trivial⟩
    exact .forward (known target (Exit.targets_goto jump))

theorem goto_of_finalize (block : Block) {target : String}
    (jump : block.finalize.exit = .goto target) : block.exit = .goto target := by
  unfold finalize at jump
  cases found : block.exit with
  | goto other => simpa [found, Exit.isPending] using jump
  | _ => simp [found, Exit.isPending] at jump

end Block

theorem ids_subset_refineBlocks (number : Nat) (blocks : List Block) {id : String}
    (member : id ∈ (graphOf blocks).ids) : id ∈ (graphOf (refineBlocks number blocks).1).ids := by
  obtain ⟨_, _, shuffled⟩ := (refineBlocks_replaces number blocks).named
  exact shuffled.mem_iff.mpr (List.mem_append_left _ member)

theorem graphOf_ids (blocks : List Block) : (graphOf blocks).ids = blocks.map (·.id) := by
  simp [graphOf, Graph.ids, Block.vertex]

theorem refineBlocks_leads (free number : Nat) (runs : List (List Statement))
    (before : List Block) :
    JumpsLead [] before (refineBlocks free (linkBlocks number runs)).1 := by
  induction runs generalizing free number before with
  | nil => trivial
  | cons run rest ih =>
    cases rest with
    | nil =>
      refine (Block.refine_leads before free fun target named => ?_).append trivial
      cases Exit.targets_closing named
    | cons next others =>
      refine (Block.refine_leads before free fun target named => ?_).append (ih _ (number + 1) _)
      have following : target = blockId (number + 1) :=
        List.mem_singleton.mp (Exit.targets_closing named)
      have known : target ∈ (graphOf (linkBlocks (number + 1) (next :: others))).ids := by
        rw [linkBlocks_ids, following, mem_numberedIds]
        exact ⟨number + 1, by omega, by simp, rfl⟩
      rw [List.append_nil, ← graphOf_ids]
      exact ids_subset_refineBlocks _ _ known

namespace Graph

/-- Back edges go over blocks that are no arms of a branch. -/
def LoopsApart (graph : Graph) (sides : List (Option Bool)) : Prop :=
  ∀ source target, graph.backTarget? source = some target →
    ∀ index, target < index → index ≤ source → sides[index]? = some none

end Graph

theorem exists_split {α : Type} {items : List α} {index : Nat} {item : α}
    (located : items[index]? = some item) :
    ∃ front rest, items = front ++ item :: rest ∧ front.length = index := by
  obtain ⟨bound, rfl⟩ := List.getElem?_eq_some_iff.mp located
  refine ⟨items.take index, items.drop (index + 1), by simp, ?_⟩
  exact List.length_take_of_le (Nat.le_of_lt bound)

theorem JumpsLead.loopsApart {blocks : List Block} (jumps : JumpsLead [] [] blocks)
    (distinct : (graphOf blocks).ids.Nodup) :
    (graphOf blocks).LoopsApart (blocks.map (·.side)) := by
  intro source target found index above below
  obtain ⟨_, id, located, jump, position, backward⟩ := Graph.backTarget?_eq_some found
  obtain ⟨vertex, there, named⟩ := Graph.getElem?_of_position? position
  have vertexAt {place : Nat} {block : Block} (found : blocks[place]? = some block) :
      (graphOf blocks)[place]? = some block.vertex := by simp [graphOf, found]
  have placed {place : Nat} {block : Block} (found : blocks[place]? = some block)
      (same : block.id = id) : target = place :=
    (Graph.eq_of_id distinct there (vertexAt found) (named.trans same.symm)).1
  obtain ⟨block, here, rfl⟩ := Option.map_eq_some_iff.mp (List.getElem?_map.symm.trans located)
  obtain ⟨front, rest, whole, rfl⟩ := exists_split here
  cases (whole ▸ jumps).leads jump with
  | forward later =>
    rw [List.append_nil] at later
    obtain ⟨other, member, same⟩ := List.mem_map.mp later
    obtain ⟨offset, found⟩ := List.getElem?_of_mem member
    have further : blocks[front.length + (offset + 1)]? = some other := by
      rw [whole, List.getElem?_append_right (by omega)]
      simpa using found
    have equal := placed further same
    omega
  | back early inner header split same plain =>
    have whole : blocks = early ++ header :: (inner ++ rest) := by
      have joined := congrArg (· ++ rest) split
      simpa [whole] using joined
    have length : front.length + 1 = early.length + (inner.length + 1) := by
      simpa using congrArg List.length split
    have equal : target = early.length := placed (by simp [whole]) same
    have inside : index - early.length - 1 < inner.length := by omega
    have found : blocks[index]? = some inner[index - early.length - 1] := by
      rw [whole, List.getElem?_append_right (by omega), List.getElem?_cons, if_neg (by omega),
        List.getElem?_append_left inside, List.getElem?_eq_getElem inside]
    simp [found, plain _ (List.getElem_mem inside)]

theorem flowBlocks_loopsApart (body : List Statement) :
    (graphOf (flowBlocks body).1).LoopsApart ((flowBlocks body).1.map (·.side)) := by
  apply JumpsLead.loopsApart
  · have built := refineBlocks_leads (buildBlocks 0 body).2 0 (cutAfter Statement.endsBlock body) []
    have finalized := built.map Block.finalize (fun _ => rfl) (fun _ => rfl) fun block target jump =>
      block.goto_of_finalize jump
    exact finalized.map Block.track (fun _ => rfl) (fun _ => rfl) fun _ _ jump => jump
  · exact (flowBlocks_numbered body).distinct

end Reentrancy
