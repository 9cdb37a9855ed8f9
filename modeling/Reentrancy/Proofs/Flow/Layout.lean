import Reentrancy.Proofs.Flow.Straight

/-! The layout of a body. Its blocks come in segments, one after another: a plain block, a branch
with its two arms, or a loop. A segment is entered at its first block and goes on to the first
block behind it; only the end of a loop body goes back, to the header of the loop. -/
namespace Reentrancy

structure Outline where
  id : String
  exit : Exit
  role : Option LoopRole
  side : Option Bool

def Outline.vertex (outline : Outline) : Vertex := ⟨outline.id, outline.exit⟩

def Block.outline (block : Block) : Outline := ⟨block.id, block.exit, block.role, block.side⟩

def outlinesOf (blocks : List Block) : List Outline := blocks.map Block.outline

def outlineGraph (outlines : List Outline) : Graph := outlines.map Outline.vertex

theorem outlineGraph_outlinesOf (blocks : List Block) :
    outlineGraph (outlinesOf blocks) = graphOf blocks := by
  simp [outlineGraph, outlinesOf, graphOf, Outline.vertex, Block.outline, Block.vertex]

section Positions

variable {blocks : List Block} {index : Nat} {block : Block}

theorem getElem?_graphOf (located : blocks[index]? = some block) :
    (graphOf blocks)[index]? = some block.vertex := by
  simp [graphOf, located]

theorem getElem?_outlinesOf (located : blocks[index]? = some block) :
    (outlinesOf blocks)[index]? = some block.outline := by
  simp [outlinesOf, located]

theorem getElem?_of_outlinesOf {outline : Outline}
    (found : (outlinesOf blocks)[index]? = some outline) :
    ∃ block, blocks[index]? = some block ∧ block.outline = outline := by
  simpa [outlinesOf] using found

end Positions

theorem outlineGraph_append (first second : List Outline) :
    outlineGraph (first ++ second) = outlineGraph first ++ outlineGraph second := List.map_append

/-- A body goes on to `next` unless its last statement leaves the function. -/
def Exit.Ends (exit next : Exit) : Prop := exit = next ∨ exit = .ret ∨ exit = .revert

theorem Exit.Ends.targets {exit next : Exit} (ends : exit.Ends next) {target : String}
    (named : target ∈ exit.targets) : exit = next := by
  rcases ends with same | rfl | rfl
  · exact same
  · cases named
  · cases named

/-- The blocks that stand for one block of the cut body. -/
inductive Segment (next : Exit) : List Outline → Prop where
  | plain {id : String} {exit : Exit} (ends : exit.Ends next) : Segment next [⟨id, exit, none, none⟩]
  | branch {id yes no : String} {condition : Expression} {onYes onNo : Exit}
      (yesEnds : onYes.Ends next) (noEnds : onNo.Ends next) :
      Segment next [⟨id, .branch condition yes no, none, none⟩, ⟨yes, onYes, none, some true⟩,
        ⟨no, onNo, none, some false⟩]
  | forLoop {id header inner increment exit : String} {condition : Expression} {leave : Exit}
      (ends : leave.Ends (.goto increment)) :
      Segment next [⟨id, .goto header, some .init, none⟩,
        ⟨header, .branch condition inner exit, some .header, none⟩,
        ⟨inner, leave, some .body, none⟩, ⟨increment, .goto header, some .increment, none⟩,
        ⟨exit, next, some .exit, none⟩]
  | whileLoop {id header inner exit : String} {condition : Expression} {leave : Exit}
      (ends : leave.Ends (.goto header)) :
      Segment next [⟨id, .goto header, some .init, none⟩,
        ⟨header, .branch condition inner exit, some .header, none⟩,
        ⟨inner, leave, some .body, none⟩, ⟨exit, next, some .exit, none⟩]

inductive Laid : List Outline → Prop where
  | nil : Laid []
  | cons {segment rest : List Outline} (first : Segment (Exit.into (outlineGraph rest)) segment)
      (later : Laid rest) : Laid (segment ++ rest)

section Cutting

namespace Exit

def final (exit : Exit) : Exit := if exit.isPending then .ret else exit

theorem closing_ends (statements : List Statement) (otherwise : Exit) :
    (closing statements otherwise).final.Ends otherwise.final := by
  unfold closing
  split
  next last _ =>
    split
    · exact .inr (.inl rfl)
    · split
      · exact .inr (.inr rfl)
      · exact .inl rfl
  next => exact .inl rfl

theorem closing_of_structured {statements : List Statement} {last : Statement}
    (found : statements.getLast? = some last) (structured : last.kind.isStructured = true)
    (otherwise : Exit) : closing statements otherwise = otherwise := by
  have goes : last.kind ≠ .ret := by
    intro same
    rw [same] at structured
    cases structured
  have calm : last.isRevert = false := by
    cases last with
    | branch => rfl
    | forLoop => rfl
    | whileLoop => rfl
    | expression value => cases value <;> cases structured
    | _ => cases structured
  simp [closing, found, goes, calm]

end Exit

namespace Block

variable {block : Block} {otherwise : Exit}

def finished (block : Block) : Outline :=
  ⟨block.id, block.exit.final, block.role, block.side⟩

theorem outline_track_finalize (block : Block) : block.finalize.track.outline = block.finished := rfl

/-- A block of a cut body goes on to `otherwise` unless its last statement leaves. -/
structure Cuts (block : Block) (otherwise : Exit) : Prop where
  unmarked : block.role = none
  whole : block.side = none
  closes : block.exit = Exit.closing block.statements otherwise
  onward : otherwise = .pending ∨ ∃ target, otherwise = .goto target

namespace Cuts

variable (cuts : block.Cuts otherwise) (number : Nat)

include cuts

theorem next {last : Statement} (found : block.statements.getLast? = some last)
    (structured : last.kind.isStructured = true) :
    Exit.gotoOrPending block.continuation = otherwise := by
  have exit : block.exit = otherwise :=
    cuts.closes.trans (Exit.closing_of_structured found structured otherwise)
  rcases cuts.onward with rfl | ⟨target, rfl⟩
  · simp [continuation, exit, Exit.gotoOrPending]
  · simp [continuation, exit, Exit.gotoOrPending]

theorem segment : Segment otherwise.final ((block.refine number).1.map finished) := by
  obtain ⟨id, statements, exit, role, side, accesses, versions, instructions⟩ := block
  obtain rfl : role = none := cuts.unmarked
  obtain rfl : side = none := cuts.whole
  have leave (body : List Statement) (next : Exit) : (Exit.closing body next).final.Ends next.final :=
    Exit.closing_ends body next
  unfold refine
  split
  next condition yes no found =>
    have next := cuts.next found rfl
    simp only [refineBranch, next]
    exact .branch (leave yes otherwise) (leave no otherwise)
  next start condition step body counters found =>
    have next := cuts.next found rfl
    simp only [refineFor, loopExit, next]
    exact .forLoop (leave body (.goto _))
  next condition body counters found =>
    have next := cuts.next found rfl
    simp only [refineWhile, loopExit, next]
    exact .whileLoop (leave body (.goto _))
  next =>
    have closes : exit = Exit.closing statements otherwise := cuts.closes
    exact .plain (closes ▸ leave statements otherwise)

end Cuts
end Block

theorem linkBlocks_cuts (number : Nat) (run : List Statement) (rest : List (List Statement)) :
    ∃ block : Block, linkBlocks number (run :: rest) = block :: linkBlocks (number + 1) rest ∧
      block.id = blockId number ∧
      block.Cuts (if rest = [] then .pending else .goto (blockId (number + 1))) := by
  cases rest with
  | nil => exact ⟨_, rfl, rfl, rfl, rfl, rfl, .inl rfl⟩
  | cons next others => exact ⟨_, rfl, rfl, rfl, rfl, rfl, .inr ⟨_, rfl⟩⟩

theorem Block.refine_first (block : Block) (number : Nat) :
    ∃ first others, (block.refine number).1 = first :: others ∧ first.id = block.id := by
  unfold refine
  split <;> exact ⟨_, _, rfl, rfl⟩

theorem refineBlocks_cons (number : Nat) (block : Block) (rest : List Block) :
    (refineBlocks number (block :: rest)).1 =
      (block.refine number).1 ++ (refineBlocks (block.refine number).2 rest).1 := rfl

theorem into_refineBlocks (free number : Nat) (runs : List (List Statement)) :
    Exit.into (outlineGraph ((refineBlocks free (linkBlocks number runs)).1.map Block.finished)) =
      (if runs = [] then Exit.pending else .goto (blockId number)).final := by
  cases runs with
  | nil => rfl
  | cons run rest =>
    obtain ⟨block, made, named, _⟩ := linkBlocks_cuts number run rest
    obtain ⟨first, others, replaced, same⟩ := block.refine_first free
    rw [made, refineBlocks_cons, replaced, if_neg (List.cons_ne_nil run rest), ← named, ← same]
    rfl

theorem refineBlocks_laid (free number : Nat) (runs : List (List Statement)) :
    Laid ((refineBlocks free (linkBlocks number runs)).1.map Block.finished) := by
  induction runs generalizing free number with
  | nil => exact .nil
  | cons run rest ih =>
    obtain ⟨block, made, _, cuts⟩ := linkBlocks_cuts number run rest
    rw [made, refineBlocks_cons, List.map_append]
    refine .cons ?_ (ih _ (number + 1))
    rw [into_refineBlocks]
    exact cuts.segment free

theorem flowBlocks_laid (body : List Statement) : Laid (outlinesOf (flowBlocks body).1) := by
  have laid := refineBlocks_laid (buildBlocks 0 body).2 0 (cutAfter Statement.endsBlock body)
  have outlines : outlinesOf (flowBlocks body).1 =
      (refineBlocks (buildBlocks 0 body).2 (buildBlocks 0 body).1).1.map Block.finished := by
    simp only [flowBlocks, outlinesOf, List.map_map, Function.comp_def,
      Block.outline_track_finalize]
  rw [outlines]
  exact laid

def StatementKind.isLoop (kind : StatementKind) : Bool := kind == .forLoop || kind == .whileLoop

theorem Block.refine_unmarked {block : Block} (number : Nat) (unmarked : block.role = none)
    (calm : ∀ statement ∈ block.statements, statement.kind.isLoop = false) :
    ∀ part ∈ (block.refine number).1, part.role = none := by
  unfold refine
  split
  next condition yes no _ => simpa [refineBranch, ofBody] using unmarked
  next found => cases calm _ (List.mem_of_getLast? found)
  next found => cases calm _ (List.mem_of_getLast? found)
  next => simpa using unmarked

theorem refineBlocks_unmarked (number : Nat) {blocks : List Block}
    (unmarked : ∀ block ∈ blocks, block.role = none)
    (calm : ∀ block ∈ blocks, ∀ statement ∈ block.statements, statement.kind.isLoop = false) :
    ∀ part ∈ (refineBlocks number blocks).1, part.role = none := by
  induction blocks generalizing number with
  | nil => simp [refineBlocks]
  | cons block rest ih =>
    rw [List.forall_mem_cons] at unmarked calm
    rw [refineBlocks_cons]
    intro part member
    rcases List.mem_append.mp member with here | later
    · exact Block.refine_unmarked number unmarked.1 calm.1 part here
    · exact ih _ unmarked.2 calm.2 part later

theorem linkBlocks_unmarked (number : Nat) (runs : List (List Statement)) :
    ∀ block ∈ linkBlocks number runs, block.role = none := by
  intro block member
  obtain ⟨_, _, run, _, rfl⟩ := exists_linked member
  rfl

theorem flowBlocks_unmarked {body : List Statement}
    (calm : ∀ statement ∈ body, statement.kind.isLoop = false) :
    ∀ block ∈ (flowBlocks body).1, block.role = none := by
  have kept : ∀ block ∈ (buildBlocks 0 body).1, ∀ statement ∈ block.statements,
      statement.kind.isLoop = false :=
    fun block member statement inside => calm statement (mem_of_mem_buildBlocks member inside)
  intro block member
  obtain ⟨final, finished, rfl⟩ := List.mem_map.mp member
  obtain ⟨part, inside, rfl⟩ := List.mem_map.mp finished
  exact refineBlocks_unmarked _ (linkBlocks_unmarked 0 _) kept part inside

end Cutting

section Jumps

/-- The jump from the end of a loop body, or from the step behind it, back to the header. -/
inductive Rounds (outlines : List Outline) (source target : Nat) : Prop where
  | intro {header tail : Outline} (headed : outlines[target]? = some header)
      (role : header.role = some .header) (whole : header.side = none)
      (ended : outlines[source]? = some tail) (leads : tail.exit = .goto header.id)
      (inside : tail.role = some .body ∧ source = target + 1 ∨
        tail.role = some .increment ∧ source = target + 2)

/-- A jump goes to a later block, not beyond `bound`, or closes a round of a loop. -/
def Jumps (outlines : List Outline) (bound source : Nat) (id : String) : Prop :=
  ∃ target other, outlines[target]? = some other ∧ other.id = id ∧
    (source < target ∧ target ≤ bound ∨ Rounds outlines source target)

variable {rest : List Outline} {source bound : Nat} {id : String}

theorem getElem?_behind {α : Type} (front rest : List α) (index : Nat) :
    (front ++ rest)[front.length + index]? = rest[index]? := by
  rw [List.getElem?_append_right (by omega), Nat.add_sub_cancel_left]

theorem Rounds.behind (front : List Outline) {target : Nat} (rounds : Rounds rest source target) :
    Rounds (front ++ rest) (front.length + source) (front.length + target) := by
  obtain ⟨headed, role, whole, ended, leads, inside⟩ := rounds
  refine ⟨(getElem?_behind front rest _).trans headed, role, whole,
    (getElem?_behind front rest _).trans ended, leads, ?_⟩
  exact inside.imp (And.imp_right (by omega)) (And.imp_right (by omega))

theorem Jumps.behind (front : List Outline) (jumps : Jumps rest bound source id) :
    Jumps (front ++ rest) (front.length + bound) (front.length + source) id := by
  obtain ⟨target, other, found, named, leads⟩ := jumps
  refine ⟨front.length + target, other, (getElem?_behind front rest _).trans found, named, ?_⟩
  exact leads.imp (by omega) (Rounds.behind front)

theorem jumps_into {front : List Outline} (before : source < front.length)
    (named : id ∈ (Exit.into (outlineGraph rest)).targets) :
    Jumps (front ++ rest) front.length source id := by
  cases rest with
  | nil => cases named
  | cons first others =>
    refine ⟨front.length, first, by simp, ?_, .inl ⟨before, Nat.le_refl _⟩⟩
    exact (List.mem_singleton.mp named).symm

theorem Segment.jumps {segment : List Outline} {outline : Outline}
    (shape : Segment (Exit.into (outlineGraph rest)) segment)
    (located : segment[source]? = some outline) (named : id ∈ outline.exit.targets) :
    Jumps (segment ++ rest) segment.length source id := by
  have before := (List.getElem?_eq_some_iff.mp located).1
  cases shape with
  | plain ends =>
    match source, located with
    | 0, rfl => exact jumps_into before (ends.targets named ▸ named)
  | branch yesEnds noEnds =>
    match source, located with
    | 0, rfl =>
      rcases List.mem_cons.mp named with rfl | other
      · exact ⟨1, _, rfl, rfl, .inl (by simp)⟩
      · obtain rfl := List.mem_singleton.mp other
        exact ⟨2, _, rfl, rfl, .inl (by simp)⟩
    | 1, rfl => exact jumps_into before (yesEnds.targets named ▸ named)
    | 2, rfl => exact jumps_into before (noEnds.targets named ▸ named)
  | forLoop ends =>
    match source, located with
    | 0, rfl =>
      obtain rfl := List.mem_singleton.mp named
      exact ⟨1, _, rfl, rfl, .inl (by simp)⟩
    | 1, rfl =>
      rcases List.mem_cons.mp named with rfl | other
      · exact ⟨2, _, rfl, rfl, .inl (by simp)⟩
      · obtain rfl := List.mem_singleton.mp other
        exact ⟨4, _, rfl, rfl, .inl (by simp)⟩
    | 2, rfl =>
      rw [ends.targets named] at named
      obtain rfl := List.mem_singleton.mp named
      exact ⟨3, _, rfl, rfl, .inl (by simp)⟩
    | 3, rfl =>
      obtain rfl := List.mem_singleton.mp named
      exact ⟨1, _, rfl, rfl, .inr ⟨rfl, rfl, rfl, rfl, rfl, .inr ⟨rfl, rfl⟩⟩⟩
    | 4, rfl => exact jumps_into before named
  | whileLoop ends =>
    match source, located with
    | 0, rfl =>
      obtain rfl := List.mem_singleton.mp named
      exact ⟨1, _, rfl, rfl, .inl (by simp)⟩
    | 1, rfl =>
      rcases List.mem_cons.mp named with rfl | other
      · exact ⟨2, _, rfl, rfl, .inl (by simp)⟩
      · obtain rfl := List.mem_singleton.mp other
        exact ⟨3, _, rfl, rfl, .inl (by simp)⟩
    | 2, rfl =>
      have back := ends.targets named
      rw [back] at named
      obtain rfl := List.mem_singleton.mp named
      exact ⟨1, _, rfl, rfl, .inr ⟨rfl, rfl, rfl, rfl, back, .inl ⟨rfl, rfl⟩⟩⟩
    | 3, rfl => exact jumps_into before named

theorem Laid.jumps {outlines : List Outline} {outline : Outline} (laid : Laid outlines)
    (located : outlines[source]? = some outline) (named : id ∈ outline.exit.targets) :
    ∃ bound, Jumps outlines bound source id := by
  induction laid generalizing source with
  | nil => simp at located
  | @cons segment rest first later ih =>
    rcases Nat.lt_or_ge source segment.length with here | behind
    · rw [List.getElem?_append_left here] at located
      exact ⟨_, first.jumps located named⟩
    · obtain ⟨offset, rfl⟩ := Nat.exists_eq_add_of_le behind
      rw [getElem?_behind] at located
      obtain ⟨bound, jumps⟩ := ih located
      exact ⟨_, jumps.behind segment⟩

theorem Segment.before_step {next : Exit} {segment : List Outline} (shape : Segment next segment)
    {index : Nat} {one two : Outline} (here : segment[index]? = some one)
    (there : segment[index + 1]? = some two) (step : two.role = some .increment) :
    one.exit.Ends (.goto two.id) := by
  cases shape with
  | plain => cases there
  | branch =>
    match index, there with
    | 0, rfl => cases step
    | 1, rfl => cases step
  | @forLoop _ header inner increment exit condition leave ends =>
    match index, here, there with
    | 0, rfl, rfl => cases step
    | 1, rfl, rfl => cases step
    | 2, rfl, rfl => exact ends
    | 3, rfl, rfl => cases step
  | whileLoop =>
    match index, here, there with
    | 0, rfl, rfl => cases step
    | 1, rfl, rfl => cases step
    | 2, rfl, rfl => cases step

theorem Laid.head_role {outlines : List Outline} (laid : Laid outlines) {first : Outline}
    (head : outlines[0]? = some first) : first.role ≠ some .increment := by
  cases laid with
  | nil => cases head
  | cons shape _ =>
    cases shape <;>
    · obtain rfl := Option.some.inj head
      simp

theorem Laid.before_step {outlines : List Outline} (laid : Laid outlines) {index : Nat}
    {one two : Outline} (here : outlines[index]? = some one)
    (there : outlines[index + 1]? = some two) (step : two.role = some .increment) :
    one.exit.Ends (.goto two.id) := by
  induction laid generalizing index with
  | nil => cases here
  | @cons segment rest shape later ih =>
    rcases Nat.lt_trichotomy (index + 1) segment.length with inside | last | behind
    · rw [List.getElem?_append_left (by omega)] at here
      rw [List.getElem?_append_left inside] at there
      exact shape.before_step here there step
    · rw [last, ← Nat.add_zero segment.length, getElem?_behind] at there
      exact absurd step (later.head_role there)
    · obtain ⟨offset, rfl⟩ := Nat.exists_eq_add_of_le (Nat.le_of_lt_succ behind)
      rw [getElem?_behind] at here
      rw [Nat.add_assoc, getElem?_behind] at there
      exact ih here there

theorem Laid.rounds_unique {outlines : List Outline} (laid : Laid outlines)
    (distinct : (outlineGraph outlines).ids.Nodup) {first second target : Nat}
    (one : Rounds outlines first target) (two : Rounds outlines second target) :
    first = second := by
  have place {source : Nat} (rounds : Rounds outlines source target) :
      source = target + 1 ∨ source = target + 2 := by
    obtain ⟨_, _, _, _, _, inside⟩ := rounds
    exact inside.imp And.right And.right
  -- A body that a step stands behind goes on to the step.
  have apart (near : Rounds outlines (target + 1) target)
      (far : Rounds outlines (target + 2) target) : False := by
    obtain @⟨header, tail, headed, _, _, ended, leads, _⟩ := near
    obtain @⟨_, step, _, _, _, stepped, _, inside⟩ := far
    have role : step.role = some .increment := (inside.resolve_left (by omega)).1
    have named : header.id ∈ tail.exit.targets := by
      rw [leads]
      exact .head _
    have goes := (laid.before_step ended stepped role).targets named
    have vertexAt {index : Nat} {outline : Outline} (found : outlines[index]? = some outline) :
        (outlineGraph outlines)[index]? = some outline.vertex := by simp [outlineGraph, found]
    have same : header.id = step.id := Exit.goto.inj (leads.symm.trans goes)
    have equal := (Graph.eq_of_id distinct (vertexAt headed) (vertexAt stepped) same).1
    omega
  rcases place one with rfl | rfl <;> rcases place two with rfl | rfl
  · rfl
  · exact (apart one two).elim
  · exact (apart two one).elim
  · rfl

end Jumps
/-! Pieces of small programs. -/
namespace Snippet

def named (name : String) : Expression := .identifier name false

def one : Expression := .literal { value := some "1" }

def calls (function : String) (arguments : List Expression) : Statement :=
  .expression (.call .plain (named function) arguments [] {})

def sends : Statement :=
  .expression (.call .plain
    (.member (.member (.identifier "msg" true) "msg" "sender") "address" "call") [one] [] {})

def sets (target value : Expression) : Statement := .expression (.assign "=" target value)

end Snippet
end Reentrancy
