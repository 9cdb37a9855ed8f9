import Mathlib.Data.List.Flatten
import Reentrancy.Proofs.Flow.Layout
import Reentrancy.Proofs.Ssa.Validity

/-! The layout of a body through the passes. None of them moves a block, and splitting keeps the
pieces of a block together, so that the finished list is in the order of the control flow, up to
the jumps that close the rounds of loops. -/
namespace Reentrancy

section Passes

theorem outlinesOf_numberFrom (graph : Graph) (scope : Scope) (exits : List (Table Nat))
    (versions : Versions) (blocks : List Block) :
    outlinesOf (numberFrom graph scope exits versions blocks).blocks = outlinesOf blocks := by
  induction blocks generalizing exits versions with
  | nil => rfl
  | cons block rest ih => exact congrArg (block.outline :: ·) (ih _ _)

theorem outlinesOf_joinFrom (blocks : List Block) (graph : Graph) (exits : List (Table Nat))
    (index : Nat) (versions : Versions) (rest : List Block) :
    outlinesOf (joinFrom blocks graph exits index versions rest).blocks = outlinesOf rest := by
  induction rest generalizing index versions with
  | nil => rfl
  | cons block others ih => exact congrArg (block.outline :: ·) (ih _ _)

theorem outlinesOf_inlineFrom (graph : Graph)
    (expansion : String → List Value → Walk → Expansion) (exits : List WalkExit) (walk : Walk)
    (blocks : List Block) :
    outlinesOf (inlineFrom graph expansion exits walk blocks).blocks = outlinesOf blocks := by
  induction blocks generalizing exits walk with
  | nil => rfl
  | cons block rest ih => exact congrArg (block.outline :: ·) (ih _ _)

namespace Body

theorem outlinesOf_refresh (blocks : List Block) :
    outlinesOf (blocks.map refresh) = outlinesOf blocks := by
  simp [outlinesOf, Block.outline, refresh]

theorem outlinesOf_build (scope : Scope) (statements : List Statement) :
    outlinesOf (build scope statements).blocks = outlinesOf (flowBlocks statements).1 :=
  (outlinesOf_joinFrom ..).trans (outlinesOf_numberFrom ..)

theorem outlinesOf_inline (body : Body) (templates : Table Template) (depth : Nat)
    (root : String) :
    outlinesOf (body.inline templates depth root).blocks = outlinesOf body.blocks := by
  have expanded : outlinesOf (body.expanded templates depth root).blocks =
      outlinesOf body.blocks := outlinesOf_inlineFrom ..
  rcases body.inline_cases templates depth root with same | joined
  · rw [same]
  · rw [joined]
    exact (outlinesOf_joinFrom ..).trans ((outlinesOf_refresh _).trans expanded)

theorem inline_laid (scope : Scope) (statements : List Statement) (templates : Table Template)
    (depth : Nat) (root : String) :
    Laid (outlinesOf ((build scope statements).inline templates depth root).blocks) := by
  rw [outlinesOf_inline, outlinesOf_build]
  exact flowBlocks_laid statements

end Body
end Passes

section Positions

theorem located_in_flatMap {α β : Type} {parts : α → List β} {items : List α} {index : Nat}
    {part : β} (found : (items.flatMap parts)[index]? = some part) :
    ∃ place item offset, items[place]? = some item ∧ (parts item)[offset]? = some part ∧
      index = ((items.take place).flatMap parts).length + offset := by
  induction items generalizing index with
  | nil => simp at found
  | cons item rest ih =>
    rw [List.flatMap_cons] at found
    rcases Nat.lt_or_ge index (parts item).length with here | behind
    · rw [List.getElem?_append_left here] at found
      exact ⟨0, item, index, rfl, found, by simp⟩
    · obtain ⟨offset, rfl⟩ := Nat.exists_eq_add_of_le behind
      rw [getElem?_behind] at found
      obtain ⟨place, other, within, located, inside, rfl⟩ := ih found
      refine ⟨place + 1, other, within, located, inside, ?_⟩
      simp [Nat.add_assoc]

def pieceStart (blocks : List Block) (index : Nat) : Nat :=
  ((blocks.take index).flatMap fun block => runsOf block.instructions).length

variable {number : Nat} {blocks : List Block}

theorem linkPieces_length (id : String) (number : Nat) (exit : Exit)
    (runs : List (List Instruction)) : (linkPieces id number exit runs).length = runs.length := by
  induction runs generalizing id number with
  | nil => rfl
  | cons run rest ih =>
    cases rest with
    | nil => rfl
    | cons next others => exact congrArg (· + 1) (ih (blockId number) (number + 1))

theorem Cut.pieces_length (cut : Cut) :
    cut.pieces.length = (runsOf cut.block.instructions).length :=
  linkPieces_length ..

theorem pieceStart_eq (number : Nat) (blocks : List Block) (index : Nat) :
    (((cutsFrom number blocks).take index).flatMap Cut.pieces).length = pieceStart blocks index := by
  have kept : blocks.take index = ((cutsFrom number blocks).take index).map Cut.block := by
    rw [List.map_take, cutsFrom_blocks]
  rw [pieceStart, kept, List.flatMap_map, List.length_flatMap, List.length_flatMap]
  simp only [Cut.pieces_length]

theorem pieceStart_succ {index : Nat} {block : Block} (located : blocks[index]? = some block) :
    pieceStart blocks (index + 1) =
      pieceStart blocks index + (runsOf block.instructions).length := by
  rw [pieceStart, List.take_add_one, located, List.flatMap_append, List.length_append]
  simp [pieceStart]

theorem pieceStart_mono {first second : Nat} (before : first ≤ second) :
    pieceStart blocks first ≤ pieceStart blocks second :=
  ((List.take_sublist_take_left before).flatMap _).length_le

theorem exists_cut_at {position : Nat} {piece : Piece}
    (found : (piecesFrom number blocks).1[position]? = some piece) :
    ∃ index cut offset, (cutsFrom number blocks)[index]? = some cut ∧
      blocks[index]? = some cut.block ∧ cut.pieces[offset]? = some piece ∧
      position = pieceStart blocks index + offset := by
  rw [piecesFrom_eq_flatMap] at found
  obtain ⟨index, cut, offset, located, inside, rfl⟩ := located_in_flatMap found
  refine ⟨index, cut, offset, located, ?_, inside, by rw [pieceStart_eq]⟩
  simpa [located] using congrArg (·[index]?) (cutsFrom_blocks number blocks).symm

end Positions

/-- The edge that closes a round of a loop: it leads from the last piece of the body, or of the
step behind it, to the first piece of the header. -/
inductive ClosesRound (blocks : List Block) (graph : Graph) (source target : Nat) : Prop where
  | intro {first last : Nat} {header tail : Block} {vertex : Vertex}
      (headed : blocks[first]? = some header) (role : header.role = some .header)
      (ended : blocks[last]? = some tail)
      (inside : tail.role = some .body ∧ last = first + 1 ∨
        tail.role = some .increment ∧ last = first + 2)
      (located : graph[source]? = some vertex) (leads : vertex.exit = .goto header.id)
      (starts : target = pieceStart blocks first)
      (ends : source + 1 = pieceStart blocks (last + 1))

theorem links_order {blocks : List Block} (closed : (graphOf blocks).Closed)
    (laid : Laid (outlinesOf blocks)) {first second : Nat} {one two : Block}
    (here : blocks[first]? = some one) (there : blocks[second]? = some two)
    (link : two.id ∈ one.exit.targets) :
    first < second ∨ Rounds (outlinesOf blocks) first second := by
  obtain ⟨_, target, outline, found, named, leads⟩ := laid.jumps (getElem?_outlinesOf here) link
  obtain ⟨other, located, rfl⟩ := getElem?_of_outlinesOf found
  obtain rfl : target = second :=
    (Graph.eq_of_id closed.distinct (getElem?_graphOf located) (getElem?_graphOf there) named).1
  exact leads.imp_left And.left

section Order

variable {number : Nat} {blocks : List Block} (settled : Settled number blocks)
  (laid : Laid (outlinesOf blocks))

include settled laid

theorem Settled.edge_order {source target : Nat}
    (edge : (pieceGraph (piecesFrom number blocks).1).Edge source target) :
    source < target ∨
      ClosesRound blocks (pieceGraph (piecesFrom number blocks).1) source target := by
  obtain ⟨here, hereFound⟩ : ∃ piece, (piecesFrom number blocks).1[source]? = some piece :=
    ⟨_, List.getElem?_eq_getElem (by simpa [pieceGraph] using edge.source_lt)⟩
  obtain ⟨there, thereFound⟩ : ∃ piece, (piecesFrom number blocks).1[target]? = some piece :=
    ⟨_, List.getElem?_eq_getElem (by simpa [pieceGraph] using edge.target_lt)⟩
  have vertexAt {index : Nat} {piece : Piece}
      (found : (piecesFrom number blocks).1[index]? = some piece) :
      (pieceGraph (piecesFrom number blocks).1)[index]? = some piece.vertex := by
    simp [pieceGraph, found]
  have link : pieceLinks number blocks here.id there.id :=
    (settled.pieces_closed.edge_iff (vertexAt hereFound) (vertexAt thereFound)).mp edge
  obtain ⟨first, one, offset, oneAt, oneBlock, oneFound, rfl⟩ := exists_cut_at hereFound
  obtain ⟨second, two, place, twoAt, twoBlock, twoFound, rfl⟩ := exists_cut_at thereFound
  have oneMember := List.mem_of_getElem? oneAt
  have inside := (List.getElem?_eq_some_iff.mp oneFound).1
  rw [Cut.pieces_length] at inside
  have next := pieceStart_succ oneBlock
  rcases (pieceLinks_iff settled.numbered oneMember (List.mem_of_getElem? twoAt) oneFound
    twoFound).mp link with ⟨rfl, rfl⟩ | ⟨last, rfl, leaves⟩
  · obtain rfl : first = second := (Graph.eq_of_id settled.numbered.distinct
      (getElem?_graphOf oneBlock) (getElem?_graphOf twoBlock) rfl).1
    exact .inl (by omega)
  · have full : offset + 1 = (runsOf one.block.instructions).length := by
      have ended := List.getElem?_eq_none_iff.mp last
      rw [Cut.pieces_length] at ended
      omega
    have target := (Graph.links_iff settled.numbered.distinct
      (List.mem_map_of_mem (List.mem_of_getElem? oneBlock))).mp leaves
    rcases links_order settled.closed laid oneBlock twoBlock target with later | rounds
    · have far : pieceStart blocks (first + 1) ≤ pieceStart blocks second := pieceStart_mono later
      exact .inl (by omega)
    · obtain ⟨headed, role, _, ended, leads, tail⟩ := rounds
      rw [outlinesOf, List.getElem?_map, twoBlock] at headed
      rw [outlinesOf, List.getElem?_map, oneBlock] at ended
      obtain rfl := Option.some.inj headed
      obtain rfl := Option.some.inj ended
      exact .inr ⟨twoBlock, role, oneBlock, tail, vertexAt hereFound,
        (Cut.exit_eq_exit oneFound last).trans leads, by omega, by omega⟩

end Order
end Reentrancy
