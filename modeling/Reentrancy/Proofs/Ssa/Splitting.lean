import Mathlib.Data.List.Nodup
import Mathlib.Data.List.Pairwise
import Reentrancy.Proofs.Flow.Reachability
import Reentrancy.Proofs.Ssa.Pieces

/-! Control flow between pieces. Inside a block control runs from piece to piece; it leaves the
block at the last one and enters the next block at the first one. So a piece reaches another
if it stands before it in the same block, or if its block reaches the block of the other. -/
namespace Reentrancy

/-- A block with the number that its later pieces start from. -/
structure Cut where
  block : Block
  number : Nat

def Cut.pieces (cut : Cut) : List Piece := (cut.block.pieces cut.number).1

def cutsFrom (number : Nat) : List Block → List Cut
  | [] => []
  | block :: rest => ⟨block, number⟩ :: cutsFrom (block.pieces number).2 rest

section Cuts

variable (number : Nat) {blocks : List Block}

theorem piecesFrom_eq_flatMap (blocks : List Block) :
    (piecesFrom number blocks).1 = (cutsFrom number blocks).flatMap Cut.pieces := by
  induction blocks generalizing number with
  | nil => rfl
  | cons block rest ih =>
    rw [piecesFrom, cutsFrom, List.flatMap_cons, ← ih]
    rfl

theorem cutsFrom_blocks (blocks : List Block) :
    (cutsFrom number blocks).map Cut.block = blocks := by
  induction blocks generalizing number with
  | nil => rfl
  | cons block rest ih => rw [cutsFrom, List.map_cons, ih]

theorem exists_cut {block : Block} (member : block ∈ blocks) :
    ∃ cut ∈ cutsFrom number blocks, cut.block = block := by
  rw [← cutsFrom_blocks number blocks] at member
  exact List.mem_map.mp member

variable {number}

theorem Cut.block_mem {cut : Cut} (member : cut ∈ cutsFrom number blocks) :
    cut.block ∈ blocks := by
  rw [← cutsFrom_blocks number blocks]
  exact List.mem_map_of_mem member

end Cuts

section Links

theorem linkPieces_cons_cons (id : String) (number : Nat) (exit : Exit)
    (run next : List Instruction) (others : List (List Instruction)) :
    linkPieces id number exit (run :: next :: others) =
      { id, instructions := run, exit := .goto (blockId number),
        accesses := Instruction.listAccesses run } ::
        linkPieces (blockId number) (number + 1) exit (next :: others) := rfl

theorem linkPieces_first (id : String) (number : Nat) (exit : Exit) (run : List Instruction)
    (rest : List (List Instruction)) :
    ∃ piece, (linkPieces id number exit (run :: rest))[0]? = some piece ∧ piece.id = id := by
  cases rest with
  | nil => exact ⟨_, rfl, rfl⟩
  | cons next others => exact ⟨_, rfl, rfl⟩

variable {id : String} {number index : Nat} {exit : Exit} {runs : List (List Instruction)}

theorem linkPieces_next {piece next : Piece}
    (found : (linkPieces id number exit runs)[index]? = some piece)
    (after : (linkPieces id number exit runs)[index + 1]? = some next) :
    piece.exit = .goto next.id := by
  induction runs generalizing id number index with
  | nil => simp [linkPieces] at found
  | cons run rest ih =>
    cases rest with
    | nil => simp [linkPieces] at after
    | cons following others =>
      rw [linkPieces_cons_cons] at found after
      cases index with
      | zero =>
        obtain ⟨first, located, named⟩ :=
          linkPieces_first (blockId number) (number + 1) exit following others
        obtain rfl := Option.some.inj (located.symm.trans after)
        obtain rfl := Option.some.inj found
        rw [named]
      | succ index => exact ih found after

theorem linkPieces_leaves {piece : Piece}
    (found : (linkPieces id number exit runs)[index]? = some piece)
    (last : (linkPieces id number exit runs)[index + 1]? = none) : piece.exit = exit := by
  induction runs generalizing id number index with
  | nil => simp [linkPieces] at found
  | cons run rest ih =>
    cases rest with
    | nil =>
      obtain rfl := List.mem_singleton.mp (List.mem_of_getElem? found)
      rfl
    | cons following others =>
      rw [linkPieces_cons_cons] at found last
      cases index with
      | zero =>
        obtain ⟨first, located, _⟩ :=
          linkPieces_first (blockId number) (number + 1) exit following others
        cases located.symm.trans last
      | succ index => exact ih found last

end Links

namespace Cut

variable (cut : Cut) {index : Nat} {piece next : Piece}

theorem first_piece : ∃ piece, cut.pieces[0]? = some piece ∧ piece.id = cut.block.id := by
  obtain ⟨run, rest, _, pieces⟩ := cut.block.pieces_eq cut.number
  rw [Cut.pieces, pieces]
  exact linkPieces_first _ _ _ run rest

variable {cut}

theorem exit_eq_goto (found : cut.pieces[index]? = some piece)
    (after : cut.pieces[index + 1]? = some next) : piece.exit = .goto next.id :=
  linkPieces_next found after

theorem exit_eq_exit (found : cut.pieces[index]? = some piece)
    (last : cut.pieces[index + 1]? = none) : piece.exit = cut.block.exit :=
  linkPieces_leaves found last

end Cut

def pieceLinks (number : Nat) (blocks : List Block) : String → String → Prop :=
  (pieceGraph (piecesFrom number blocks).1).Links

section Reachability

variable {number : Nat} {blocks : List Block}

theorem mem_pieceGraph {vertex : Vertex} :
    vertex ∈ pieceGraph (piecesFrom number blocks).1 ↔
      ∃ cut ∈ cutsFrom number blocks, ∃ (index : Nat) (piece : Piece),
        cut.pieces[index]? = some piece ∧ piece.vertex = vertex := by
  rw [piecesFrom_eq_flatMap]
  constructor
  · intro member
    obtain ⟨piece, made, same⟩ := List.mem_map.mp member
    obtain ⟨cut, inside, found⟩ := List.mem_flatMap.mp made
    obtain ⟨index, located⟩ := List.getElem?_of_mem found
    exact ⟨cut, inside, index, piece, located, same⟩
  · rintro ⟨cut, inside, index, piece, located, rfl⟩
    exact List.mem_map_of_mem (List.mem_flatMap.mpr ⟨cut, inside, List.mem_of_getElem? located⟩)

variable (numbered : (graphOf blocks).Numbered number) {one two : Cut} {first second : Nat}
  {here there : Piece} (oneMember : one ∈ cutsFrom number blocks)
  (twoMember : two ∈ cutsFrom number blocks) (found : one.pieces[first]? = some here)
  (other : two.pieces[second]? = some there)

include numbered oneMember twoMember found other

theorem Cut.eq_of_id (same : here.id = there.id) : one = two ∧ first = second := by
  have distinct := ((piecesFrom_replaces number blocks).numbered numbered).distinct
  rw [piecesFrom_eq_flatMap, pieceGraph, Graph.ids, List.map_map, List.map_flatMap,
    List.nodup_flatMap] at distinct
  obtain ⟨single, apart⟩ := distinct
  have : Std.Symm (Function.onFun List.Disjoint
      fun cut : Cut => cut.pieces.map (Vertex.id ∘ Piece.vertex)) :=
    ⟨fun _ _ apart _ left right => apart right left⟩
  have equal : one = two := by
    by_contra differ
    have shared : here.id ∈ two.pieces.map (Vertex.id ∘ Piece.vertex) :=
      same ▸ List.mem_map_of_mem (List.mem_of_getElem? other)
    exact apart.forall oneMember twoMember differ
      (List.mem_map_of_mem (List.mem_of_getElem? found)) shared
  subst equal
  have bound : first < (one.pieces.map (Vertex.id ∘ Piece.vertex)).length := by
    simpa using (List.getElem?_eq_some_iff.mp found).1
  refine ⟨rfl, (List.getElem?_inj bound (single one oneMember)).mp ?_⟩
  simp [found, other, Piece.vertex, same]

theorem pieceLinks_iff :
    pieceLinks number blocks here.id there.id ↔
      (one = two ∧ second = first + 1) ∨
        (one.pieces[first + 1]? = none ∧ second = 0 ∧
          (graphOf blocks).Links one.block.id two.block.id) := by
  have distinct := ((piecesFrom_replaces number blocks).numbered numbered).distinct
  have member : here.vertex ∈ pieceGraph (piecesFrom number blocks).1 :=
    mem_pieceGraph.mpr ⟨one, oneMember, first, here, found, rfl⟩
  have source : one.block.vertex ∈ graphOf blocks := List.mem_map_of_mem (Cut.block_mem oneMember)
  have leaves : pieceLinks number blocks here.id there.id ↔ there.id ∈ here.exit.targets :=
    Graph.links_iff distinct member
  have leavesBlock : (graphOf blocks).Links one.block.id two.block.id ↔
      two.block.id ∈ one.block.exit.targets := Graph.links_iff numbered.distinct source
  rw [leaves, leavesBlock]
  cases after : one.pieces[first + 1]? with
  | some next =>
    rw [Cut.exit_eq_goto found after, Exit.targets, List.mem_singleton]
    constructor
    · intro same
      obtain ⟨rfl, rfl⟩ := Cut.eq_of_id numbered twoMember oneMember other after same
      exact .inl ⟨rfl, rfl⟩
    · rintro (⟨rfl, rfl⟩ | ⟨none, _⟩)
      · rw [Option.some.inj (other.symm.trans after)]
      · cases none
  | none =>
    rw [Cut.exit_eq_exit found after]
    constructor
    -- An exit leads to the id of a block, and only a first piece has the id of a block.
    · intro target
      obtain ⟨vertex, inside, named⟩ := List.mem_map.mp (numbered.inside _ source _ target)
      obtain ⟨block, present, rfl⟩ := List.mem_map.mp inside
      obtain ⟨cut, cutMember, rfl⟩ := exists_cut number present
      obtain ⟨entry, located, entryId⟩ := cut.first_piece
      obtain ⟨rfl, rfl⟩ := Cut.eq_of_id numbered twoMember cutMember other located
        (named.symm.trans entryId.symm)
      exact .inr ⟨rfl, rfl, (show two.block.id = there.id from named) ▸ target⟩
    · rintro (⟨rfl, rfl⟩ | ⟨_, rfl, target⟩)
      · cases after.symm.trans other
      · obtain ⟨entry, located, entryId⟩ := two.first_piece
        obtain rfl := Option.some.inj (located.symm.trans other)
        exact entryId ▸ target

theorem pieceLinks_inside (same : one = two) (before : first < second) :
    Relation.TransGen (pieceLinks number blocks) here.id there.id := by
  subst same
  obtain ⟨gap, rfl⟩ := Nat.exists_eq_add_of_lt before
  induction gap generalizing there with
  | zero =>
    exact .single ((pieceLinks_iff numbered oneMember twoMember found other).mpr (.inl ⟨rfl, rfl⟩))
  | succ gap ih =>
    have bound : first + gap + 1 < one.pieces.length :=
      Nat.lt_of_succ_lt (List.getElem?_eq_some_iff.mp other).1
    have previous := List.getElem?_eq_getElem bound
    refine .tail (ih (by omega) previous) ?_
    exact (pieceLinks_iff numbered oneMember twoMember previous other).mpr (.inl ⟨rfl, rfl⟩)

omit twoMember other in
theorem exists_last : ∃ last piece, one.pieces[last]? = some piece ∧
    one.pieces[last + 1]? = none ∧
      Relation.ReflTransGen (pieceLinks number blocks) here.id piece.id := by
  have bound := (List.getElem?_eq_some_iff.mp found).1
  have located := List.getElem?_eq_getElem (Nat.sub_one_lt_of_lt bound)
  refine ⟨one.pieces.length - 1, _, located, by simp; omega, ?_⟩
  rcases Nat.lt_or_eq_of_le (Nat.le_sub_one_of_lt bound) with before | rfl
  · exact (pieceLinks_inside numbered oneMember oneMember found located rfl before).to_reflTransGen
  · rw [Option.some.inj (found.symm.trans located)]

/-- Where a path leads from block to block, it leads from any piece to any piece. -/
theorem pieceLinks_across
    (path : Relation.TransGen (graphOf blocks).Links one.block.id two.block.id) :
    Relation.TransGen (pieceLinks number blocks) here.id there.id := by
  -- From the last piece of a block the exit leads to the first piece of the next one.
  have enter {cut : Cut} {index : Nat} {piece : Piece} (member : cut ∈ cutsFrom number blocks)
      (located : cut.pieces[index]? = some piece) {target : Cut} {position : Nat} {goal : Piece}
      (targetMember : target ∈ cutsFrom number blocks)
      (goalLocated : target.pieces[position]? = some goal)
      (link : (graphOf blocks).Links cut.block.id target.block.id) :
      Relation.TransGen (pieceLinks number blocks) piece.id goal.id := by
    obtain ⟨last, final, finalLocated, ended, run⟩ := exists_last numbered member located
    obtain ⟨entry, entryLocated, _⟩ := target.first_piece
    have step := (pieceLinks_iff numbered member targetMember finalLocated entryLocated).mpr
      (.inr ⟨ended, rfl, link⟩)
    have arrive := Relation.TransGen.tail' run step
    rcases Nat.eq_zero_or_pos position with rfl | later
    · rwa [← Option.some.inj (entryLocated.symm.trans goalLocated)]
    · exact arrive.trans
        (pieceLinks_inside numbered targetMember targetMember entryLocated goalLocated rfl later)
  generalize ends : two.block.id = id at path
  induction path generalizing two second there with
  | single link =>
    subst ends
    exact enter oneMember found twoMember other link
  | tail _ link ih =>
    subst ends
    obtain ⟨vertex, member, rfl, target⟩ := link
    obtain ⟨block, inside, rfl⟩ := List.mem_map.mp member
    obtain ⟨cut, cutMember, rfl⟩ := exists_cut number inside
    obtain ⟨entry, entryLocated, _⟩ := cut.first_piece
    exact (ih cutMember entryLocated rfl).trans
      (enter cutMember entryLocated twoMember other ⟨_, member, rfl, target⟩)

theorem pieces_reach_iff :
    Relation.TransGen (pieceLinks number blocks) here.id there.id ↔
      (one = two ∧ first < second) ∨
        Relation.TransGen (graphOf blocks).Links one.block.id two.block.id := by
  constructor
  · intro path
    generalize ends : there.id = id at path
    induction path generalizing two second there with
    | single link =>
      subst ends
      rcases (pieceLinks_iff numbered oneMember twoMember found other).mp link with
        ⟨same, next⟩ | ⟨_, _, leaves⟩
      · exact .inl ⟨same, by omega⟩
      · exact .inr (.single leaves)
    | tail _ link ih =>
      subst ends
      obtain ⟨vertex, member, named, target⟩ := link
      obtain ⟨cut, cutMember, index, piece, located, rfl⟩ := mem_pieceGraph.mp member
      have step : pieceLinks number blocks piece.id there.id :=
        ⟨piece.vertex, member, rfl, target⟩
      have earlier := ih cutMember located named
      rcases (pieceLinks_iff numbered cutMember twoMember located other).mp step with
        ⟨rfl, next⟩ | ⟨_, _, leaves⟩
      · exact earlier.imp_left fun ⟨same, before⟩ => ⟨same, by omega⟩
      · rcases earlier with ⟨rfl, _⟩ | path
        · exact .inr (.single leaves)
        · exact .inr (path.tail leaves)
  · rintro (⟨same, before⟩ | path)
    · exact pieceLinks_inside numbered oneMember twoMember found other same before
    · exact pieceLinks_across numbered oneMember twoMember found other path

end Reachability

structure Settled (number : Nat) (blocks : List Block) : Prop where
  numbered : (graphOf blocks).Numbered number
  decided : ∀ vertex ∈ graphOf blocks, vertex.exit.isPending = false

namespace Settled

variable {number : Nat} {blocks : List Block} (settled : Settled number blocks)

include settled

theorem closed : (graphOf blocks).Closed :=
  ⟨settled.numbered.distinct, settled.decided, settled.numbered.inside⟩

theorem pieces_closed : (pieceGraph (piecesFrom number blocks).1).Closed := by
  have numbered := (piecesFrom_replaces number blocks).numbered settled.numbered
  refine ⟨numbered.distinct, ?_, numbered.inside⟩
  intro vertex member
  obtain ⟨cut, inside, index, piece, located, rfl⟩ := mem_pieceGraph.mp member
  have source : cut.block.vertex ∈ graphOf blocks := List.mem_map_of_mem (Cut.block_mem inside)
  exact cut.block.pieces_decided cut.number (settled.decided _ source) piece
    (List.mem_of_getElem? located)

end Settled

def Cut.last (cut : Cut) : String := (cut.pieces.getLast?.map (·.id)).getD cut.block.id

section Ends

theorem piecesFrom_ends (number : Nat) (blocks : List Block) :
    (piecesFrom number blocks).2.1 =
      (cutsFrom number blocks).map fun cut => (cut.block.id, cut.last) := by
  induction blocks generalizing number with
  | nil => rfl
  | cons block rest ih =>
    rw [piecesFrom, cutsFrom, List.map_cons, ← ih]
    rfl

theorem le_of_mem_cutsFrom {number : Nat} {blocks : List Block} {cut : Cut}
    (member : cut ∈ cutsFrom number blocks) : number ≤ cut.number := by
  induction blocks generalizing number with
  | nil => cases member
  | cons block rest ih =>
    rcases List.mem_cons.mp member with rfl | later
    · exact Nat.le_refl _
    · have above := ih later
      obtain ⟨_, _, _, pieces⟩ := block.pieces_eq number
      rw [pieces] at above
      omega

/-- Only the last of linked pieces can lead to an id that is not one of their own numbers. -/
theorem linkPieces_leading {target : String} (id : String) (number : Nat) (exit : Exit)
    (run : List Instruction) (rest : List (List Instruction))
    (foreign : target ∉ numberedIds number rest.length) :
    ((pieceGraph (linkPieces id number exit (run :: rest))).filter fun vertex =>
        vertex.exit.targets.contains target).map (·.id) =
      if exit.targets.contains target then
        [((linkPieces id number exit (run :: rest)).getLast?.map (·.id)).getD id]
      else [] := by
  induction rest generalizing id number run with
  | nil =>
    change ((([⟨id, exit⟩] : Graph).filter fun vertex =>
      vertex.exit.targets.contains target).map (·.id)) = if exit.targets.contains target then [id]
        else []
    rw [List.filter_cons]
    split <;> rfl
  | cons next others ih =>
    rw [List.length_cons, numberedIds, List.range'_succ, List.map_cons, List.mem_cons,
      not_or] at foreign
    obtain ⟨other, later⟩ := foreign
    have passed : ¬(Exit.goto (blockId number)).targets.contains target = true := by
      simpa [Exit.targets] using other
    have inner := ih (blockId number) (number + 1) next later
    obtain ⟨first, located, _⟩ := linkPieces_first (blockId number) (number + 1) exit next others
    obtain ⟨tail, made⟩ : ∃ tail, linkPieces (blockId number) (number + 1) exit (next :: others) =
        first :: tail := by
      cases found : linkPieces (blockId number) (number + 1) exit (next :: others) with
      | nil => simp [found] at located
      | cons head tail =>
        rw [found] at located
        obtain rfl := Option.some.inj located
        exact ⟨tail, rfl⟩
    rw [made, List.getLast?_cons] at inner
    have skipped (graph : Graph) :
        (⟨id, .goto (blockId number)⟩ :: graph).filter
          (fun vertex => vertex.exit.targets.contains target) =
        graph.filter fun vertex => vertex.exit.targets.contains target := by
      rw [List.filter_cons_of_neg (by simpa using passed)]
    rw [linkPieces_cons_cons, made, List.getLast?_cons_cons, List.getLast?_cons]
    exact (congrArg (List.map (·.id)) (skipped _)).trans inner

theorem Cut.leading {cut : Cut} {target : String}
    (foreign : ∀ number, cut.number ≤ number → target ≠ blockId number) :
    ((pieceGraph cut.pieces).filter fun vertex => vertex.exit.targets.contains target).map (·.id) =
      if cut.block.exit.targets.contains target then [cut.last] else [] := by
  obtain ⟨run, rest, _, pieces⟩ := cut.block.pieces_eq cut.number
  have apart : target ∉ numberedIds cut.number rest.length := by
    intro member
    obtain ⟨number, above, _, same⟩ := mem_numberedIds.mp member
    exact foreign number above same.symm
  rw [Cut.last, Cut.pieces, pieces]
  exact linkPieces_leading cut.block.id cut.number cut.block.exit run rest apart

variable {number : Nat} {blocks : List Block} (settled : Settled number blocks)

include settled

theorem Settled.pieces_predecessors {target : String} (known : target ∈ (graphOf blocks).ids) :
    (pieceGraph (piecesFrom number blocks).1).predecessors target =
      ((cutsFrom number blocks).filter fun cut =>
        cut.block.exit.targets.contains target).map Cut.last := by
  obtain ⟨low, below, named⟩ := settled.numbered.below target known
  rw [settled.pieces_closed.predecessors_eq, piecesFrom_eq_flatMap]
  have each : ∀ cut ∈ cutsFrom number blocks,
      ((pieceGraph cut.pieces).filter fun vertex =>
        vertex.exit.targets.contains target).map (·.id) =
      if cut.block.exit.targets.contains target then [cut.last] else [] := by
    intro cut member
    apply Cut.leading
    intro high above same
    have equal := blockId_injective (named.trans same)
    have start := le_of_mem_cutsFrom member
    omega
  generalize cutsFrom number blocks = cuts at each
  induction cuts with
  | nil => rfl
  | cons cut rest ih =>
    rw [List.forall_mem_cons] at each
    rw [List.flatMap_cons, pieceGraph_append, List.filter_append, List.map_append, each.1,
      ih each.2, List.filter_cons]
    split <;> rfl

theorem Settled.predecessors_eq (target : String) :
    (graphOf blocks).predecessors target =
      ((cutsFrom number blocks).filter fun cut =>
        cut.block.exit.targets.contains target).map fun cut => cut.block.id := by
  have listed : graphOf blocks = (cutsFrom number blocks).map fun cut => cut.block.vertex := by
    rw [graphOf, ← cutsFrom_blocks number blocks, List.map_map, cutsFrom_blocks]
    rfl
  rw [settled.closed.predecessors_eq, listed, List.filter_map, List.map_map]
  rfl

end Ends
end Reentrancy
