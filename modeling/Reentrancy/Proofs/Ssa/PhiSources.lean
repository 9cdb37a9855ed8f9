import Reentrancy.Proofs.Flow.Loops
import Reentrancy.Proofs.Inline.Walks
import Reentrancy.Proofs.Ssa.Splitting
import Reentrancy.Proofs.Ssa.Validity

/-! Phis agree with the control flow. A phi has one source for each block before its own, in the
order of the finished graph, and the source is the version current at the end of that block, on
the edge of a loop too. -/
namespace Reentrancy

section Sides

theorem sides_numberFrom (graph : Graph) (scope : Scope) (exits : List (Table Nat))
    (versions : Versions) (blocks : List Block) :
    (numberFrom graph scope exits versions blocks).blocks.map (·.side) =
      blocks.map (·.side) := by
  induction blocks generalizing exits versions with
  | nil => rfl
  | cons block rest ih => exact congrArg (block.side :: ·) (ih _ _)

theorem sides_joinFrom (blocks : List Block) (graph : Graph) (exits : List (Table Nat))
    (index : Nat) (versions : Versions) (rest : List Block) :
    (joinFrom blocks graph exits index versions rest).blocks.map (·.side) =
      rest.map (·.side) := by
  induction rest generalizing index versions with
  | nil => rfl
  | cons block others ih => exact congrArg (block.side :: ·) (ih _ _)

theorem sides_inlineFrom (graph : Graph) (expansion : String → List Value → Walk → Expansion)
    (exits : List WalkExit) (walk : Walk) (blocks : List Block) :
    (inlineFrom graph expansion exits walk blocks).blocks.map (·.side) = blocks.map (·.side) := by
  induction blocks generalizing exits walk with
  | nil => rfl
  | cons block rest ih => exact congrArg (block.side :: ·) (ih _ _)

end Sides

section Incoming

variable {blocks : List Block} {graph : Graph} {index : Nat}

theorem incoming_ids (closed : graph.Closed) (blocks : List Block) (index : Nat) :
    (incoming blocks graph index).map (·.id) = graph.predecessors (graph.idAt index) := by
  have known : ∀ id ∈ graph.predecessors (graph.idAt index), (graph.position? id).isSome := by
    intro id member
    obtain ⟨vertex, inside, named, _⟩ := closed.mem_predecessors.mp member
    exact Graph.position?_isSome.mpr (named ▸ List.mem_map_of_mem inside)
  unfold incoming
  generalize graph.predecessors (graph.idAt index) = ids at known
  induction ids with
  | nil => rfl
  | cons id rest ih =>
    rw [List.forall_mem_cons] at known
    obtain ⟨position, found⟩ := Option.isSome_iff_exists.mp known.1
    rw [List.filterMap_cons, found]
    exact congrArg (id :: ·) (ih known.2)

theorem mem_incoming {edge : Incoming} (member : edge ∈ incoming blocks graph index) :
    graph.position? edge.id = some edge.position ∧
      edge.writes =
        if graph.backTarget? edge.position = some index then
          latestWrites ((blocks.take (edge.position + 1)).drop (index + 1))
        else ((blocks[edge.position]?).map fun block => block.versions.writes).getD Table.empty := by
  obtain ⟨id, _, made⟩ := List.mem_filterMap.mp member
  obtain ⟨position, found, rfl⟩ := Option.map_eq_some_iff.mp made
  exact ⟨found, rfl⟩

end Incoming

section Versions

variable {blocks : List Block} {exits : List (Table Nat)} {start : Table Nat}
  (recorded : Recorded start blocks exits)
  (apart : (graphOf blocks).LoopsApart (blocks.map (·.side)))

include recorded apart

/-- What a loop writes is current at the end of the block that jumps back. -/
theorem Recorded.latest_loop {source target : Nat} {exit : Table Nat}
    (back : (graphOf blocks).backTarget? source = some target)
    (located : exits[source]? = some exit) {name : String} {version : Nat}
    (found : (latestWrites ((blocks.take (source + 1)).drop (target + 1))).get? name =
      some version) : version = exit.version name := by
  rw [List.drop_take, latestWrites_eq_foldl, Nat.add_sub_add_right] at found
  cases gap : source - target with
  | zero =>
    rw [gap] at found
    simp at found
  | succ count =>
    obtain ⟨entry, inner⟩ := recorded.drop (target + 1)
    rw [gap] at found
    refine inner.latest ?_ ?_ (by simp) found
    · intro block member
      obtain ⟨offset, position⟩ := List.getElem?_of_mem member
      rw [List.getElem?_take] at position
      split at position
      next inside =>
        rw [List.getElem?_drop] at position
        have side := apart source target back (target + 1 + offset) (by omega) (by omega)
        simpa [position] using side
      next => cases position
    · rw [List.getElem?_drop, ← located]
      congr 1
      omega

theorem Recorded.source_version {index : Nat} {edge : Incoming}
    (member : edge ∈ incoming blocks (graphOf blocks) index) (name : String) :
    ∃ exit, exits[edge.position]? = some exit ∧
      (edge.writes.get? name).getD
        (((exits[edge.position]?).bind fun exit => exit.get? name).getD 0) =
          exit.version name := by
  obtain ⟨found, writes⟩ := mem_incoming member
  obtain ⟨vertex, located, _⟩ := Graph.getElem?_of_position? found
  obtain ⟨block, position, rfl⟩ : ∃ block, blocks[edge.position]? = some block ∧
      block.vertex = vertex := by
    simpa [graphOf] using located
  obtain ⟨exit, left, written⟩ := recorded.written_at position
  refine ⟨exit, left, ?_⟩
  rw [left]
  cases known : edge.writes.get? name with
  | none => rfl
  | some version =>
    rw [Option.getD_some]
    rw [writes] at known
    split at known
    next back => exact recorded.latest_loop apart back left known
    next =>
      rw [position] at known
      exact written name version known

end Versions

theorem Recorded.map_refresh {start : Table Nat} {blocks : List Block} {exits : List (Table Nat)}
    (recorded : Recorded start blocks exits) :
    Recorded start (blocks.map Body.refresh) exits := by
  induction recorded with
  | nil start => exact .nil start
  | cons written grows kept goes _ ih => exact .cons written grows kept goes ih

section Placed

theorem placePhis_sources (sources : String → List (String × Variable)) (versions : Versions)
    (names : List String) :
    ∀ phi ∈ (placePhis sources versions names).1, phi.sources = sources phi.target.name := by
  induction names generalizing versions with
  | nil => simp [placePhis]
  | cons name rest ih =>
    rw [placePhis, List.forall_mem_cons]
    exact ⟨rfl, ih (versions.allocate name).2⟩

theorem getElem?_joinFrom (blocks : List Block) (graph : Graph) (exits : List (Table Nat))
    (index : Nat) (versions : Versions) (rest : List Block) {offset : Nat} {joined : Block}
    (located : (joinFrom blocks graph exits index versions rest).blocks[offset]? = some joined) :
    ∃ block phis, rest[offset]? = some block ∧ joined = block.joinWith phis ∧
      ∀ phi ∈ phis, phi.sources =
        phiSources exits (incoming blocks graph (index + offset)) phi.target.name := by
  induction rest generalizing index versions offset with
  | nil => simp [joinFrom] at located
  | cons block others ih =>
    rw [joinFrom_cons] at located
    cases offset with
    | zero =>
      obtain rfl := Option.some.inj located
      exact ⟨block, _, rfl, rfl, placePhis_sources _ versions _⟩
    | succ offset =>
      have found := ih (index + 1) _ located
      rwa [Nat.add_right_comm] at found

variable {blocks : List Block}
  (noPhi : ∀ instruction ∈ instructionsOf blocks, instruction.isPhi = false)

include noPhi

theorem sources_insertPhis {exits : List (Table Nat)} {versions : Versions} {index : Nat}
    {joined : Block} (located : (insertPhis exits versions blocks).blocks[index]? = some joined)
    {target : Variable} {sources : List (String × Variable)}
    (member : .phi target sources ∈ joined.instructions) :
    sources = phiSources exits (incoming blocks (graphOf blocks) index) target.name := by
  obtain ⟨block, phis, inside, rfl, placed⟩ :=
    getElem?_joinFrom blocks (graphOf blocks) exits 0 versions blocks located
  have plain : ∀ instruction ∈ block.instructions.map (Instruction.substitute (Phi.rule phis)),
      instruction.isPhi = false :=
    Block.joinWith_noPhi_rest fun instruction member =>
      noPhi instruction (List.mem_flatMap.mpr ⟨block, List.mem_of_getElem? inside, member⟩)
  rcases List.mem_append.mp member with front | rest
  · obtain ⟨phi, made, same⟩ := List.mem_map.mp front
    obtain ⟨rfl, rfl⟩ := Instruction.phi.inj same
    rw [placed phi made, Nat.zero_add]
  · cases plain _ rest

end Placed

section Ends

theorem Cut.last_mem (cut : Cut) : cut.last ∈ cut.pieces.map (·.id) := by
  obtain ⟨first, located, _⟩ := cut.first_piece
  have filled : cut.pieces ≠ [] := List.ne_nil_of_mem (List.mem_of_getElem? located)
  rw [Cut.last, List.getLast?_eq_some_getLast filled]
  exact List.mem_map_of_mem (List.getLast_mem filled)

theorem ends_sublist (number : Nat) (blocks : List Block) :
    ((piecesFrom number blocks).2.1.map (·.2)).Sublist
      ((piecesFrom number blocks).1.map (·.id)) := by
  rw [piecesFrom_ends, piecesFrom_eq_flatMap, List.map_map, List.map_flatMap]
  induction cutsFrom number blocks with
  | nil => exact .slnil
  | cons cut rest ih => exact (List.singleton_sublist.mpr cut.last_mem).append ih

variable {number : Nat} {blocks : List Block} (settled : Settled number blocks)

include settled

theorem Settled.get?_ends {cut : Cut} (member : cut ∈ cutsFrom number blocks) :
    (Table.ofList (piecesFrom number blocks).2.1).get? cut.block.id = some cut.last := by
  have ids : (piecesFrom number blocks).2.1.map (·.1) = (graphOf blocks).ids := by
    rw [piecesFrom_ends, graphOf_ids, List.map_map,
      ← congrArg (List.map Block.id) (cutsFrom_blocks number blocks), List.map_map]
    rfl
  apply Table.get?_ofList_of_mem
  · rw [ids]
    exact settled.numbered.distinct
  · rw [piecesFrom_ends]
    exact List.mem_map.mpr ⟨cut, member, rfl⟩

theorem Settled.map_ends {target : String} (known : target ∈ (graphOf blocks).ids) :
    ((graphOf blocks).predecessors target).map (fun id =>
        ((Table.ofList (piecesFrom number blocks).2.1).get? id).getD id) =
      (pieceGraph (piecesFrom number blocks).1).predecessors target := by
  rw [settled.predecessors_eq, settled.pieces_predecessors known, List.map_map]
  apply List.map_congr_left
  intro cut member
  rw [Function.comp_apply, settled.get?_ends (List.mem_filter.mp member).1, Option.getD_some]

end Ends

theorem Block.PhisLead.pairwise {block : Block} (lead : block.PhisLead) :
    block.instructions.Pairwise fun first second =>
      second.isPhi = true → first.isPhi = true := by
  obtain ⟨front, rest, split, phis, plain⟩ := lead
  rw [split, List.pairwise_append]
  refine ⟨?_, ?_, fun first member _ _ _ => phis first member⟩
  · exact List.pairwise_of_forall_mem_list fun first member _ _ _ => phis first member
  · refine List.pairwise_of_forall_mem_list fun _ _ second member phi => ?_
    rw [plain second member] at phi
    cases phi

theorem Block.pieces_sublist (block : Block) {number : Nat} {piece : Piece}
    (member : piece ∈ (block.pieces number).1) :
    piece.instructions.Sublist block.instructions := by
  rw [← block.pieces_instructions number, List.flatMap]
  exact List.sublist_flatten_of_mem (List.mem_map_of_mem member)

namespace Body

def ends (body : Body) : List String := (piecesFrom body.free body.blocks).2.1.map (·.2)

/-- Phis stand first; their sources are the blocks before, in order, each with the version that
`exits` gives at its end. -/
structure PhisMatch (body : Body) (exits : List (Table Nat)) : Prop where
  distinct : body.ends.Nodup
  lead : ∀ piece ∈ body.finish.1, piece.instructions.Pairwise fun first second =>
    second.isPhi = true → first.isPhi = true
  sources : ∀ piece ∈ body.finish.1, ∀ target sources,
    .phi target sources ∈ piece.instructions →
      (pieceGraph body.finish.1).predecessorTable.get? piece.id = some (sources.map (·.1))
  current : ∀ piece ∈ body.finish.1, ∀ target sources,
    .phi target sources ∈ piece.instructions → ∀ source ∈ sources,
      ∃ (index : Nat) (exit : Table Nat), body.ends[index]? = some source.1 ∧
        exits[index]? = some exit ∧ source.2 = ⟨target.name, exit.version target.name⟩

theorem Sound.ends_distinct {body : Body} (sound : body.Sound) : body.ends.Nodup := by
  have distinct := ((piecesFrom_replaces body.free body.blocks).numbered sound.numbered).distinct
  rw [pieceGraph_ids] at distinct
  exact distinct.sublist (ends_sublist body.free body.blocks)

theorem Sound.phi_origin {body : Body} (sound : body.Sound) {piece : Piece}
    (member : piece ∈ body.finish.1) {target : Variable} {sources : List (String × Variable)}
    (found : .phi target sources ∈ piece.instructions) :
    ∃ (index : Nat) (block : Block) (old : List (String × Variable)),
      body.blocks[index]? = some block ∧ piece.id = block.id ∧
        .phi target old ∈ block.instructions ∧
        sources = old.map fun source =>
          (((Table.ofList (piecesFrom body.free body.blocks).2.1).get? source.1).getD source.1,
            source.2) := by
  obtain ⟨early, made, rfl⟩ := List.mem_map.mp member
  obtain ⟨block, inside, start, cut⟩ := mem_piecesFrom body.free body.blocks made
  obtain ⟨before, present, same⟩ := List.mem_map.mp found
  cases before with
  | phi target old =>
    obtain ⟨rfl, rfl⟩ := Instruction.phi.inj same
    obtain ⟨first, holds⟩ := block.pieces_phi start (sound.lead block inside) cut present rfl
    obtain ⟨index, located⟩ := List.getElem?_of_mem inside
    exact ⟨index, block, old, located, first, holds, rfl⟩
  | _ => cases same

section Joined

variable {body : Body} {blocks : List Block} {exits : List (Table Nat)} {versions : Versions}
  {start : Table Nat} (sound : body.Sound)
  (noPhi : ∀ instruction ∈ instructionsOf blocks, instruction.isPhi = false)
  (recorded : Recorded start blocks exits)
  (apart : (graphOf blocks).LoopsApart (blocks.map (·.side)))
  (joined : body.blocks = (insertPhis exits versions blocks).blocks)

include sound noPhi recorded apart joined

theorem Sound.phisMatch_of_joined : body.PhisMatch exits := by
  have graph : graphOf body.blocks = graphOf blocks := by
    rw [joined]
    exact graphOf_joinFrom ..
  have settled : Settled body.free body.blocks := ⟨sound.numbered, sound.decided⟩
  have closed : (graphOf blocks).Closed := graph ▸ settled.closed
  have flow : pieceGraph body.finish.1 = pieceGraph (piecesFrom body.free body.blocks).1 :=
    pieceGraph_splitBlocks body.free body.blocks
  constructor
  · exact sound.ends_distinct
  · intro piece member
    obtain ⟨early, made, rfl⟩ := List.mem_map.mp member
    obtain ⟨block, inside, _, cut⟩ := mem_piecesFrom body.free body.blocks made
    have led := (sound.lead block inside).pairwise.sublist (block.pieces_sublist cut)
    rw [Piece.redirect, List.pairwise_map]
    simpa only [Instruction.isPhi_redirect] using led
  · intro piece member target sources found
    obtain ⟨index, block, old, located, named, holds, rfl⟩ := sound.phi_origin member found
    have placed := sources_insertPhis noPhi (joined ▸ located) holds
    have entered : (graphOf body.blocks).idAt index = piece.id := by
      simp [Graph.idAt, graphOf, located, Block.vertex, named]
    have known : piece.id ∈ (graphOf body.blocks).ids := by
      rw [named]
      exact List.mem_map.mpr
        ⟨block.vertex, List.mem_map_of_mem (List.mem_of_getElem? located), rfl⟩
    have listed : piece.id ∈ (pieceGraph body.finish.1).ids := by
      rw [pieceGraph_ids]
      exact List.mem_map_of_mem member
    rw [Graph.get?_predecessorTable, if_pos listed, flow, ← settled.map_ends known, graph,
      ← entered, graph, ← incoming_ids closed blocks index, placed, phiSources]
    simp
  · intro piece member target sources found source inside
    obtain ⟨index, block, old, located, named, holds, rfl⟩ := sound.phi_origin member found
    have placed := sources_insertPhis noPhi (joined ▸ located) holds
    rw [placed, phiSources, List.map_map] at inside
    obtain ⟨edge, incoming, rfl⟩ := List.mem_map.mp inside
    obtain ⟨exit, left, version⟩ := recorded.source_version apart incoming target.name
    obtain ⟨vertex, position, same⟩ := Graph.getElem?_of_position? (mem_incoming incoming).1
    rw [← graph, graphOf, ← cutsFrom_blocks body.free body.blocks, List.map_map] at position
    obtain ⟨cut, cutAt, rfl⟩ : ∃ cut, (cutsFrom body.free body.blocks)[edge.position]? = some cut ∧
        cut.block.vertex = vertex := by
      simpa using position
    have ended := settled.get?_ends (List.mem_of_getElem? cutAt)
    refine ⟨edge.position, exit, ?_, left, ?_⟩
    · have last : body.ends[edge.position]? = some cut.last := by
        simp [ends, piecesFrom_ends, cutAt]
      rw [last]
      have read : cut.block.id = edge.id := same
      simp only [Function.comp_apply, ← read, ended, Option.getD_some]
    · simp only [Function.comp_apply, version]

end Joined

theorem Sound.phisMatch_of_noPhi {body : Body} (sound : body.Sound)
    (noPhi : ∀ instruction ∈ instructionsOf body.blocks, instruction.isPhi = false)
    (exits : List (Table Nat)) : body.PhisMatch exits := by
  have plain : ∀ piece ∈ body.finish.1, ∀ instruction ∈ piece.instructions,
      instruction.isPhi = false := by
    intro piece member instruction found
    obtain ⟨early, made, rfl⟩ := List.mem_map.mp member
    obtain ⟨before, present, rfl⟩ := List.mem_map.mp found
    rw [Instruction.isPhi_redirect]
    apply noPhi
    rw [← piecesFrom_instructions body.free body.blocks]
    exact List.mem_flatMap.mpr ⟨early, made, present⟩
  constructor
  · exact sound.ends_distinct
  · intro piece member
    refine List.pairwise_of_forall_mem_list fun _ _ second found phi => ?_
    rw [plain piece member second found] at phi
    cases phi
  · intro piece member target sources found
    cases plain piece member _ found
  · intro piece member target sources found
    cases plain piece member _ found

theorem build_loopsApart (scope : Scope) (statements : List Statement) :
    (graphOf (build scope statements).blocks).LoopsApart
      ((build scope statements).blocks.map (·.side)) := by
  have graph : graphOf (build scope statements).blocks = graphOf (flowBlocks statements).1 :=
    (graphOf_joinFrom ..).trans (graphOf_numberFrom ..)
  have sides : (build scope statements).blocks.map (·.side) =
      (flowBlocks statements).1.map (·.side) :=
    (sides_joinFrom ..).trans (sides_numberFrom ..)
  rw [graph, sides]
  exact flowBlocks_loopsApart statements

theorem build_phisMatch (scope : Scope) (statements : List Statement) :
    (build scope statements).PhisMatch
      (numberBlocks scope {} (flowBlocks statements).1).exits := by
  let numbered := numberBlocks scope {} (flowBlocks statements).1
  have apart := build_loopsApart scope statements
  have graph : graphOf (build scope statements).blocks = graphOf numbered.blocks :=
    graphOf_joinFrom ..
  have sides : (build scope statements).blocks.map (·.side) = numbered.blocks.map (·.side) :=
    sides_joinFrom ..
  rw [graph, sides] at apart
  obtain ⟨_, recorded⟩ := numberBlocks_recorded scope (flowBlocks statements).1
  exact (build_sound scope statements).phisMatch_of_joined
    (numberBlocks_extends scope {} (flowBlocks statements).1).noPhi recorded apart rfl

theorem inline_phisMatch (scope : Scope) (statements : List Statement)
    {templates : Table Template} (phiFree : templates.PhiFree) (depth : Nat) (root : String) :
    let built := build scope statements
    let inlined := inlineBlocks templates depth root built.versions built.blocks
    (built.inline templates depth root).PhisMatch
      (if inlined.spliced = 0 then (numberBlocks scope {} (flowBlocks statements).1).exits
        else inlined.exits) := by
  intro built inlined
  have sound := (build_sound scope statements).inline phiFree depth root
  by_cases idle : depth = 0 || !hasTargets templates root built.blocks
  · have same : inlined = { blocks := built.blocks, versions := built.versions } := by
      simp only [inlined, inlineBlocks, idle, if_true]
    have kept : built.inline templates depth root = built := by
      simp [inline, inlineBlocks, idle]
    rw [kept, same]
    exact build_phisMatch scope statements
  · let expanded := built.expanded templates depth root
    have same : inlined = expanded := by
      simp [inlined, expanded, inlineBlocks, idle, Body.expanded]
    have noPhi := (built.expanded_extends depth root phiFree).noPhi
    rw [same]
    by_cases none : expanded.spliced = 0
    · have bare : (built.inline templates depth root).blocks = expanded.blocks := by
        unfold inline
        rw [show inlineBlocks templates depth root built.versions built.blocks = expanded from same,
          if_pos none]
      exact sound.phisMatch_of_noPhi (bare ▸ noPhi) _
    · have joined : (built.inline templates depth root).blocks = (insertPhis expanded.exits
          expanded.versions (expanded.blocks.map refresh)).blocks := by
        unfold inline
        rw [show inlineBlocks templates depth root built.versions built.blocks = expanded from same,
          if_neg none]
      have apart := build_loopsApart scope statements
      have graph : graphOf (expanded.blocks.map refresh) = graphOf built.blocks :=
        (graphOf_refresh expanded.blocks).trans (built.graphOf_expanded templates depth root)
      have sides : (expanded.blocks.map refresh).map (·.side) = built.blocks.map (·.side) := by
        rw [List.map_map]
        exact sides_inlineFrom ..
      have recorded : Recorded Table.empty expanded.blocks expanded.exits :=
        inlineFrom_recorded (graphOf built.blocks) templates depth [root] []
          (.start built.versions.calls) built.blocks
          (fun _ => Nat.le_refl _) (by simp)
      rw [if_neg none]
      exact sound.phisMatch_of_joined ((instructionsOf_refresh expanded.blocks).symm ▸ noPhi)
        recorded.map_refresh (by rw [graph, sides]; exact apart) joined

end Body

/-- However deep calls are expanded, the phis of a finished function match its control flow and
the versions that the walk over its blocks left at the end of each block. -/
theorem finish_phisMatch (scope : Scope) (body : Option Json) (callees : List Callee)
    (depth : Nat) (root : String) :
    let numbered := numberBlocks scope {} (flowBlocks (statementsOf body)).1
    let built := Body.build scope (statementsOf body)
    let inlined := inlineBlocks (templatesOf callees) depth root built.versions built.blocks
    built.PhisMatch numbered.exits ∧
      (built.inline (templatesOf callees) depth root).PhisMatch
        (if inlined.spliced = 0 then numbered.exits else inlined.exits) :=
  ⟨Body.build_phisMatch scope (statementsOf body),
    Body.inline_phisMatch scope (statementsOf body) (templatesOf_phiFree callees) depth root⟩

end Reentrancy
