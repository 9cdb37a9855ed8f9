import Mathlib.Data.List.Sort
import Reentrancy.Proofs.Ssa.Placement

/-! The header of a loop. Two edges lead to it, from the block before it and from the end of a
round, and what they bring in decides which names are joined there. -/
namespace Reentrancy

section Entry

variable {outlines : List Outline} {index : Nat} {header : Outline}

theorem Segment.header_place {next : Exit} {segment : List Outline} (shape : Segment next segment)
    (located : segment[index]? = some header) (role : header.role = some .header) :
    index = 1 ∧ ∃ init, segment[0]? = some init ∧ init.role = some .init ∧
      init.exit = .goto header.id := by
  cases shape with
  | plain =>
    match index, located with
    | 0, rfl => cases role
  | branch =>
    match index, located with
    | 0, rfl => cases role
    | 1, rfl => cases role
    | 2, rfl => cases role
  | forLoop =>
    match index, located with
    | 0, rfl => cases role
    | 1, rfl => exact ⟨rfl, _, rfl, rfl, rfl⟩
    | 2, rfl => cases role
    | 3, rfl => cases role
    | 4, rfl => cases role
  | whileLoop =>
    match index, located with
    | 0, rfl => cases role
    | 1, rfl => exact ⟨rfl, _, rfl, rfl, rfl⟩
    | 2, rfl => cases role
    | 3, rfl => cases role

theorem Laid.entered (laid : Laid outlines) (located : outlines[index]? = some header)
    (role : header.role = some .header) :
    ∃ before init, index = before + 1 ∧ outlines[before]? = some init ∧
      init.role = some .init ∧ init.exit = .goto header.id := by
  induction laid generalizing index with
  | nil => cases located
  | @cons segment rest shape _ ih =>
    rcases Nat.lt_or_ge index segment.length with here | behind
    · rw [List.getElem?_append_left here] at located
      obtain ⟨rfl, init, first, marked, leads⟩ := shape.header_place located role
      refine ⟨0, init, rfl, ?_, marked, leads⟩
      rw [List.getElem?_append_left (Nat.zero_lt_of_lt here)]
      exact first
    · obtain ⟨offset, rfl⟩ := Nat.exists_eq_add_of_le behind
      rw [getElem?_behind] at located
      obtain ⟨before, init, rfl, first, marked, leads⟩ := ih located
      exact ⟨segment.length + before, init, rfl, (getElem?_behind segment rest before).trans first,
        marked, leads⟩

theorem Laid.into_header (laid : Laid outlines) (distinct : (outlineGraph outlines).ids.Nodup)
    {source : Nat} {outline : Outline} (sourceAt : outlines[source]? = some outline)
    (located : outlines[index]? = some header) (role : header.role = some .header)
    (leads : header.id ∈ outline.exit.targets) :
    source + 1 = index ∨ Rounds outlines source index := by
  induction laid generalizing source index with
  | nil => cases located
  | @cons segment rest shape later ih =>
    have vertexAt {place : Nat} {other : Outline}
        (found : (segment ++ rest)[place]? = some other) :
        (outlineGraph (segment ++ rest))[place]? = some other.vertex := by
      rw [outlineGraph, List.getElem?_map, found]
      rfl
    rcases Nat.lt_or_ge source segment.length with here | behind
    · rw [List.getElem?_append_left here] at sourceAt
      obtain ⟨target, other, found, named, jump⟩ := shape.jumps sourceAt leads
      obtain rfl : target = index :=
        (Graph.eq_of_id distinct (vertexAt found) (vertexAt located) named).1
      refine jump.imp_left fun forward => ?_
      obtain ⟨above, below⟩ := forward
      -- A segment does not start with a header, so the header is not the block behind this one.
      rcases Nat.lt_or_eq_of_le below with inside | last
      · rw [List.getElem?_append_left inside] at located
        obtain ⟨rfl, _⟩ := shape.header_place located role
        omega
      · rw [last, ← Nat.add_zero segment.length, getElem?_behind] at located
        obtain ⟨_, _, impossible, _⟩ := later.entered located role
        omega
    · obtain ⟨offset, rfl⟩ := Nat.exists_eq_add_of_le behind
      rw [getElem?_behind] at sourceAt
      obtain ⟨_, target, other, found, named, _⟩ := later.jumps sourceAt leads
      obtain rfl : segment.length + target = index :=
        (Graph.eq_of_id distinct (vertexAt ((getElem?_behind segment rest target).trans found))
          (vertexAt located) named).1
      rw [getElem?_behind] at located
      have apart : (outlineGraph rest).ids.Nodup := by
        rw [outlineGraph_append, Graph.ids, List.map_append] at distinct
        exact (List.nodup_append.mp distinct).2.1
      exact (ih apart sourceAt located).imp (by omega) (Rounds.behind segment)

end Entry

section Edges

variable {blocks : List Block} (closed : (graphOf blocks).Closed) (laid : Laid (outlinesOf blocks))
  {index last : Nat} (rounds : Rounds (outlinesOf blocks) last index)

include closed laid rounds

theorem sources_header : ∃ before init, index = before + 1 ∧ blocks[before]? = some init ∧
    init.role = some .init ∧ (graphOf blocks).sources index = [before, last] := by
  obtain @⟨_, _, headed, role, _, ended, leads, inside⟩ := id rounds
  obtain ⟨header, located, rfl⟩ := getElem?_of_outlinesOf headed
  obtain ⟨tail, tailAt, rfl⟩ := getElem?_of_outlinesOf ended
  obtain ⟨before, _, rfl, initAt, marked, enters⟩ := laid.entered headed role
  obtain ⟨init, first, rfl⟩ := getElem?_of_outlinesOf initAt
  have distinct : (outlineGraph (outlinesOf blocks)).ids.Nodup := by
    rw [outlineGraph_outlinesOf]
    exact closed.distinct
  have edge {source : Nat} {block : Block} (found : blocks[source]? = some block) :
      (graphOf blocks).Edge source (before + 1) ↔ header.id ∈ block.exit.targets := by
    rw [closed.edge_iff (getElem?_graphOf found) (getElem?_graphOf located)]
    exact Graph.links_iff closed.distinct (List.mem_of_getElem? (getElem?_graphOf found))
  refine ⟨before, init, rfl, first, marked, ?_⟩
  have order : before < last := by
    rcases inside with ⟨_, rfl⟩ | ⟨_, rfl⟩ <;> omega
  have sorted : ((graphOf blocks).sources (before + 1)).Pairwise (· < ·) :=
    List.pairwise_lt_range.filter _
  refine List.Perm.eq_of_pairwise ?_ sorted (by simpa using order) ?_
  · intro one two _ _ above below
    omega
  · rw [List.perm_ext_iff_of_nodup (Graph.sources_nodup _ _) (by simpa using Nat.ne_of_lt order)]
    intro source
    rw [Graph.mem_sources, List.mem_cons, List.mem_singleton]
    constructor
    · intro step
      obtain ⟨block, found⟩ : ∃ block, blocks[source]? = some block :=
        ⟨_, List.getElem?_eq_getElem (by simpa [graphOf] using step.source_lt)⟩
      rcases laid.into_header distinct (getElem?_outlinesOf found) headed role
        ((edge found).mp step) with near | far
      · exact .inl (by omega)
      · exact .inr (laid.rounds_unique distinct far rounds)
    · rintro (rfl | rfl)
      · apply (edge first).mpr
        have jump : init.exit = .goto header.id := enters
        rw [jump]
        exact List.mem_singleton_self _
      · apply (edge tailAt).mpr
        have jump : tail.exit = .goto header.id := leads
        rw [jump]
        exact List.mem_singleton_self _

theorem backTarget?_rounds : (graphOf blocks).backTarget? last = some index := by
  obtain ⟨_, _, rfl, _, _, sources⟩ := sources_header closed laid rounds
  obtain @⟨_, _, _, _, _, ended, leads, inside⟩ := id rounds
  obtain ⟨tail, tailAt, rfl⟩ := getElem?_of_outlinesOf ended
  have exit : (graphOf blocks).exitAt last = tail.exit := by
    simp [Graph.exitAt, getElem?_graphOf tailAt, Block.vertex]
  have edge : last ∈ (graphOf blocks).sources _ := sources ▸ List.mem_cons_of_mem _ (.head _)
  exact Graph.backTarget?_iff.mpr ⟨Graph.mem_sources.mp edge, by omega, _, exit.trans leads⟩

theorem incoming_header : ∃ before init tail, index = before + 1 ∧ blocks[before]? = some init ∧
    init.role = some .init ∧ blocks[last]? = some tail ∧
    incoming blocks (graphOf blocks) index =
      [⟨init.id, before, init.versions.writes⟩,
        ⟨tail.id, last, latestWrites ((blocks.take (last + 1)).drop (index + 1))⟩] := by
  have back := backTarget?_rounds closed laid rounds
  obtain ⟨before, init, rfl, first, marked, sources⟩ := sources_header closed laid rounds
  obtain @⟨_, _, headed, _, _, ended, _, _⟩ := id rounds
  obtain ⟨header, located, rfl⟩ := getElem?_of_outlinesOf headed
  obtain ⟨tail, tailAt, rfl⟩ := getElem?_of_outlinesOf ended
  have onward : (graphOf blocks).backTarget? before ≠ some (before + 1) := by
    intro goes
    have below := (Graph.backTarget?_iff.mp goes).2.1
    omega
  have bound := (List.getElem?_eq_some_iff.mp (getElem?_graphOf located)).1
  refine ⟨before, init, tail, rfl, first, marked, tailAt, ?_⟩
  rw [incoming_eq_sources closed.distinct bound, sources]
  simp only [List.map_cons, List.map_nil, writesAlong, if_neg onward, if_pos back, first,
    Graph.idAt, getElem?_graphOf first, getElem?_graphOf tailAt, Option.map_some, Option.getD_some]
  rfl

end Edges

section Need

variable {name : String}

theorem needsPhi_pair {reads : Names} {one two : Incoming}
    (distinct : ([one, two].filterMap fun edge => edge.writes.get? name).Nodup) :
    needsPhi reads [one, two] name = true ↔
      one.writes.contains name = true ∧ two.writes.contains name = true ∨
        (one.writes.contains name = true ∨ two.writes.contains name = true) ∧
          reads.contains name = true := by
  rw [needsPhi_iff]
  dsimp only
  rw [Graph.eraseDups_of_nodup distinct]
  unfold Table.contains
  cases left : one.writes.get? name <;> cases right : two.writes.get? name <;> simp [left, right]

theorem written_of_needsPhi {reads : Names} {edges : List Incoming}
    (needs : needsPhi reads edges name = true) :
    ∃ edge ∈ edges, edge.writes.contains name = true := by
  by_contra none
  have nothing : (edges.filterMap fun edge => edge.writes.get? name) = [] := by
    rw [List.filterMap_eq_nil_iff]
    intro edge member
    have absent : edge.writes.contains name ≠ true := fun found => none ⟨edge, member, found⟩
    simpa [Table.contains] using absent
  rw [needsPhi_iff, nothing] at needs
  simp at needs

theorem mem_phiNames_of_joins {blocks : List Block} {graph : Graph} {index : Nat} {block : Block}
    (joins : graph.joins index = true) :
    name ∈ phiNames blocks graph index block ↔
      needsPhi block.accesses.reads (incoming blocks graph index) name = true := by
  rw [phiNames, if_pos joins, List.mem_filter, Names.mem_toList_ofList]
  refine ⟨And.right, fun needs => ⟨?_, needs⟩⟩
  obtain ⟨edge, member, written⟩ := written_of_needsPhi needs
  exact List.mem_flatMap.mpr ⟨edge, member, Table.mem_keys.mpr written⟩

theorem latestWrites_contains {blocks : List Block} (signed : ∀ block ∈ blocks, block.Signed) :
    (latestWrites blocks).contains name = true ↔ name ∈ (defsOf blocks).map Variable.name := by
  rw [Table.contains]
  constructor
  · intro known
    obtain ⟨version, found⟩ := Option.isSome_iff_exists.mp known
    obtain ⟨block, inside, written⟩ := mem_of_latestWrites found
    have own := (signed block inside).own name version written
    rw [defsOf, instructionsOf, List.flatMap_assoc]
    exact List.mem_map.mpr ⟨⟨name, version⟩, List.mem_flatMap.mpr ⟨block, inside, own⟩, rfl⟩
  · intro member
    obtain ⟨defined, found, rfl⟩ := List.mem_map.mp member
    rw [defsOf, instructionsOf, List.flatMap_assoc] at found
    obtain ⟨block, inside, own⟩ := List.mem_flatMap.mp found
    exact latestWrites_isSome inside ((signed block inside).all defined own)

theorem writes_contains {block : Block} (signed : block.Signed) :
    block.versions.writes.contains name = true ↔ name ∈ (defsOf [block]).map Variable.name := by
  rw [Table.contains, defsOf_cons, defsOf, instructionsOf, List.flatMap_nil, List.flatMap_nil,
    List.append_nil]
  constructor
  · intro known
    obtain ⟨version, found⟩ := Option.isSome_iff_exists.mp known
    exact List.mem_map.mpr ⟨_, signed.own name version found, rfl⟩
  · intro member
    obtain ⟨defined, found, rfl⟩ := List.mem_map.mp member
    exact signed.all defined found

end Need

/-- A name is joined in a header if the block before and the round define it, or if one of them
does and the header reads it. -/
theorem mem_phiNames_header {blocks : List Block} (closed : (graphOf blocks).Closed)
    (laid : Laid (outlinesOf blocks)) (signed : ∀ block ∈ blocks, block.Signed)
    (once : (defsOf blocks).Nodup) {before last : Nat} {init header : Block}
    (rounds : Rounds (outlinesOf blocks) last (before + 1)) (first : blocks[before]? = some init)
    (located : blocks[before + 1]? = some header) {name : String} :
    name ∈ phiNames blocks (graphOf blocks) (before + 1) header ↔
      let early := name ∈ (defsOf [init]).map Variable.name
      let round := name ∈ (defsOf ((blocks.take (last + 1)).drop (before + 2))).map Variable.name
      early ∧ round ∨ (early ∨ round) ∧ header.accesses.reads.contains name = true := by
  obtain ⟨_, other, tail, same, found, _, _, edges⟩ := incoming_header closed laid rounds
  obtain rfl := Nat.succ.inj same
  obtain rfl := Option.some.inj (first.symm.trans found)
  have back := Graph.backTarget?_iff.mp (backTarget?_rounds closed laid rounds)
  have bound := (List.getElem?_eq_some_iff.mp (getElem?_graphOf located)).1
  have joins := (Graph.joins_iff closed.distinct bound).mpr ⟨⟨last, back.1⟩, .inr ⟨last, back⟩⟩
  have distinct := incoming_distinct closed laid signed once located name
  rw [edges] at distinct
  have inner : ∀ block ∈ (blocks.take (last + 1)).drop (before + 2), block.Signed :=
    fun block member => signed block (List.mem_of_mem_take (List.mem_of_mem_drop member))
  rw [mem_phiNames_of_joins joins, edges, needsPhi_pair distinct, latestWrites_contains inner,
    writes_contains (signed init (List.mem_of_getElem? first))]

end Reentrancy
