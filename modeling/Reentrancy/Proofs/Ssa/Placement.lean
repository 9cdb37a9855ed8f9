import Mathlib.Order.Bounds.Defs
import Reentrancy.Proofs.Ssa.Joins

/-! Where phis are placed, as a rule on the blocks as they are given. A block gets a phi for a name
if control joins there and its edges bring in different versions of the name, or if one of them
brings in a version and the block reads the name. -/
namespace Reentrancy

section Counting

theorem one_lt_eraseDups {values : List Nat} :
    1 < values.eraseDups.length ↔ ∃ one ∈ values, ∃ two ∈ values, one ≠ two := by
  cases values with
  | nil => simp
  | cons first rest =>
    rw [List.eraseDups_cons, List.length_cons]
    constructor
    · intro long
      obtain ⟨two, inside⟩ := List.exists_mem_of_length_pos (Nat.lt_of_succ_lt_succ long)
      obtain ⟨later, apart⟩ := List.mem_filter.mp (List.mem_eraseDups.mp inside)
      have differ : two ≠ first := by simpa using apart
      exact ⟨first, List.mem_cons_self, two, List.mem_cons_of_mem _ later, Ne.symm differ⟩
    · rintro ⟨one, left, two, right, differ⟩
      -- At most one of the two is the first value.
      obtain ⟨other, member, apart⟩ : ∃ other ∈ rest, other ≠ first := by
        by_cases same : one = first
        · subst same
          exact ⟨two, (List.mem_cons.mp right).resolve_left (Ne.symm differ), Ne.symm differ⟩
        · exact ⟨one, (List.mem_cons.mp left).resolve_left same, same⟩
      apply Nat.succ_lt_succ
      apply List.length_pos_of_mem
      exact List.mem_eraseDups.mpr (List.mem_filter.mpr ⟨member, by simpa using apart⟩)

theorem one_lt_length {values : List Nat} (distinct : values.Nodup) :
    1 < values.length ↔ ∃ one two, one ≠ two ∧ one ∈ values ∧ two ∈ values := by
  rw [← Graph.eraseDups_of_nodup distinct, one_lt_eraseDups, Graph.eraseDups_of_nodup distinct]
  constructor
  · rintro ⟨one, left, two, right, differ⟩
    exact ⟨one, two, differ, left, right⟩
  · rintro ⟨one, two, differ, left, right⟩
    exact ⟨one, left, two, right, differ⟩

theorem length_filterMap_one {values : List Nat} (distinct : values.Nodup)
    (pick : Nat → Option Nat) :
    (values.filterMap pick).length = 1 ↔ ∃! value, value ∈ values ∧ (pick value).isSome = true := by
  rw [List.length_filterMap_eq_countP, List.countP_eq_length_filter, List.length_eq_one_iff]
  constructor
  · rintro ⟨value, single⟩
    refine ⟨value, ?_, fun other found => ?_⟩
    · exact List.mem_filter.mp (single ▸ List.mem_singleton_self value)
    · have member : other ∈ values.filter fun value => (pick value).isSome :=
        List.mem_filter.mpr found
      exact List.mem_singleton.mp (single ▸ member)
  · rintro ⟨value, found, only⟩
    refine ⟨value, ?_⟩
    have kept := distinct.filter fun value => (pick value).isSome
    apply List.perm_singleton.mp
    rw [List.perm_ext_iff_of_nodup kept (List.nodup_singleton value)]
    intro other
    rw [List.mem_filter, List.mem_singleton]
    constructor
    · exact only other
    · rintro rfl
      exact found

end Counting

namespace Graph

variable {graph : Graph} (distinct : graph.ids.Nodup)

include distinct

theorem joins_iff {index : Nat} (bound : index < graph.length) :
    graph.joins index = true ↔ (∃ source, graph.Edge source index) ∧
      ((∃ one two, one ≠ two ∧ graph.Edge one index ∧ graph.Edge two index) ∨
        ∃ source, graph.GoesBack source index) := by
  have some : ((graph.sources index).map graph.idAt).isEmpty = false ↔
      ∃ source, graph.Edge source index := by
    rw [← Bool.not_eq_true, List.isEmpty_iff, List.map_eq_nil_iff, ← ne_eq, sources_ne_nil]
  have several := one_lt_length (sources_nodup graph index)
  simp only [mem_sources] at several
  rw [joins, predecessors_eq_sources distinct bound]
  simp only [Bool.and_eq_true, Bool.not_eq_true', Bool.or_eq_true, decide_eq_true_eq, some,
    List.length_map, List.contains_iff_mem, mem_headers, ge_iff_le]
  rw [Nat.succ_le_iff, several]

end Graph

section Arrival

variable {blocks : List Block}

/-- The versions of a name that some block behind `target`, up to `source`, writes. -/
def writtenWithin (blocks : List Block) (target source : Nat) (name : String) : Set Nat :=
  {version | ∃ (place : Nat) (block : Block), target < place ∧ place ≤ source ∧
    blocks[place]? = some block ∧ block.versions.writes.get? name = some version}

/-- The version of a name that is written on the way along an edge: what the block before writes,
or the latest write of the loop if the edge goes back. -/
structure Arrives (blocks : List Block) (source target : Nat) (name : String) (version : Nat) :
    Prop where
  around : (graphOf blocks).GoesBack source target →
    IsGreatest (writtenWithin blocks target source name) version
  onward : ¬(graphOf blocks).GoesBack source target →
    ∃ block, blocks[source]? = some block ∧ block.versions.writes.get? name = some version

theorem latestWrites_ge {block : Block} (inside : block ∈ blocks) {name : String} {version : Nat}
    (written : block.versions.writes.get? name = some version) :
    version ≤ (latestWrites blocks).version name := by
  rw [latestWrites_eq_foldl]
  have merged (early : Table Nat) (other : Block) : early.version name ≤
      (mergeWrites early other).version name := by
    unfold Table.version
    rw [get?_mergeWrites]
    cases other.versions.writes.get? name with
    | none => exact Nat.le_refl _
    | some latest => exact Nat.le_max_left _ _
  have grows (early : Table Nat) (others : List Block) :
      early.version name ≤ (others.foldl mergeWrites early).version name := by
    induction others generalizing early with
    | nil => exact Nat.le_refl _
    | cons first rest ih => exact Nat.le_trans (merged early first) (ih _)
  generalize Table.empty = early
  induction blocks generalizing early with
  | nil => cases inside
  | cons first rest ih =>
    rcases List.mem_cons.mp inside with rfl | later
    · refine Nat.le_trans ?_ (grows _ rest)
      rw [Table.version, get?_mergeWrites, written]
      exact Nat.le_max_right _ _
    · exact ih later _

theorem mem_between {first last : Nat} {block : Block} :
    block ∈ (blocks.take (last + 1)).drop (first + 1) ↔
      ∃ place, first < place ∧ place ≤ last ∧ blocks[place]? = some block := by
  rw [List.mem_iff_getElem?]
  constructor
  · rintro ⟨offset, located⟩
    rw [List.getElem?_drop, List.getElem?_take] at located
    split at located
    next inside => exact ⟨first + 1 + offset, by omega, by omega, located⟩
    next => cases located
  · rintro ⟨place, above, below, located⟩
    refine ⟨place - (first + 1), ?_⟩
    rw [List.getElem?_drop, List.getElem?_take, Nat.add_sub_cancel' above, if_pos (by omega)]
    exact located

theorem latestWrites_iff {target source : Nat} {name : String} {version : Nat} :
    (latestWrites ((blocks.take (source + 1)).drop (target + 1))).get? name = some version ↔
      IsGreatest (writtenWithin blocks target source name) version := by
  have written (version : Nat) : version ∈ writtenWithin blocks target source name ↔
      ∃ block ∈ (blocks.take (source + 1)).drop (target + 1),
        block.versions.writes.get? name = some version := by
    simp only [mem_between]
    constructor
    · rintro ⟨place, block, above, below, located, found⟩
      exact ⟨block, ⟨place, above, below, located⟩, found⟩
    · rintro ⟨block, ⟨place, above, below, located⟩, found⟩
      exact ⟨place, block, above, below, located, found⟩
  constructor
  · intro found
    refine ⟨(written version).mpr (mem_of_latestWrites found), fun other member => ?_⟩
    obtain ⟨block, inside, writes⟩ := (written other).mp member
    have below := latestWrites_ge inside writes
    rwa [Table.version, found] at below
  · rintro ⟨member, greatest⟩
    obtain ⟨block, inside, writes⟩ := (written version).mp member
    obtain ⟨latest, found⟩ := Option.isSome_iff_exists.mp
      (latestWrites_isSome inside (by rw [writes]; rfl))
    have below := latestWrites_ge inside writes
    rw [Table.version, found] at below
    have above := greatest ((written latest).mpr (mem_of_latestWrites found))
    rw [found, Nat.le_antisymm above below]

def writesAlong (blocks : List Block) (graph : Graph) (source target : Nat) : Table Nat :=
  if graph.backTarget? source = some target then
    latestWrites ((blocks.take (source + 1)).drop (target + 1))
  else ((blocks[source]?).map fun block => block.versions.writes).getD Table.empty

theorem get?_writesAlong {source target : Nat} {name : String} {version : Nat} :
    (writesAlong blocks (graphOf blocks) source target).get? name = some version ↔
      Arrives blocks source target name version := by
  unfold writesAlong
  split
  next back =>
    have goes := Graph.backTarget?_iff.mp back
    rw [latestWrites_iff]
    exact ⟨fun latest => ⟨fun _ => latest, (absurd goes ·)⟩, fun arrives => arrives.around goes⟩
  next plain =>
    have stays : ¬(graphOf blocks).GoesBack source target := fun goes =>
      plain (Graph.backTarget?_iff.mpr goes)
    constructor
    · intro found
      refine ⟨(absurd · stays), fun _ => ?_⟩
      cases located : blocks[source]? with
      | none => simp [located] at found
      | some block => exact ⟨block, rfl, by simpa [located] using found⟩
    · intro arrives
      obtain ⟨block, located, written⟩ := arrives.onward stays
      simpa [located] using written

theorem incoming_eq_sources (distinct : (graphOf blocks).ids.Nodup) {index : Nat}
    (bound : index < (graphOf blocks).length) :
    incoming blocks (graphOf blocks) index = ((graphOf blocks).sources index).map fun source =>
      { id := (graphOf blocks).idAt source, position := source
        writes := writesAlong blocks (graphOf blocks) source index } := by
  rw [incoming, Graph.predecessors_eq_sources distinct bound, List.filterMap_map,
    ← List.filterMap_eq_map]
  apply List.filterMap_congr
  intro source member
  have inside := List.mem_range.mp (List.mem_filter.mp member).1
  simp only [Function.comp_apply, Graph.position?_idAt distinct inside]
  rfl

end Arrival

/-- The rule for phis, on the blocks as given. -/
structure PhiDue (blocks : List Block) (index : Nat) (name : String) : Prop where
  entered : ∃ source, (graphOf blocks).Edge source index
  joins : (∃ one two, one ≠ two ∧ (graphOf blocks).Edge one index ∧
      (graphOf blocks).Edge two index) ∨ ∃ source, (graphOf blocks).GoesBack source index
  differs : (∃ one two first second, (graphOf blocks).Edge one index ∧
      (graphOf blocks).Edge two index ∧ Arrives blocks one index name first ∧
        Arrives blocks two index name second ∧ first ≠ second) ∨
    (∃! source, (graphOf blocks).Edge source index ∧
        ∃ version, Arrives blocks source index name version) ∧
      ∃ block, blocks[index]? = some block ∧ block.accesses.reads.contains name = true

section Rule

variable {blocks : List Block} (distinct : (graphOf blocks).ids.Nodup) {index : Nat} {block : Block}
  (located : blocks[index]? = some block)

include distinct located

theorem needsPhi_incoming (name : String) :
    needsPhi block.accesses.reads (incoming blocks (graphOf blocks) index) name = true ↔
      (∃ one two first second, (graphOf blocks).Edge one index ∧
        (graphOf blocks).Edge two index ∧ Arrives blocks one index name first ∧
          Arrives blocks two index name second ∧ first ≠ second) ∨
      (∃! source, (graphOf blocks).Edge source index ∧
          ∃ version, Arrives blocks source index name version) ∧
        ∃ block, blocks[index]? = some block ∧ block.accesses.reads.contains name = true := by
  have bound := (List.getElem?_eq_some_iff.mp (getElem?_graphOf located)).1
  have written : (incoming blocks (graphOf blocks) index).filterMap (fun edge =>
      edge.writes.get? name) = ((graphOf blocks).sources index).filterMap fun source =>
        (writesAlong blocks (graphOf blocks) source index).get? name := by
    rw [incoming_eq_sources distinct bound, List.filterMap_map]
    rfl
  rw [needsPhi_iff]
  dsimp only
  rw [written, one_lt_eraseDups, length_filterMap_one (Graph.sources_nodup _ _)]
  simp only [List.mem_filterMap, Graph.mem_sources, get?_writesAlong, Option.isSome_iff_exists,
    located, Option.some.injEq, exists_eq_left']
  apply or_congr_left
  constructor
  · rintro ⟨first, ⟨one, left, here⟩, second, ⟨two, right, there⟩, differ⟩
    exact ⟨one, two, first, second, left, right, here, there, differ⟩
  · rintro ⟨one, two, first, second, left, right, here, there, differ⟩
    exact ⟨first, ⟨one, left, here⟩, second, ⟨two, right, there⟩, differ⟩

theorem mem_phiNames_iff {name : String} :
    name ∈ phiNames blocks (graphOf blocks) index block ↔ PhiDue blocks index name := by
  have bound := (List.getElem?_eq_some_iff.mp (getElem?_graphOf located)).1
  have needs := needsPhi_incoming distinct located name
  have joins := Graph.joins_iff distinct bound
  unfold phiNames
  constructor
  · intro member
    split at member
    next joined =>
      obtain ⟨entered, several⟩ := joins.mp joined
      exact ⟨entered, several, needs.mp (List.mem_filter.mp member).2⟩
    next => cases member
  · intro due
    have known : name ∈ (incoming blocks (graphOf blocks) index).flatMap fun edge =>
        edge.writes.keys := by
      obtain ⟨source, version, edge, arrives⟩ : ∃ source version,
          (graphOf blocks).Edge source index ∧ Arrives blocks source index name version := by
        rcases due.differs with ⟨one, _, first, _, edge, _, arrives, _⟩ |
          ⟨⟨source, ⟨edge, version, arrives⟩, _⟩, _⟩
        · exact ⟨one, first, edge, arrives⟩
        · exact ⟨source, version, edge, arrives⟩
      rw [incoming_eq_sources distinct bound, List.flatMap_map]
      refine List.mem_flatMap.mpr ⟨source, Graph.mem_sources.mpr edge, Table.mem_keys.mpr ?_⟩
      rw [Table.contains, get?_writesAlong.mpr arrives]
      rfl
    rw [if_pos (joins.mpr ⟨due.entered, due.joins⟩), List.mem_filter, Names.mem_toList_ofList]
    exact ⟨known, needs.mpr due.differs⟩

end Rule

section Insertion

variable (blocks : List Block) (graph : Graph) (exits : List (Table Nat))

theorem getElem?_joined {rest : List Block} {offset : Nat} {block : Block} (index : Nat)
    (versions : Versions) (located : rest[offset]? = some block) :
    ∃ before, (joinFrom blocks graph exits index versions rest).blocks[offset]? =
      some (block.joinWith (phisAt blocks graph exits (index + offset) before block).1) := by
  induction rest generalizing index versions offset with
  | nil => cases located
  | cons first others ih =>
    rw [joinFrom_cons]
    cases offset with
    | zero =>
      obtain rfl := Option.some.inj located
      exact ⟨versions, rfl⟩
    | succ offset =>
      obtain ⟨before, found⟩ := ih (index + 1) _ located
      rw [Nat.add_right_comm] at found
      exact ⟨before, found⟩

def phiPairs (index : Nat) : List Block → List (Nat × String)
  | [] => []
  | block :: rest =>
    (phiNames blocks graph index block).map (Prod.mk index) ++ phiPairs (index + 1) rest

variable {blocks graph}

theorem mem_phiPairs {index place : Nat} {name : String} {rest : List Block} :
    (place, name) ∈ phiPairs blocks graph index rest ↔
      ∃ offset block, rest[offset]? = some block ∧ place = index + offset ∧
        name ∈ phiNames blocks graph place block := by
  induction rest generalizing index with
  | nil => simp [phiPairs]
  | cons first others ih =>
    rw [phiPairs, List.mem_append, ih]
    constructor
    · rintro (here | ⟨offset, block, located, rfl, member⟩)
      · obtain ⟨other, member, same⟩ := List.mem_map.mp here
        obtain ⟨rfl, rfl⟩ := Prod.mk.inj same
        exact ⟨0, first, rfl, rfl, member⟩
      · exact ⟨offset + 1, block, located, by omega, member⟩
    · rintro ⟨offset, block, located, rfl, member⟩
      cases offset with
      | zero =>
        obtain rfl := Option.some.inj located
        exact .inl (List.mem_map_of_mem member)
      | succ offset => exact .inr ⟨offset, block, located, by omega, member⟩

theorem phiPairs_nodup (index : Nat) (rest : List Block) :
    (phiPairs blocks graph index rest).Nodup := by
  induction rest generalizing index with
  | nil => exact List.nodup_nil
  | cons first others ih =>
    rw [phiPairs, List.nodup_append]
    refine ⟨?_, ih (index + 1), ?_⟩
    · exact (phiNames_nodup blocks graph index first).map fun _ _ same => (Prod.mk.inj same).2
    · rintro one left _ right rfl
      obtain ⟨name, _, rfl⟩ := List.mem_map.mp left
      obtain ⟨offset, _, _, later, _⟩ := mem_phiPairs.mp right
      omega

theorem joinFrom_inserted (index : Nat) (versions : Versions) (rest : List Block) :
    (joinFrom blocks graph exits index versions rest).inserted =
      (phiPairs blocks graph index rest).length := by
  induction rest generalizing index versions with
  | nil => rfl
  | cons first others ih =>
    have placed := congrArg List.length (placePhis_names
      (phiSources exits (incoming blocks graph index)) versions (phiNames blocks graph index first))
    rw [List.length_map, List.length_map] at placed
    rw [joinFrom_cons, phiPairs, List.length_append, List.length_map, ← ih]
    exact congrArg (· + _) placed

end Insertion

/-- Phis go in front of a block for the names that are due there on the blocks as given, once
each, and the number of all of them is returned. -/
theorem insertPhis_byRule {blocks : List Block} (distinct : (blocks.map (·.id)).Nodup)
    (exits : List (Table Nat)) (versions : Versions) :
    let joined := insertPhis exits versions blocks
    joined.blocks.length = blocks.length ∧
      (∀ (index : Nat) (block new : Block), blocks[index]? = some block →
        joined.blocks[index]? = some new →
          ∃ (phis : List Phi) (rule : Variable → Option Value),
            new.instructions = phis.map Phi.instruction ++
                block.instructions.map (Instruction.substitute rule) ∧
              (phis.map fun phi => phi.target.name).Nodup ∧
              ∀ name, name ∈ (phis.map fun phi => phi.target.name) ↔ PhiDue blocks index name) ∧
      ∃ pairs : List (Nat × String), pairs.Nodup ∧ joined.inserted = pairs.length ∧
        ∀ index name, (index, name) ∈ pairs ↔ PhiDue blocks index name := by
  intro joined
  rw [← graphOf_ids] at distinct
  refine ⟨?_, fun index block new located found => ?_, ?_⟩
  · have same : (graphOf joined.blocks).length = (graphOf blocks).length :=
      congrArg List.length (graphOf_joinFrom ..)
    simpa [graphOf] using same
  · obtain ⟨before, placed⟩ :=
      getElem?_joined blocks (graphOf blocks) exits 0 versions located
    rw [Nat.zero_add] at placed
    obtain rfl := Option.some.inj (found.symm.trans placed)
    let phis := (phisAt blocks (graphOf blocks) exits index before block).1
    have names : (phis.map fun phi => phi.target.name) =
        phiNames blocks (graphOf blocks) index block := by
      rw [← placePhis_names (phiSources exits (incoming blocks (graphOf blocks) index)) before
        (phiNames blocks (graphOf blocks) index block), List.map_map]
      rfl
    refine ⟨phis, Phi.rule phis, rfl, ?_, fun name => ?_⟩
    · rw [names]
      exact phiNames_nodup ..
    · rw [names]
      exact mem_phiNames_iff distinct located
  · refine ⟨phiPairs blocks (graphOf blocks) 0 blocks, phiPairs_nodup 0 blocks,
      joinFrom_inserted exits 0 versions blocks, fun index name => ?_⟩
    rw [mem_phiPairs]
    constructor
    · rintro ⟨offset, block, located, rfl, member⟩
      rw [Nat.zero_add] at member ⊢
      exact (mem_phiNames_iff distinct located).mp member
    · intro due
      obtain ⟨_, edge⟩ := due.entered
      obtain ⟨block, located⟩ : ∃ block, blocks[index]? = some block :=
        ⟨_, List.getElem?_eq_getElem (by simpa [graphOf] using edge.target_lt)⟩
      exact ⟨index, block, located, (Nat.zero_add index).symm,
        (mem_phiNames_iff distinct located).mpr due⟩

/-- The header of a loop whose start and body write `i` gets a phi for it. -/
theorem circling_writes_joined :
    let writing := fun (id : String) (version : Nat) => ({
      id, exit := .goto "h", versions := { writes := Table.ofList [("i", version)] } } : Block)
    let blocks := [writing "a" 1, { id := "h", exit := .branch .missing "b" "e" }, writing "b" 2,
      { id := "e", exit := .ret }]
    (blocks.map (·.id)).Nodup ∧
      ∃ (new : Block) (phi : Phi), (insertPhis [] {} blocks).blocks[1]? = some new ∧
        phi.target.name = "i" ∧ phi.instruction ∈ new.instructions := by
  intro writing blocks
  have distinct : (blocks.map (·.id)).Nodup := by decide
  have enters : (graphOf blocks).Edge 0 1 := by
    rw [Graph.Edge]
    decide
  have back : (graphOf blocks).GoesBack 2 1 := ⟨by rw [Graph.Edge]; decide, by decide, "h", rfl⟩
  have first : Arrives blocks 0 1 "i" 1 :=
    ⟨fun goes => absurd goes.2.1 (by decide), fun _ => ⟨_, rfl, rfl⟩⟩
  have second : Arrives blocks 2 1 "i" 2 := by
    refine ⟨fun _ => ⟨⟨2, _, by decide, by decide, rfl, rfl⟩, ?_⟩, (absurd back ·)⟩
    rintro version ⟨place, block, above, below, located, written⟩
    obtain rfl : place = 2 := by omega
    obtain rfl := Option.some.inj located
    exact Nat.le_of_eq (Option.some.inj written).symm
  have due : PhiDue blocks 1 "i" :=
    ⟨⟨0, enters⟩, .inr ⟨2, back⟩, .inl ⟨0, 2, 1, 2, enters, back.1, first, second, by decide⟩⟩
  obtain ⟨long, placed, _⟩ := insertPhis_byRule distinct [] {}
  have bound : 1 < (insertPhis [] {} blocks).blocks.length := by
    rw [long]
    decide
  have located := List.getElem?_eq_getElem bound
  obtain ⟨phis, _, shape, _, names⟩ := placed 1 _ _ rfl located
  obtain ⟨phi, member, named⟩ := List.mem_map.mp ((names "i").mpr due)
  refine ⟨distinct, _, phi, located, named, ?_⟩
  rw [shape]
  exact List.mem_append_left _ (List.mem_map_of_mem member)

end Reentrancy
