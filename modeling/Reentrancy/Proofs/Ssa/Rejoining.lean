import Reentrancy.Proofs.Inline.Alike
import Reentrancy.Proofs.Ssa.Current
import Reentrancy.Proofs.Ssa.Headers

/-! What phis do to the reads of their block. A read of a version that a phi joins becomes a read of
the phi. This holds of versions that the block defines itself too: one that comes back around a
loop is joined in the header, and the reads behind its definition go to the phi. -/
namespace Reentrancy

section Renaming

theorem Value.substitute_total (rule : Variable → Option Value) (value : Value) :
    value.substitute rule = value.substitute fun read => some ((rule read).getD (.var read)) := by
  have twice := substitute_substitute (fun _ => none) rule value
  rw [substitute_id (fun _ => rfl) value] at twice
  exact twice

theorem Instruction.substitute_total (rule : Variable → Option Value) (instruction : Instruction) :
    instruction.substitute rule =
      instruction.substitute fun read => some ((rule read).getD (.var read)) := by
  have values := funext (Value.substitute_total rule)
  have previous : Assignment.substitutePrevious rule =
      Assignment.substitutePrevious fun read => some ((rule read).getD (.var read)) := by
    funext read
    unfold Assignment.substitutePrevious
    cases found : rule read <;> simp [found]
  cases instruction with
  | assign assignment => rw [substitute, Assignment.substitute, values, previous]; rfl
  | call operation => rw [substitute, CallOperation.substitute, values]; rfl
  | phi | raw => rfl
  | _ => rw [substitute, values]; rfl

/-- Reads of what the phis join become reads of their targets, and all other reads stay. -/
structure Renames (phis : List Phi) (renamed : Variable → Variable) : Prop where
  joined : ∀ phi ∈ phis, ∀ source ∈ phi.sources,
    renamed source.2 = phi.target ∧ renamed source.2 ≠ source.2
  others : ∀ read, (∀ phi ∈ phis, ∀ source ∈ phi.sources, source.2 ≠ read) → renamed read = read

namespace Phi

def renamed (phis : List Phi) (read : Variable) : Variable :=
  ((phis.find? fun phi => phi.joinsVariable read).map Phi.target).getD read

theorem substitute_rule (phis : List Phi) :
    Instruction.substitute (rule phis) =
      Instruction.substitute fun read => some (.var (renamed phis read)) := by
  funext instruction
  rw [Instruction.substitute_total]
  congr 1
  funext read
  unfold rule renamed
  cases phis.find? fun phi => phi.joinsVariable read <;> rfl

theorem joinsVariable_iff {phi : Phi}
    (uniform : ∀ source ∈ phi.sources, source.2.name = phi.target.name) {read : Variable} :
    phi.joinsVariable read = true ↔ ∃ source ∈ phi.sources, source.2 = read := by
  simp only [joinsVariable, Bool.and_eq_true, beq_iff_eq, List.any_eq_true]
  constructor
  · rintro ⟨named, source, member, version⟩
    have name : source.2.name = read.name := (uniform source member).trans named
    have same : source.2 = read := by
      obtain ⟨_, _, _⟩ := source
      obtain ⟨_, _⟩ := read
      simp_all
    exact ⟨source, member, same⟩
  · rintro ⟨source, member, rfl⟩
    exact ⟨(uniform source member).symm, source, member, rfl⟩

theorem renames {phis : List Phi} (distinct : (phis.map fun phi => phi.target.name).Nodup)
    (uniform : ∀ phi ∈ phis, ∀ source ∈ phi.sources, source.2.name = phi.target.name)
    (fresh : ∀ phi ∈ phis, ∀ source ∈ phi.sources, source.2 ≠ phi.target) :
    Renames phis (renamed phis) := by
  refine ⟨fun phi member source listed => ?_, fun read apart => ?_⟩
  · have joins := (joinsVariable_iff (uniform phi member)).mpr ⟨source, listed, rfl⟩
    have target : renamed phis source.2 = phi.target := by
      unfold renamed
      cases found : phis.find? fun phi => phi.joinsVariable source.2 with
      | none => exact absurd joins (by simpa using List.find?_eq_none.mp found phi member)
      | some other =>
        -- Both join the name of the source, and there is one phi for each name.
        have inside := List.mem_of_find?_eq_some found
        have again : other.joinsVariable source.2 = true := by simpa using List.find?_some found
        obtain ⟨another, here, same⟩ := (joinsVariable_iff (uniform other inside)).mp again
        have names : other.target.name = phi.target.name := by
          rw [← uniform other inside another here, same, uniform phi member source listed]
        exact congrArg Phi.target (List.inj_on_of_nodup_map distinct inside member names)
    exact ⟨target, target ▸ Ne.symm (fresh phi member source listed)⟩
  · have none : (phis.find? fun phi => phi.joinsVariable read) = none := by
      rw [List.find?_eq_none]
      intro phi member joins
      obtain ⟨source, listed, same⟩ := (joinsVariable_iff (uniform phi member)).mp joins
      exact apart phi member source listed same
    rw [renamed, none]
    rfl

end Phi

end Renaming

section Sources

def Incoming.brings (exits : List (Table Nat)) (edge : Incoming) (name : String) : Nat :=
  (edge.writes.get? name).getD
    (((exits[edge.position]?).bind fun exit => exit.get? name).getD 0)

theorem mem_defsOf {blocks : List Block} {defined : Variable} : defined ∈ defsOf blocks ↔
    ∃ block ∈ blocks, defined ∈ block.instructions.flatMap Instruction.defs := by
  rw [defsOf, instructionsOf, List.flatMap_assoc, List.mem_flatMap]

theorem numberBlocks_signed (scope : Scope) (blocks : List Block) :
    ∀ block ∈ (numberBlocks scope {} blocks).blocks, block.Signed :=
  numberFrom_signed _ _ _ _ _

theorem phiSources_eq (exits : List (Table Nat)) (edges : List Incoming) (name : String) :
    phiSources exits edges name =
      edges.map fun edge => (edge.id, ⟨name, edge.brings exits name⟩) := rfl

variable {scope : Scope} {blocks : List Block} {index : Nat} {edge : Incoming}
  (member : edge ∈ incoming (numberBlocks scope {} blocks).blocks
    (graphOf (numberBlocks scope {} blocks).blocks) index) (name : String)

include member

theorem incoming_brings :
    let numbered := numberBlocks scope {} blocks
    let version := edge.brings numbered.exits name
    ∃ exit, numbered.exits[edge.position]? = some exit ∧
      (edge.writes.get? name = none ∧ version = exit.version name ∨
        edge.writes.get? name = some version ∧ ∃ (place : Nat) (block : Block),
          numbered.blocks[place]? = some block ∧
          ⟨name, version⟩ ∈ block.instructions.flatMap Instruction.defs ∧
          (place = edge.position ∧ version = exit.version name ∨ index < place)) := by
  intro numbered version
  obtain ⟨found, writes⟩ := mem_incoming member
  obtain ⟨_, vertexAt, _⟩ := Graph.getElem?_of_position? found
  obtain ⟨source, there, rfl⟩ : ∃ source, numbered.blocks[edge.position]? = some source ∧
      source.vertex = _ := by simpa [graphOf] using vertexAt
  obtain ⟨_, recorded⟩ := numberBlocks_recorded scope blocks
  obtain ⟨exit, left, written⟩ := recorded.written_at there
  have signed := numberBlocks_signed scope blocks
  refine ⟨exit, left, ?_⟩
  cases known : edge.writes.get? name with
  | none =>
    have passed : numbered.exits[edge.position]? = some exit := left
    refine .inl ⟨rfl, ?_⟩
    simp only [version, Incoming.brings, known, passed]
    rfl
  | some latest =>
    have same : version = latest := by simp [version, Incoming.brings, known]
    refine .inr ⟨by rw [same], ?_⟩
    rw [same]
    rw [writes] at known
    split at known
    next =>
      obtain ⟨block, inside, wrote⟩ := mem_of_latestWrites known
      obtain ⟨place, above, _, located⟩ := mem_between.mp inside
      exact ⟨place, block, located,
        (signed block (List.mem_of_getElem? located)).own name latest wrote, .inr above⟩
    next =>
      rw [there] at known
      exact ⟨edge.position, source, there,
        (signed source (List.mem_of_getElem? there)).own name latest known,
        .inl ⟨rfl, written name latest known⟩⟩

theorem incoming_known :
    let numbered := numberBlocks scope {} blocks
    edge.brings numbered.exits name = 0 ∨
      ⟨name, edge.brings numbered.exits name⟩ ∈ defsOf numbered.blocks := by
  intro numbered
  obtain ⟨exit, left, ⟨_, version⟩ | ⟨_, place, block, located, defined, _⟩⟩ :=
    incoming_brings member name
  · have within := (numberBlocks_sees scope blocks).2.within edge.position exit left name
    rw [← version] at within
    exact within.imp_right (defsOf_take_subset numbered.blocks _ ·)
  · exact .inr (mem_defsOf.mpr ⟨block, List.mem_of_getElem? located, defined⟩)

end Sources

section Own

variable {scope : Scope} {blocks : List Block} {index : Nat} {block : Block}
  (located : (numberBlocks scope {} blocks).blocks[index]? = some block) {own : Variable}
  (defined : own ∈ block.instructions.flatMap Instruction.defs)

include located defined

/-- An edge brings a version back to the block that defines it from that block on, where it is
still current. -/
theorem own_comes_back {edge : Incoming} (member : edge ∈ incoming
      (numberBlocks scope {} blocks).blocks (graphOf (numberBlocks scope {} blocks).blocks) index)
    (brings : edge.brings (numberBlocks scope {} blocks).exits own.name = own.version) :
    index ≤ edge.position ∧ ∃ exit,
      (numberBlocks scope {} blocks).exits[edge.position]? = some exit ∧
        own.version = exit.version own.name ∧
        (edge.writes.get? own.name = none ∨ index = edge.position) := by
  have once := numberBlocks_once scope blocks
  obtain ⟨exit, left, cases⟩ := incoming_brings member own.name
  simp only [brings] at cases
  rcases cases with ⟨unwritten, version⟩ | ⟨_, place, other, there, again, origin⟩
  · have known := mem_defsOf.mpr ⟨block, List.mem_of_getElem? located, defined⟩
    have positive := (numberBlocks_positive known).1
    have within := (numberBlocks_sees scope blocks).2.within edge.position exit left own.name
    rw [← version] at within
    obtain ⟨place, other, before, there, again⟩ :=
      mem_defsOf_take (within.resolve_left (by omega))
    obtain rfl := place_unique once located there defined again
    exact ⟨by omega, exit, left, version, .inl unwritten⟩
  · obtain rfl := place_unique once located there defined again
    rcases origin with ⟨rfl, version⟩ | above
    · exact ⟨Nat.le_refl _, exit, left, version, .inr rfl⟩
    · omega

end Own

/-- A version of its own that comes back to the header of a loop and is joined there: it is the
last one of the header, the round does not define the name again, the block before the loop
defines it, and the header reads it. -/
inductive ComesRound (blocks : List Block) : Nat → Variable → Prop where
  | intro {before last : Nat} {init header : Block} {own : Variable}
      (rounds : Rounds (outlinesOf blocks) last (before + 1)) (first : blocks[before]? = some init)
      (located : blocks[before + 1]? = some header)
      (latest : (versionsOf own.name (defsOf [header])).getLast? = some own.version)
      (kept : own.name ∉
        (defsOf ((blocks.take (last + 1)).drop (before + 2))).map Variable.name)
      (early : own.name ∈ (defsOf [init]).map Variable.name)
      (reads : header.accesses.reads.contains own.name = true) : ComesRound blocks (before + 1) own

section Placed

variable (scope : Scope) (blocks : List Block) {index : Nat} {block new : Block}

theorem insertPhis_renames :
    let numbered := numberBlocks scope {} blocks
    let joined := insertPhis numbered.exits numbered.versions numbered.blocks
    numbered.blocks[index]? = some block → joined.blocks[index]? = some new →
      ∃ phis : List Phi, Renames phis (Phi.renamed phis) ∧
        new.instructions = phis.map Phi.instruction ++ block.instructions.map
          (Instruction.substitute fun read => some (.var (Phi.renamed phis read))) ∧
        (phis.map fun phi => phi.target.name) =
          phiNames numbered.blocks (graphOf numbered.blocks) index block ∧
        ∀ phi ∈ phis, phi.sources = phiSources numbered.exits
          (incoming numbered.blocks (graphOf numbered.blocks) index) phi.target.name := by
  intro numbered joined located found
  have noPhi := (numberBlocks_extends scope {} blocks).noPhi
  obtain ⟨before, placed⟩ := getElem?_joined numbered.blocks (graphOf numbered.blocks)
    numbered.exits 0 numbered.versions located
  rw [Nat.zero_add] at placed
  obtain rfl := Option.some.inj (found.symm.trans placed)
  let edges := incoming numbered.blocks (graphOf numbered.blocks) index
  let phis := (phisAt numbered.blocks (graphOf numbered.blocks) numbered.exits index before block).1
  have sources : ∀ phi ∈ phis, phi.sources = phiSources numbered.exits edges phi.target.name :=
    placePhis_sources _ before _
  have names : (phis.map fun phi => phi.target.name) =
      phiNames numbered.blocks (graphOf numbered.blocks) index block := by
    rw [← placePhis_names (phiSources numbered.exits edges) before
      (phiNames numbered.blocks (graphOf numbered.blocks) index block), List.map_map]
    rfl
  -- Targets are counted on from where the definitions of the blocks end.
  have fresh : ∀ phi ∈ phis,
      numbered.versions.counter.version phi.target.name < phi.target.version := by
    intro phi member
    have counted := (joinFrom_defs numbered.blocks (graphOf numbered.blocks) numbered.exits 0
      numbered.versions numbered.blocks noPhi).2 phi.target.name
    obtain ⟨count, _, versions⟩ := counted
    have own : phi.target ∈ phiDefs (block.joinWith phis).instructions :=
      List.mem_flatMap.mpr ⟨phi.instruction, List.mem_filter.mpr
        ⟨List.mem_append_left _ (List.mem_map_of_mem member), rfl⟩, List.mem_singleton_self _⟩
    have listed := mem_versionsOf
      (mem_phiDefs_instructionsOf.mpr ⟨_, List.mem_of_getElem? placed, own⟩)
    rw [versions, List.mem_range'_1] at listed
    exact listed.1
  refine ⟨phis, Phi.renames ?_ ?_ ?_, ?_, names, sources⟩
  · rw [names]
    exact phiNames_nodup ..
  · intro phi member source listed
    rw [sources phi member, phiSources_eq] at listed
    obtain ⟨edge, _, rfl⟩ := List.mem_map.mp listed
    rfl
  · intro phi member source listed same
    have above := fresh phi member
    rw [sources phi member, phiSources_eq] at listed
    obtain ⟨edge, came, rfl⟩ := List.mem_map.mp listed
    have version := congrArg Variable.version same
    dsimp only at version
    rcases incoming_known came phi.target.name with zero | known
    · rw [zero] at version
      omega
    · have below : edge.brings numbered.exits phi.target.name ≤
          numbered.versions.counter.version phi.target.name := (numberBlocks_positive known).2
      omega
  · rw [← Phi.substitute_rule]
    rfl

end Placed

section Exact

variable {scope : Scope} {statements : List Statement}

theorem tail_whole {index last : Nat} {tail : Block}
    (rounds : Rounds (outlinesOf (numberBody scope statements).blocks) last index)
    (ended : (numberBody scope statements).blocks[last]? = some tail) : tail.side = none := by
  have back := backTarget?_rounds (numberBody_closed scope statements)
    (numberBody_laid scope statements) rounds
  obtain @⟨_, _, _, _, _, _, _, inside⟩ := rounds
  have side := numberBody_apart scope statements last index back last (by omega) (Nat.le_refl _)
  simpa [ended] using side

theorem round_exit {index last : Nat} {header : Block} {exit : Table Nat} {name : String}
    (rounds : Rounds (outlinesOf (numberBody scope statements).blocks) last index)
    (located : (numberBody scope statements).blocks[index]? = some header)
    (left : (numberBody scope statements).exits[last]? = some exit)
    (own : name ∈ (defsOf [header]).map Variable.name)
    (kept : name ∉ (defsOf (((numberBody scope statements).blocks.take
      (last + 1)).drop (index + 1))).map Variable.name) :
    (versionsOf name (defsOf [header])).getLast? = some (exit.version name) := by
  obtain @⟨_, _, _, _, _, ended, _, inside⟩ := id rounds
  have above : index < last := by omega
  obtain ⟨tail, tailAt, rfl⟩ := getElem?_of_outlinesOf ended
  have plain := tail_whole rounds tailAt
  have stretch : ((numberBody scope statements).blocks.take (last + 1)).drop index =
      [header] ++ ((numberBody scope statements).blocks.take (last + 1)).drop (index + 1) := by
    rw [List.drop_eq_getElem?_toList_append, List.getElem?_take, if_pos (by omega), located]
    rfl
  have defined : name ∈ (defsOf (((numberBody scope statements).blocks.take
      (last + 1)).drop index)).map Variable.name := by
    rw [stretch, defsOf_append, List.map_append]
    exact List.mem_append_left _ own
  have reached := numberBlocks_last index tailAt plain left defined
  rw [stretch, defsOf_append, versionsOf_append, versionsOf_eq_nil kept] at reached
  rwa [List.append_nil] at reached

theorem own_joined_iff {index : Nat} {block : Block} {own : Variable} {phis : List Phi}
    (located : (numberBody scope statements).blocks[index]? = some block)
    (defined : own ∈ block.instructions.flatMap Instruction.defs)
    (names : (phis.map fun phi => phi.target.name) = phiNames (numberBody scope statements).blocks
      (graphOf (numberBody scope statements).blocks) index block)
    (sources : ∀ phi ∈ phis, phi.sources = phiSources (numberBody scope statements).exits
      (incoming (numberBody scope statements).blocks
        (graphOf (numberBody scope statements).blocks) index) phi.target.name) :
    (∃ phi ∈ phis, ∃ source ∈ phi.sources, source.2 = own) ↔
      ComesRound (numberBody scope statements).blocks index own := by
  have closed := numberBody_closed scope statements
  have laid := numberBody_laid scope statements
  have once := numberBlocks_once scope (flowBlocks statements).1
  have signed := numberBlocks_signed scope (flowBlocks statements).1
  have inner (last first : Nat) : ∀ block ∈ ((numberBody scope statements).blocks.take last).drop
      first, block.Signed := fun block member =>
    signed block (List.mem_of_mem_take (List.mem_of_mem_drop member))
  have mine : own.name ∈ (defsOf [block]).map Variable.name := by
    rw [defsOf_cons]
    exact List.mem_map_of_mem (List.mem_append_left _ defined)
  constructor
  · rintro ⟨phi, member, source, listed, same⟩
    rw [sources phi member, phiSources_eq] at listed
    obtain ⟨edge, came, rfl⟩ := List.mem_map.mp listed
    subst same
    have joined := names ▸ List.mem_map_of_mem member
    obtain ⟨above, exit, left, version, origin⟩ := own_comes_back located defined came rfl
    rcases incoming_order closed laid located came with ⟨below, _⟩ | ⟨rounds, back⟩
    · omega
    · obtain ⟨before, init, tail, rfl, first, _, _, _⟩ := incoming_header closed laid rounds
      have unwritten : edge.writes.get? phi.target.name = none := by
        refine origin.resolve_right fun same => ?_
        obtain @⟨_, _, _, _, _, _, _, inside⟩ := rounds
        omega
      have kept : phi.target.name ∉ (defsOf (((numberBody scope statements).blocks.take
          (edge.position + 1)).drop (before + 2))).map Variable.name := by
        rw [← latestWrites_contains (inner _ _), Table.contains]
        rw [(mem_incoming came).2, if_pos back] at unwritten
        rw [unwritten]
        simp
      obtain ⟨_, round⟩ | ⟨early | round, reads⟩ :=
        (mem_phiNames_header closed laid signed once rounds first located).mp joined
      · exact absurd round kept
      · have latest := round_exit rounds located left mine kept
        rw [← version] at latest
        exact .intro rounds first located latest kept early reads
      · exact absurd round kept
  · rintro @⟨before, last, _, _, _, rounds, first, headed, latest, kept, early, reads⟩
    obtain rfl := Option.some.inj (located.symm.trans headed)
    have joined := (mem_phiNames_header closed laid signed once rounds first headed).mpr
      (.inr ⟨.inl early, reads⟩)
    rw [← names] at joined
    obtain ⟨phi, member, named⟩ := List.mem_map.mp joined
    obtain ⟨_, _, tail, _, _, _, tailAt, edges⟩ := incoming_header closed laid rounds
    let edge : Incoming := ⟨tail.id, last, latestWrites
      (((numberBody scope statements).blocks.take (last + 1)).drop (before + 2))⟩
    have came : edge ∈ incoming (numberBody scope statements).blocks
        (graphOf (numberBody scope statements).blocks) (before + 1) := by
      rw [edges]
      exact List.mem_cons_of_mem _ (List.mem_singleton_self _)
    obtain ⟨exit, left, ⟨_, version⟩ | ⟨written, _⟩⟩ := incoming_brings came own.name
    · have current := round_exit rounds headed left mine kept
      rw [latest, ← version] at current
      refine ⟨phi, member, (edge.id, own), ?_, rfl⟩
      rw [sources phi member, phiSources_eq, named]
      refine List.mem_map.mpr ⟨edge, came, ?_⟩
      rw [← Option.some.inj current]
    · refine absurd ((latestWrites_contains (inner _ _)).mp ?_) kept
      rw [Table.contains, written]
      rfl

end Exact

/-- Phis change the reads of what they join and no others. A version of its own is joined in a block
only if it is still current where an edge comes in from that block or from behind it; in a body
this is so exactly if it comes round in the header of a loop. -/
theorem insertPhis_ownReads (scope : Scope) (blocks : List Block) :
    let numbered := numberBlocks scope {} blocks
    let graph := graphOf numbered.blocks
    let joined := insertPhis numbered.exits numbered.versions numbered.blocks
    ∀ (index : Nat) (block new : Block), numbered.blocks[index]? = some block →
      joined.blocks[index]? = some new →
        ∃ (phis : List Phi) (renamed : Variable → Variable), Renames phis renamed ∧
          new.instructions = phis.map Phi.instruction ++ block.instructions.map
            (Instruction.substitute fun read => some (.var (renamed read))) ∧
          ∀ own ∈ block.instructions.flatMap Instruction.defs,
            (renamed own ≠ own → ∃ id source exit, id ∈ graph.predecessors (graph.idAt index) ∧
              graph.position? id = some source ∧ index ≤ source ∧
              numbered.exits[source]? = some exit ∧ own.version = exit.version own.name) ∧
            ∀ statements, blocks = (flowBlocks statements).1 →
              (renamed own ≠ own ↔ ComesRound numbered.blocks index own) := by
  intro numbered graph joined index block new located found
  obtain ⟨phis, renames, placed, names, sources⟩ := insertPhis_renames scope blocks located found
  have changed (own : Variable) : Phi.renamed phis own ≠ own ↔
      ∃ phi ∈ phis, ∃ source ∈ phi.sources, source.2 = own := by
    constructor
    · intro differs
      by_contra apart
      refine differs (renames.others own fun phi member source listed same => ?_)
      exact apart ⟨phi, member, source, listed, same⟩
    · rintro ⟨phi, member, source, listed, rfl⟩
      exact (renames.joined phi member source listed).2
  refine ⟨phis, Phi.renamed phis, renames, placed, fun own defined => ⟨fun differs => ?_, ?_⟩⟩
  · obtain ⟨phi, member, source, listed, same⟩ := (changed own).mp differs
    rw [sources phi member, phiSources_eq] at listed
    obtain ⟨edge, came, rfl⟩ := List.mem_map.mp listed
    subst same
    obtain ⟨above, exit, left, version, _⟩ := own_comes_back located defined came rfl
    obtain ⟨id, known, made⟩ := List.mem_filterMap.mp came
    obtain ⟨position, stands, rfl⟩ := Option.map_eq_some_iff.mp made
    exact ⟨id, position, exit, known, stands, above, left, version⟩
  · rintro statements rfl
    rw [changed]
    exact own_joined_iff located defined names sources

open Snippet in
/-- The test of `for (x = 0; ++x < n; ) { }` defines `x_2`, which comes round. -/
theorem own_write_of_test_comesRound :
    let test : Expression := .binary "<" (.unary "++" true (named "x")) (named "n")
    let statements := [Statement.forLoop [sets (named "x") (.literal { value := some "0" })] test
      [] [] []]
    let numbered := numberBlocks {} {} (flowBlocks statements).1
    let joined := insertPhis numbered.exits numbered.versions numbered.blocks
    ∃ (block new : Block) (phis : List Phi) (renamed : Variable → Variable),
      numbered.blocks[1]? = some block ∧ joined.blocks[1]? = some new ∧
      ⟨"x", 2⟩ ∈ block.instructions.flatMap Instruction.defs ∧
      ComesRound numbered.blocks 1 ⟨"x", 2⟩ ∧
      new.instructions = phis.map Phi.instruction ++ block.instructions.map
        (Instruction.substitute fun read => some (.var (renamed read))) ∧
      renamed ⟨"x", 2⟩ ≠ ⟨"x", 2⟩ := by
  intro test statements numbered joined
  have outlines : outlinesOf numbered.blocks = outlinesOf (flowBlocks statements).1 :=
    outlinesOf_numberFrom ..
  have rounds : Rounds (outlinesOf numbered.blocks) 3 (0 + 1) := by
    rw [outlines]
    exact ⟨rfl, rfl, rfl, rfl, rfl, .inr ⟨rfl, rfl⟩⟩
  obtain ⟨init, first⟩ : ∃ init, numbered.blocks[0]? = some init :=
    Option.isSome_iff_exists.mp (by decide +kernel)
  obtain ⟨block, located⟩ : ∃ block, numbered.blocks[1]? = some block :=
    Option.isSome_iff_exists.mp (by decide +kernel)
  obtain ⟨new, found⟩ : ∃ new, joined.blocks[1]? = some new :=
    Option.isSome_iff_exists.mp (by decide +kernel)
  have early : (numbered.blocks[0]?).map (fun init => (defsOf [init]).map Variable.name) =
      some ["x"] := by decide +kernel
  have header : (numbered.blocks[1]?).map (fun block => (defsOf [block],
      block.accesses.reads.contains "x")) = some ([⟨"x", 2⟩], true) := by decide +kernel
  have kept : (defsOf ((numbered.blocks.take 4).drop 2)).map Variable.name = [] := by
    decide +kernel
  rw [first] at early
  rw [located] at header
  have initial : (defsOf [init]).map Variable.name = ["x"] := Option.some.inj early
  obtain ⟨defined, reads⟩ := Prod.mk.inj (Option.some.inj header)
  have own : ⟨"x", 2⟩ ∈ block.instructions.flatMap Instruction.defs := by
    have listed : (⟨"x", 2⟩ : Variable) ∈ defsOf [block] := defined ▸ List.mem_singleton_self _
    simpa [defsOf, instructionsOf] using listed
  have comes : ComesRound numbered.blocks 1 ⟨"x", 2⟩ := by
    refine .intro rounds first located (defined ▸ rfl) ?_ ?_ reads
    · rw [kept]
      exact List.not_mem_nil
    · rw [initial]
      exact List.mem_singleton_self _
  obtain ⟨phis, renamed, _, placed, ownReads⟩ :=
    insertPhis_ownReads {} (flowBlocks statements).1 1 block new located found
  exact ⟨block, new, phis, renamed, located, found, own, comes, placed,
    ((ownReads _ own).2 statements rfl).mpr comes⟩

open Snippet in
/-- In `for (x = 0; ++x < n; ) { }` the test defines `x_2` and compares it with `n`, but the phi
for `x` joins `x_2` and the comparison reads the phi. -/
theorem own_write_of_test_renamed :
    let test : Expression := .binary "<" (.unary "++" true (named "x")) (named "n")
    let statements := [Statement.forLoop [sets (named "x") (.literal { value := some "0" })] test
      [] [] []]
    let numbered := numberBlocks {} {} (flowBlocks statements).1
    let joined := insertPhis numbered.exits numbered.versions numbered.blocks
    let told := fun (block : Block) => block.instructions.map fun (instruction : Instruction) =>
      (instruction.defs, instruction.uses)
    (numbered.blocks[1]?).map told =
        some [([⟨"x", 2⟩], [⟨"x", 1⟩]), ([], [⟨"x", 2⟩, ⟨"n", 0⟩])] ∧
      (joined.blocks[1]?).map told =
        some [([⟨"x", 3⟩], [⟨"x", 1⟩, ⟨"x", 2⟩]), ([⟨"x", 2⟩], [⟨"x", 3⟩]),
          ([], [⟨"x", 3⟩, ⟨"n", 0⟩])] := by
  decide +kernel

end Reentrancy
