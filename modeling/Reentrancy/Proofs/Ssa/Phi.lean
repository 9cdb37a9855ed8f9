import Reentrancy.Proofs.Ssa.Numbering
import Reentrancy.Ssa.Phi

/-! Phis go in front of blocks that some block goes to. They continue the counters that the
other definitions left, block by block, and change no other definition. Nor do they change what a
block writes, so it makes no difference whether the blocks are replaced in place. -/
namespace Reentrancy

def plainDefs (instructions : List Instruction) : List Variable :=
  (instructions.filter fun instruction => !instruction.isPhi).flatMap Instruction.defs

def phiDefs (instructions : List Instruction) : List Variable :=
  (instructions.filter Instruction.isPhi).flatMap Instruction.defs

theorem plainDefs_append (first second : List Instruction) :
    plainDefs (first ++ second) = plainDefs first ++ plainDefs second := by
  simp [plainDefs]

theorem phiDefs_append (first second : List Instruction) :
    phiDefs (first ++ second) = phiDefs first ++ phiDefs second := by
  simp [phiDefs]

theorem plainDefs_of_noPhi {instructions : List Instruction}
    (noPhi : ∀ instruction ∈ instructions, instruction.isPhi = false) :
    plainDefs instructions = instructions.flatMap Instruction.defs := by
  have kept : instructions.filter (fun instruction => !instruction.isPhi) = instructions :=
    List.filter_eq_self.mpr fun instruction member => by simp [noPhi instruction member]
  rw [plainDefs, kept]

theorem phiDefs_of_noPhi {instructions : List Instruction}
    (noPhi : ∀ instruction ∈ instructions, instruction.isPhi = false) :
    phiDefs instructions = [] := by
  have none : instructions.filter Instruction.isPhi = [] :=
    List.filter_eq_nil_iff.mpr fun instruction member => by simp [noPhi instruction member]
  rw [phiDefs, none, List.flatMap_nil]

theorem placePhis_continues (sources : String → List (String × Variable)) (versions : Versions)
    (names : List String) :
    Continues versions.counter ((placePhis sources versions names).1.map (·.target))
      (placePhis sources versions names).2.counter := by
  induction names generalizing versions with
  | nil => exact .nil _
  | cons name rest ih =>
    exact (Continues.allocate versions name).append (ih (versions.allocate name).2)

namespace Block

variable {block : Block} {phis : List Phi}

theorem joinWith_noPhi_rest
    (noPhi : ∀ instruction ∈ block.instructions, instruction.isPhi = false) :
    ∀ instruction ∈ block.instructions.map (Instruction.substitute (Phi.rule phis)),
      instruction.isPhi = false := by
  intro instruction member
  obtain ⟨old, inside, rfl⟩ := List.mem_map.mp member
  rw [Instruction.isPhi_substitute]
  exact noPhi old inside

theorem plainDefs_joinWith
    (noPhi : ∀ instruction ∈ block.instructions, instruction.isPhi = false) :
    plainDefs (block.joinWith phis).instructions = block.instructions.flatMap Instruction.defs := by
  have front : plainDefs (phis.map Phi.instruction) = [] := by
    simp [plainDefs, List.filter_map, Function.comp_def, Phi.instruction, Instruction.isPhi]
  rw [joinWith, plainDefs_append, front, List.nil_append,
    plainDefs_of_noPhi (joinWith_noPhi_rest noPhi), List.flatMap_map]
  simp

theorem phiDefs_joinWith
    (noPhi : ∀ instruction ∈ block.instructions, instruction.isPhi = false) :
    phiDefs (block.joinWith phis).instructions = phis.map (·.target) := by
  have front : phiDefs (phis.map Phi.instruction) = phis.map (·.target) := by
    induction phis with
    | nil => rfl
    | cons phi rest ih => exact congrArg (phi.target :: ·) ih
  rw [joinWith, phiDefs_append, front, phiDefs_of_noPhi (joinWith_noPhi_rest noPhi),
    List.append_nil]

end Block

section Joined

variable (blocks : List Block) (graph : Graph) (exits : List (Table Nat))

def phisAt (index : Nat) (versions : Versions) (block : Block) : List Phi × Versions :=
  placePhis (phiSources exits (incoming blocks graph index)) versions
    (phiNames blocks graph index block)

theorem joinFrom_cons (index : Nat) (versions : Versions) (block : Block) (rest : List Block) :
    joinFrom blocks graph exits index versions (block :: rest) =
      let phis := phisAt blocks graph exits index versions block
      let others := joinFrom blocks graph exits (index + 1) phis.2 rest
      { blocks := block.joinWith phis.1 :: others.blocks
        inserted := phis.1.length + others.inserted
        versions := others.versions } := rfl

theorem joinFrom_defs (index : Nat) (versions : Versions) (rest : List Block)
    (noPhi : ∀ instruction ∈ instructionsOf rest, instruction.isPhi = false) :
    let joined := joinFrom blocks graph exits index versions rest
    plainDefs (instructionsOf joined.blocks) = (instructionsOf rest).flatMap Instruction.defs ∧
      Continues versions.counter (phiDefs (instructionsOf joined.blocks))
        joined.versions.counter := by
  induction rest generalizing index versions with
  | nil => exact ⟨rfl, .nil _⟩
  | cons block others ih =>
    have here : ∀ instruction ∈ block.instructions, instruction.isPhi = false :=
      fun instruction member => noPhi instruction (List.mem_append_left _ member)
    obtain ⟨plain, phis⟩ := ih (index + 1) (phisAt blocks graph exits index versions block).2
      fun instruction member => noPhi instruction (List.mem_append_right _ member)
    rw [joinFrom_cons]
    simp only [instructionsOf, List.flatMap_cons, plainDefs_append, phiDefs_append,
      Block.plainDefs_joinWith here, Block.phiDefs_joinWith here, List.flatMap_append]
    refine ⟨congrArg _ plain, ?_⟩
    exact (placePhis_continues _ versions _).append phis

theorem mem_joinFrom {joined : Block} (index : Nat) (versions : Versions) (rest : List Block)
    (located : ∀ offset block, rest[offset]? = some block → graph.idAt (index + offset) = block.id)
    (member : joined ∈ (joinFrom blocks graph exits index versions rest).blocks) :
    ∃ block ∈ rest, ∃ phis, joined = block.joinWith phis ∧
      (phis ≠ [] → graph.predecessors block.id ≠ []) := by
  induction rest generalizing index versions with
  | nil => simp [joinFrom] at member
  | cons block others ih =>
    rw [joinFrom_cons] at member
    rcases List.mem_cons.mp member with first | later
    · refine ⟨block, List.mem_cons_self, _, first, fun placed lonely => placed ?_⟩
      have here : graph.idAt index = block.id := located 0 block rfl
      simp [phisAt, phiNames, Graph.joins, here, lonely, placePhis]
    · have shifted (offset : Nat) (other : Block) (found : others[offset]? = some other) :
          graph.idAt (index + 1 + offset) = other.id := by
        rw [Nat.add_assoc, Nat.add_comm 1]
        exact located (offset + 1) other found
      obtain ⟨found, inside, phis, equal, before⟩ := ih (index + 1) _ shifted later
      exact ⟨found, List.mem_cons_of_mem _ inside, phis, equal, before⟩

end Joined

theorem graphOf_joinFrom (blocks : List Block) (graph : Graph) (exits : List (Table Nat))
    (index : Nat) (versions : Versions) (rest : List Block) :
    graphOf (joinFrom blocks graph exits index versions rest).blocks = graphOf rest := by
  induction rest generalizing index versions with
  | nil => rfl
  | cons block others ih => exact congrArg (block.vertex :: ·) (ih _ _)

section InPlace

variable (graph : Graph) (exits : List (Table Nat))

/-- The block at a position is replaced in the list that the steps after this one read. -/
def joinAt (joined : Joined) (index : Nat) : Joined :=
  match joined.blocks[index]? with
  | none => joined
  | some block =>
    let phis := phisAt joined.blocks graph exits index joined.versions block
    { blocks := joined.blocks.set index (block.joinWith phis.1)
      inserted := joined.inserted + phis.1.length
      versions := phis.2 }

/-- Of the blocks around it a block meets only what they write. -/
theorem incoming_of_writes {first second : List Block}
    (same : first.map (·.versions.writes) = second.map (·.versions.writes)) (index : Nat) :
    incoming first graph index = incoming second graph index := by
  have latest (slice : List Block) :
      latestWrites slice = ((slice.map (·.versions.writes)).flatMap (·.entries)).foldl
        (fun latest entry => latest.insert entry.1 (max (latest.version entry.1) entry.2))
          Table.empty := by
    rw [latestWrites, List.flatMap_map]
  unfold incoming
  simp only [latest, List.map_drop, List.map_take, ← List.getElem?_map, same]

theorem phisAt_of_writes {first second : List Block}
    (same : first.map (·.versions.writes) = second.map (·.versions.writes)) (index : Nat)
    (versions : Versions) (block : Block) :
    phisAt first graph exits index versions block =
      phisAt second graph exits index versions block := by
  rw [phisAt, phisAt, phiNames, phiNames, incoming_of_writes graph same]

/-- The blocks in front are done. They write what they wrote before, so the step places the phis
that the blocks as they were given ask for. -/
theorem joinAt_append {blocks done rest : List Block} {block : Block}
    (same : (done ++ block :: rest).map (·.versions.writes) = blocks.map (·.versions.writes))
    (inserted : Nat) (versions : Versions) :
    let phis := phisAt blocks graph exits done.length versions block
    joinAt graph exits ⟨done ++ block :: rest, inserted, versions⟩ done.length =
      ⟨(done ++ [block.joinWith phis.1]) ++ rest, inserted + phis.1.length, phis.2⟩ := by
  have located : (done ++ block :: rest)[done.length]? = some block := by simp
  simp only [joinAt, located, phisAt_of_writes graph exits same]
  simp

theorem foldl_joinAt {blocks done rest : List Block}
    (same : (done ++ rest).map (·.versions.writes) = blocks.map (·.versions.writes))
    (inserted : Nat) (versions : Versions) :
    let others := joinFrom blocks graph exits done.length versions rest
    (List.range' done.length rest.length).foldl (joinAt graph exits)
        ⟨done ++ rest, inserted, versions⟩ =
      ⟨done ++ others.blocks, inserted + others.inserted, others.versions⟩ := by
  induction rest generalizing done inserted versions with
  | nil => rfl
  | cons block rest ih =>
    let phis := phisAt blocks graph exits done.length versions block
    have kept : ((done ++ [block.joinWith phis.1]) ++ rest).map (·.versions.writes) =
        blocks.map (·.versions.writes) := by
      rw [← same]
      simp [Block.joinWith]
    have later := ih kept (inserted + phis.1.length) phis.2
    rw [List.length_append, List.length_singleton] at later
    rw [List.length_cons, List.range'_succ, List.foldl_cons, joinAt_append graph exits same, later,
      joinFrom_cons, List.append_assoc, Nat.add_assoc]
    rfl

/-- Nothing is lost by reading the blocks as they were given: the pass that replaces them one after
another, each step reading what the steps before it left, inserts the same phis. -/
theorem insertPhis_inPlace (versions : Versions) (blocks : List Block) :
    (List.range blocks.length).foldl (joinAt (graphOf blocks) exits) { blocks, versions } =
      insertPhis exits versions blocks := by
  have run := @foldl_joinAt (graphOf blocks) exits blocks [] blocks rfl 0 versions
  rw [List.range_eq_range']
  refine run.trans ?_
  rw [Nat.zero_add]
  rfl

end InPlace

end Reentrancy
