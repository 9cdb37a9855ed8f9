import Reentrancy.Proofs.Ssa.Layout
import Reentrancy.Proofs.Ssa.PhiSources
import Reentrancy.Proofs.Ssa.Straight

/-! Operands are defined before they are read. The versions current at a place were defined by
the blocks that numbering went through to get there, and phis only replace operands inside their
own block. -/
namespace Reentrancy

def defsOf (blocks : List Block) : List Variable := (instructionsOf blocks).flatMap Instruction.defs

theorem defsOf_append (first second : List Block) :
    defsOf (first ++ second) = defsOf first ++ defsOf second := by
  simp [defsOf, instructionsOf]

theorem defsOf_cons (block : Block) (rest : List Block) :
    defsOf (block :: rest) = block.instructions.flatMap Instruction.defs ++ defsOf rest := by
  simp [defsOf, instructionsOf]

theorem Supplied.mono {known more : List Variable} (subset : known ⊆ more)
    {instructions : List Instruction} (supplied : Supplied known instructions) :
    Supplied more instructions := by
  induction instructions generalizing known more with
  | nil => trivial
  | cons first rest ih =>
    obtain ⟨reads, later⟩ := supplied
    refine ⟨fun read member => (reads read member).imp_right (subset ·), ih ?_ later⟩
    exact List.append_subset.mpr ⟨List.subset_append_of_subset_left _ subset,
      List.subset_append_right _ _⟩

def Table.Within (table : Table Nat) (known : List Variable) : Prop :=
  ∀ name, table.version name = 0 ∨ ⟨name, table.version name⟩ ∈ known

namespace Table.Within

variable {table : Table Nat} {known : List Variable}

theorem mono (within : table.Within known) {more : List Variable} (subset : known ⊆ more) :
    table.Within more :=
  fun name => (within name).imp_right (subset ·)

theorem resume {versions : Versions} (within : versions.current.Within known)
    (earlier : table.Within known) : (versions.resume table).current.Within known := by
  intro name
  rw [Versions.current_resume]
  rcases Nat.le_total (versions.current.version name) (table.version name) with below | above
  · rw [Nat.max_eq_right below]
    exact earlier name
  · rw [Nat.max_eq_left above]
    exact within name

end Table.Within

theorem Versions.Latest.within {before after : Versions} {defined known : List Variable}
    (latest : before.Latest defined after) (within : before.current.Within known) :
    after.current.Within (known ++ defined) := by
  intro name
  rcases latest name with last | ⟨_, kept⟩
  · exact .inr (List.mem_append_right _ last)
  · rw [kept]
    exact (within name).imp_right (List.mem_append_left _)

section Numbering

theorem Block.number_supplied (block : Block) (scope : Scope) {versions : Versions}
    {known : List Variable} (within : versions.current.Within known) :
    let numbered := block.number scope versions
    Supplied known numbered.1.instructions ∧
      numbered.2.2.current.Within (known ++ numbered.1.instructions.flatMap Instruction.defs) := by
  obtain ⟨_, _, _, run⟩ := lowerParts_runs scope [] block.parts versions [] (by simp)
  exact ⟨run.supplied ⟨by simp, within⟩, run.latest.2.within within⟩

namespace Block

def test? (block : Block) (graph : Graph) : Option Nat :=
  match block.side, graph.predecessors block.id with
  | some _, [test] => graph.position? test
  | _, _ => none

/-- The number of blocks that a block comes after: an arm of a branch comes after its test, any
other block after all before it. -/
def entry (block : Block) (graph : Graph) (index : Nat) : Nat :=
  ((block.test? graph).filter (· < index)).elim index (· + 1)

variable (block : Block) (graph : Graph)

theorem entry_le (index : Nat) : block.entry graph index ≤ index := by
  unfold entry
  cases found : (block.test? graph).filter (· < index) with
  | none => exact Nat.le_refl _
  | some position =>
    have below := (Option.filter_eq_some_iff.mp found).2
    exact of_decide_eq_true below

theorem armEntry?_eq (exits : List (Table Nat)) :
    block.armEntry? graph exits = (block.test? graph).bind fun index => exits[index]? := by
  unfold armEntry? test?
  cases block.side with
  | none => rfl
  | some arm =>
    match graph.predecessors block.id with
    | [] => rfl
    | [test] => rfl
    | _ :: _ :: _ => rfl

theorem armEntry?_cases (exits : List (Table Nat)) :
    block.armEntry? graph exits = none ∧ block.entry graph exits.length = exits.length ∨
      ∃ position table, block.armEntry? graph exits = some table ∧
        exits[position]? = some table ∧ block.entry graph exits.length = position + 1 := by
  rw [armEntry?_eq, entry]
  cases block.test? graph with
  | none => exact .inl ⟨rfl, rfl⟩
  | some position =>
    rcases Nat.lt_or_ge position exits.length with inside | outside
    · have located := List.getElem?_eq_getElem inside
      exact .inr ⟨position, exits[position], located, located, by simp [Option.filter, inside]⟩
    · exact .inl ⟨List.getElem?_eq_none outside, by simp [Option.filter, Nat.not_lt.mpr outside]⟩

end Block

/-- Every block reads what the blocks that it comes after define, or what it defines itself. -/
def Sees (graph : Graph) (blocks : List Block) : Prop :=
  ∀ (index : Nat) (block : Block), blocks[index]? = some block →
    Supplied (defsOf (blocks.take (block.entry graph index))) block.instructions

structure Leaves (blocks : List Block) (exits : List (Table Nat)) : Prop where
  ended : exits.length = blocks.length
  within : ∀ (index : Nat) (table : Table Nat), exits[index]? = some table →
    table.Within (defsOf (blocks.take (index + 1)))

section Walk

variable {graph : Graph} {front : List Block} {exits : List (Table Nat)}

theorem Sees.snoc (sees : Sees graph front) {block : Block}
    (supplied : Supplied (defsOf (front.take (block.entry graph front.length)))
      block.instructions) : Sees graph (front ++ [block]) := by
  intro index other located
  rcases Nat.lt_or_ge index front.length with before | after
  · rw [List.getElem?_append_left before] at located
    have below := Nat.le_trans (other.entry_le graph index) (Nat.le_of_lt before)
    rw [List.take_append_of_le_length below]
    exact sees index other located
  · obtain ⟨offset, rfl⟩ := Nat.exists_eq_add_of_le after
    rw [getElem?_behind] at located
    obtain ⟨rfl, rfl⟩ : offset = 0 ∧ block = other := by
      cases offset with
      | zero => exact ⟨rfl, Option.some.inj located⟩
      | succ offset => cases located
    rw [Nat.add_zero, List.take_append_of_le_length (block.entry_le graph front.length)]
    exact supplied

theorem Leaves.snoc (leaves : Leaves front exits) {block : Block} {table : Table Nat}
    (within : table.Within (defsOf (front ++ [block]))) :
    Leaves (front ++ [block]) (exits ++ [table]) := by
  refine ⟨by simp [leaves.ended], fun index other located => ?_⟩
  rcases Nat.lt_or_ge index exits.length with before | after
  · rw [List.getElem?_append_left before] at located
    rw [List.take_append_of_le_length (leaves.ended ▸ before)]
    exact leaves.within index other located
  · obtain ⟨offset, rfl⟩ := Nat.exists_eq_add_of_le after
    rw [getElem?_behind] at located
    obtain ⟨rfl, rfl⟩ : offset = 0 ∧ table = other := by
      cases offset with
      | zero => exact ⟨rfl, Option.some.inj located⟩
      | succ offset => cases located
    rw [List.take_of_length_le (by simp [leaves.ended])]
    exact within

theorem defsOf_take_subset (blocks : List Block) (count : Nat) :
    defsOf (blocks.take count) ⊆ defsOf blocks := by
  rw [← List.take_append_drop count blocks, defsOf_append, List.take_append_drop]
  exact List.subset_append_left _ _

theorem numberFrom_sees (scope : Scope) (sees : Sees graph front) (leaves : Leaves front exits)
    (versions : Versions) (within : versions.current.Within (defsOf front)) (blocks : List Block) :
    let numbered := numberFrom graph scope exits versions blocks
    Sees graph (front ++ numbered.blocks) ∧
      Leaves (front ++ numbered.blocks) (exits ++ numbered.exits) := by
  induction blocks generalizing front exits versions with
  | nil => simpa [numberFrom] using ⟨sees, leaves⟩
  | cons block rest ih =>
    let entry := block.armEntry? graph exits
    let start : Versions := { versions with current := entry.getD versions.current }
    let first := (block.number scope start).1
    let after := (block.number scope start).2.2
    let resumed := if entry.isSome then after.resume versions.current else after
    let known := defsOf (front.take (block.entry graph front.length))
    have started : start.current.Within known := by
      unfold start known
      rw [← leaves.ended]
      rcases block.armEntry?_cases graph exits with ⟨none, whole⟩ | ⟨test, table, arm, left, behind⟩
      · rw [whole, leaves.ended, List.take_length]
        simpa [entry, none] using within
      · rw [behind]
        simpa [entry, arm] using leaves.within test table left
    obtain ⟨supplied, left⟩ := block.number_supplied scope started
    have grown : known ++ first.instructions.flatMap Instruction.defs ⊆
        defsOf (front ++ [first]) := by
      rw [defsOf_append]
      refine List.append_subset.mpr ⟨?_, ?_⟩
      · exact List.subset_append_of_subset_left _ (defsOf_take_subset front _)
      · exact List.subset_append_of_subset_right _ (by simp [defsOf, instructionsOf])
    have ended : after.current.Within (defsOf (front ++ [first])) := left.mono grown
    have going : resumed.current.Within (defsOf (front ++ [first])) := by
      unfold resumed
      split
      · refine ended.resume (within.mono ?_)
        rw [defsOf_append]
        exact List.subset_append_left _ _
      · exact ended
    have seen : Sees graph (front ++ [first]) := sees.snoc supplied
    have later := ih seen (leaves.snoc ended) resumed going
    simp only [List.append_assoc, List.singleton_append] at later
    exact later

end Walk

theorem numberBlocks_sees (scope : Scope) (blocks : List Block) :
    let numbered := numberBlocks scope {} blocks
    Sees (graphOf blocks) numbered.blocks ∧ Leaves numbered.blocks numbered.exits := by
  have none : Sees (graphOf blocks) [] := fun index block located => by cases located
  have start : Leaves [] [] := ⟨rfl, fun index table located => by cases located⟩
  refine numberFrom_sees scope none start _ (fun name => .inl ?_) blocks
  exact current_seed _ {} name

end Numbering

section Joining

theorem Phi.rule_cases (phis : List Phi) (read : Variable) :
    Phi.rule phis read = none ∨ ∃ phi ∈ phis, Phi.rule phis read = some (.var phi.target) := by
  unfold rule
  cases found : phis.find? fun phi => phi.joinsVariable read with
  | none => exact .inl rfl
  | some phi => exact .inr ⟨phi, List.mem_of_find?_eq_some found, rfl⟩

theorem split_behind_phis {phis rest before after : List Instruction} {use : Instruction}
    (front : ∀ instruction ∈ phis, instruction.isPhi = true)
    (split : phis ++ rest = before ++ use :: after) (plain : use.isPhi = false) :
    ∃ inner, before = phis ++ inner ∧ rest = inner ++ use :: after := by
  rcases List.append_eq_append_iff.mp split with ⟨inner, left, right⟩ | ⟨inner, left, right⟩
  · exact ⟨inner, left, right⟩
  · cases inner with
    | nil => exact ⟨[], by simpa using left.symm, by simpa using right.symm⟩
    | cons first others =>
      obtain ⟨rfl, _⟩ := List.cons.inj right
      have phi := front use (left ▸ List.mem_append_right _ List.mem_cons_self)
      rw [plain] at phi
      cases phi

theorem Block.joinWith_reads {block : Block} {known : List Variable}
    (supplied : Supplied known block.instructions) (phis : List Phi)
    {before after : List Instruction} {use : Instruction}
    (split : (block.joinWith phis).instructions = before ++ use :: after)
    (plain : use.isPhi = false) {read : Variable} (member : read ∈ use.uses) :
    read.version = 0 ∨ read ∈ known ∨ read ∈ before.flatMap Instruction.defs := by
  have front : ∀ instruction ∈ phis.map Phi.instruction, instruction.isPhi = true := by
    intro instruction inside
    obtain ⟨phi, _, rfl⟩ := List.mem_map.mp inside
    rfl
  obtain ⟨inner, rfl, rest⟩ := split_behind_phis front split plain
  obtain ⟨early, tail, whole, rfl, others⟩ := List.map_eq_append_iff.mp rest
  obtain ⟨old, late, rfl, rfl, _⟩ := List.map_eq_cons_iff.mp others
  have same : (early.map (Instruction.substitute (Phi.rule phis))).flatMap Instruction.defs =
      early.flatMap Instruction.defs := by simp [List.flatMap_map]
  rw [List.flatMap_append, same, List.mem_append]
  have oldPlain : old.isPhi = false := by simpa using plain
  obtain ⟨source, inside, found⟩ := Instruction.mem_uses_substitute oldPlain member
  have before := (whole ▸ supplied).defined_before source inside
  rw [List.mem_append] at before
  rcases Phi.rule_cases phis source with none | ⟨phi, placed, some⟩
  · obtain rfl : read = source := by
      simpa [none, Value.reads, Assignment.substitutePrevious] using found
    exact before.imp_right (Or.imp_right .inr)
  · obtain rfl : read = phi.target := by
      simpa [some, Value.reads, Assignment.substitutePrevious] using found
    refine .inr (.inr (.inl ?_))
    exact List.mem_flatMap.mpr ⟨phi.instruction, List.mem_map_of_mem placed,
      List.mem_singleton_self phi.target⟩

theorem joinFrom_at (blocks : List Block) (graph : Graph) (exits : List (Table Nat))
    (index : Nat) (versions : Versions) {rest : List Block} {offset : Nat} {block : Block}
    (located : rest[offset]? = some block) :
    ∃ phis, (joinFrom blocks graph exits index versions rest).blocks[offset]? =
      some (block.joinWith phis) := by
  induction rest generalizing index versions offset with
  | nil => cases located
  | cons first others ih =>
    rw [joinFrom_cons]
    cases offset with
    | zero =>
      obtain rfl := Option.some.inj located
      exact ⟨_, rfl⟩
    | succ offset => exact ih (index + 1) _ located

end Joining

theorem mem_defsOf_take {blocks : List Block} {count : Nat} {read : Variable}
    (member : read ∈ defsOf (blocks.take count)) :
    ∃ (origin : Nat) (other : Block), origin < count ∧ blocks[origin]? = some other ∧
      read ∈ other.instructions.flatMap Instruction.defs := by
  obtain ⟨instruction, inside, defined⟩ := List.mem_flatMap.mp member
  obtain ⟨other, taken, found⟩ := List.mem_flatMap.mp inside
  obtain ⟨origin, located⟩ := List.getElem?_of_mem taken
  rw [List.getElem?_take] at located
  split at located
  next before =>
    exact ⟨origin, other, before, located, List.mem_flatMap.mpr ⟨instruction, found, defined⟩⟩
  next => cases located

namespace Body

variable (scope : Scope) (statements : List Statement)

/-- Where the operands of an instruction come from: from its own block, phis included, or from
other instructions than phis in a block that its own comes after. -/
theorem build_reads {index : Nat} {block : Block} {before after : List Instruction}
    {use : Instruction} {read : Variable}
    (located : (build scope statements).blocks[index]? = some block)
    (split : block.instructions = before ++ use :: after) (plain : use.isPhi = false)
    (member : read ∈ use.uses) :
    read.version = 0 ∨ read ∈ before.flatMap Instruction.defs ∨
      ∃ (origin : Nat) (other : Block),
        origin < block.entry (graphOf (build scope statements).blocks) index ∧
          (build scope statements).blocks[origin]? = some other ∧
            read ∈ plainDefs other.instructions := by
  let flow := (flowBlocks statements).1
  let numbered := numberBlocks scope {} flow
  have noPhi := (numberBlocks_extends scope {} flow).noPhi
  have graph : graphOf (build scope statements).blocks = graphOf flow :=
    (graphOf_joinFrom ..).trans (graphOf_numberFrom ..)
  obtain ⟨old, phis, found, rfl, _⟩ := getElem?_joinFrom numbered.blocks (graphOf numbered.blocks)
    numbered.exits 0 numbered.versions numbered.blocks located
  have supplied := (numberBlocks_sees scope flow).1 index old found
  rcases Block.joinWith_reads supplied phis split plain member with entry | known | here
  · exact .inl entry
  · obtain ⟨origin, other, behind, there, defined⟩ := mem_defsOf_take known
    obtain ⟨others, joined⟩ := joinFrom_at numbered.blocks (graphOf numbered.blocks)
      numbered.exits 0 numbered.versions there
    refine .inr (.inr ⟨origin, other.joinWith others, graph ▸ behind, joined, ?_⟩)
    rw [Block.plainDefs_joinWith]
    · exact defined
    · intro instruction inside
      exact noPhi instruction (List.mem_flatMap.mpr ⟨other, List.mem_of_getElem? there, inside⟩)
  · exact .inr (.inl here)

theorem build_sources {block : Block} (inside : block ∈ (build scope statements).blocks)
    {target : Variable} {sources : List (String × Variable)}
    (member : .phi target sources ∈ block.instructions) {source : String × Variable}
    (listed : source ∈ sources) :
    source.2.version = 0 ∨ source.2 ∈ plainDefs (instructionsOf (build scope statements).blocks) := by
  let flow := (flowBlocks statements).1
  let numbered := numberBlocks scope {} flow
  have noPhi := (numberBlocks_extends scope {} flow).noPhi
  obtain ⟨index, located⟩ := List.getElem?_of_mem inside
  obtain rfl := sources_insertPhis noPhi located member
  obtain ⟨edge, came, rfl⟩ := List.mem_map.mp listed
  have apart : (graphOf numbered.blocks).LoopsApart (numbered.blocks.map (·.side)) := by
    have graph : graphOf numbered.blocks = graphOf flow := graphOf_numberFrom ..
    have sides : numbered.blocks.map (·.side) = flow.map (·.side) := sides_numberFrom ..
    rw [graph, sides]
    exact flowBlocks_loopsApart statements
  obtain ⟨_, recorded⟩ := numberBlocks_recorded scope flow
  obtain ⟨exit, left, version⟩ := recorded.source_version apart came target.name
  have plain : plainDefs (instructionsOf (build scope statements).blocks) =
      defsOf numbered.blocks := (joinFrom_defs _ _ _ 0 _ _ noPhi).1
  have within := (numberBlocks_sees scope flow).2.within edge.position exit left target.name
  rw [← version] at within
  rw [plain]
  exact within.imp_right (defsOf_take_subset numbered.blocks _ ·)

end Body

structure Defined (blocks : List Block) : Prop where
  reads : ∀ (front back : List Block) (block : Block) (before after : List Instruction)
    (use : Instruction), blocks = front ++ block :: back →
      block.instructions = before ++ use :: after → use.isPhi = false →
        ∀ read ∈ use.uses, 1 ≤ read.version →
          read ∈ plainDefs (instructionsOf front ++ before) ∨ read ∈ phiDefs before
  sources : ∀ block ∈ blocks, ∀ target sources, .phi target sources ∈ block.instructions →
    ∀ source ∈ sources, 1 ≤ source.2.version → source.2 ∈ plainDefs (instructionsOf blocks)

theorem mem_plainDefs_instructionsOf {blocks : List Block} {defined : Variable} :
    defined ∈ plainDefs (instructionsOf blocks) ↔
      ∃ block ∈ blocks, defined ∈ plainDefs block.instructions := by
  simp only [plainDefs, instructionsOf, List.filter_flatMap, List.flatMap_assoc, List.mem_flatMap]

theorem mem_phiDefs_instructionsOf {blocks : List Block} {defined : Variable} :
    defined ∈ phiDefs (instructionsOf blocks) ↔
      ∃ block ∈ blocks, defined ∈ phiDefs block.instructions := by
  simp only [phiDefs, instructionsOf, List.filter_flatMap, List.flatMap_assoc, List.mem_flatMap]

theorem mem_plainDefs_or_phiDefs {instructions : List Instruction} {defined : Variable}
    (member : defined ∈ instructions.flatMap Instruction.defs) :
    defined ∈ plainDefs instructions ∨ defined ∈ phiDefs instructions := by
  obtain ⟨instruction, inside, found⟩ := List.mem_flatMap.mp member
  cases phi : instruction.isPhi with
  | false =>
    exact .inl (List.mem_flatMap.mpr ⟨instruction, List.mem_filter.mpr ⟨inside, by simp [phi]⟩, found⟩)
  | true =>
    exact .inr (List.mem_flatMap.mpr ⟨instruction, List.mem_filter.mpr ⟨inside, phi⟩, found⟩)

/-- In a function built on its own, an operand other than a value on entry was defined by an
earlier instruction that is no phi, or by a phi at the head of the same block; and what comes in
at a phi is defined by an instruction that is no phi. -/
theorem build_defined (scope : Scope) (statements : List Statement) :
    Defined (Body.build scope statements).blocks := by
  constructor
  · intro front back block before after use whole split plain read member version
    have located : (Body.build scope statements).blocks[front.length]? = some block := by
      simp [whole]
    rcases Body.build_reads scope statements located split plain member with
      entry | here | ⟨origin, other, behind, there, defined⟩
    · omega
    · refine (mem_plainDefs_or_phiDefs here).imp_left fun own => ?_
      rw [plainDefs_append]
      exact List.mem_append_right _ own
    · left
      have early := Nat.lt_of_lt_of_le behind (block.entry_le _ _)
      rw [whole, List.getElem?_append_left early] at there
      rw [plainDefs_append]
      apply List.mem_append_left
      exact mem_plainDefs_instructionsOf.mpr ⟨other, List.mem_of_getElem? there, defined⟩
  · intro block inside target sources member source listed version
    rcases Body.build_sources scope statements inside member listed with entry | defined
    · omega
    · exact defined

end Reentrancy
