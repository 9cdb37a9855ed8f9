import Mathlib.Data.List.Forall2
import Reentrancy.Proofs.Inline.Operands
import Reentrancy.Proofs.Ssa.Joins
import Reentrancy.Proofs.Ssa.SingleAssignment

/-! Operands are defined before they are read after expansion too, phis that a block has outlived
apart. Their numbers were given before the expansion; there are at least as many definitions and
phis after it, so that some instruction still defines them, but it can be a later one. -/
namespace Reentrancy

section Names

variable {expand : String → List Value → Walk → Expansion}

variable (expand) in
theorem expandBody_names (walk : Walk) (body : List Instruction) :
    ((plainDefs body).map Variable.name).Sublist
      (((expandBody expand walk body).instructions.flatMap Instruction.defs).map
        Variable.name) := by
  induction body generalizing walk with
  | nil => exact .slnil
  | cons first rest ih =>
    cases phi : first.isPhi with
    | true =>
      cases first with
      | phi target sources => exact ih (walk.meetPhi target)
      | _ => simp [Instruction.isPhi] at phi
    | false =>
      have split : plainDefs (first :: rest) = first.defs ++ plainDefs rest := by
        simp [plainDefs, phi]
      have written : (walk.rewrite first).1.defs.map Variable.name =
          first.defs.map Variable.name := by
        rw [(walk.rewrite_eq first).1]
        exact mapDefinitions_names Walk.redefine (fun _ _ => rfl) walk _
      rw [split, expandBody_cons walk phi]
      simp only [List.flatMap_append, List.flatMap_cons, List.map_append, List.append_assoc]
      rw [← written]
      exact (List.Sublist.refl _).append (List.sublist_append_of_sublist_right (ih _))

variable (expand) in
theorem inlineFrom_expands (graph : Graph) (exits : List WalkExit) (walk : Walk)
    (blocks : List Block) :
    List.Forall₂ (fun block expanded => ∃ walk, expanded = (block.expand expand walk).1) blocks
      (inlineFrom graph expand exits walk blocks).blocks := by
  induction blocks generalizing exits walk with
  | nil => exact .nil
  | cons block rest ih => exact .cons ⟨_, rfl⟩ (ih _ _)

theorem names_of_expands {blocks expanded : List Block}
    (expands : List.Forall₂ (fun block expanded => ∃ walk, expanded = (block.expand expand walk).1)
      blocks expanded) :
    ((plainDefs (instructionsOf blocks)).map Variable.name).Sublist
      ((defsOf expanded).map Variable.name) := by
  induction expands with
  | nil => exact .slnil
  | @cons block _ rest others here _ ih =>
    obtain ⟨walk, rfl⟩ := here
    rw [instructionsOf, List.flatMap_cons, plainDefs_append, List.map_append, defsOf_cons,
      List.map_append]
    exact (expandBody_names expand _ block.instructions).append ih

theorem joinFrom_joins (blocks : List Block) (graph : Graph) (exits : List (Table Nat))
    (index : Nat) (versions : Versions) (rest : List Block) :
    List.Forall₂ (fun block joined => ∃ phis, joined = block.joinWith phis) rest
      (joinFrom blocks graph exits index versions rest).blocks := by
  induction rest generalizing index versions with
  | nil => exact .nil
  | cons block others ih => exact .cons ⟨_, rfl⟩ (ih _ _)

end Names

theorem outlivedBehind_subset {before rest : List Instruction} {read : Variable}
    (member : read ∈ outlivedBehind before rest) : read ∈ phiDefs (before ++ rest) := by
  induction rest generalizing before with
  | nil => cases member
  | cons use rest ih =>
    rcases List.mem_append.mp member with here | later
    · have kept := (List.mem_filter.mp here).2
      rw [Bool.and_eq_true, List.contains_iff_mem] at kept
      rw [phiDefs_append]
      exact List.mem_append_left _ kept.1
    · have found := ih later
      rwa [List.append_assoc] at found

theorem noPhi_take {blocks : List Block}
    (noPhi : ∀ instruction ∈ instructionsOf blocks, instruction.isPhi = false) (count : Nat) :
    ∀ instruction ∈ instructionsOf (blocks.take count), instruction.isPhi = false :=
  fun instruction member =>
    noPhi instruction (((List.take_sublist count blocks).flatMap _).subset member)

section Numbers

/-- Numbers given out after `plain` are given out again where there are at least as many
definitions of each kind. -/
theorem Continues.covers {middle last other final : Table Nat}
    {plain phis morePlain morePhis : List Variable} (first : Continues Table.empty plain middle)
    (second : Continues middle phis last) (third : Continues Table.empty morePlain other)
    (fourth : Continues other morePhis final) {read : Variable}
    (longer : (versionsOf read.name plain).length ≤ (versionsOf read.name morePlain).length)
    (wider : (versionsOf read.name phis).length ≤ (versionsOf read.name morePhis).length)
    (member : read ∈ phis) : read ∈ morePlain ∨ read ∈ morePhis := by
  obtain ⟨count, reached, plainVersions⟩ := first read.name
  obtain ⟨joins, _, phiVersions⟩ := second read.name
  obtain ⟨more, ended, moreVersions⟩ := third read.name
  obtain ⟨moreJoins, _, moreJoined⟩ := fourth read.name
  rw [Table.version_empty, Nat.zero_add] at reached plainVersions ended moreVersions
  rw [plainVersions, moreVersions, List.length_range', List.length_range'] at longer
  rw [phiVersions, moreJoined, List.length_range', List.length_range'] at wider
  have listed := mem_versionsOf member
  rw [phiVersions, List.mem_range'_1] at listed
  rcases Nat.lt_or_ge more read.version with beyond | within
  · right
    apply mem_of_versionsOf
    rw [moreJoined, List.mem_range'_1]
    omega
  · left
    apply mem_of_versionsOf
    rw [moreVersions, List.mem_range'_1]
    omega

end Numbers

section Growth

variable {expand : String → List Value → Walk → Expansion}
  (defines : ∀ target arguments walk, Walk.Defines walk
    ((expand target arguments walk).instructions.flatMap Instruction.defs)
    (expand target arguments walk).walk)

include defines

theorem Block.grows_expand {block : Block} (signed : block.Signed)
    (noPhi : ∀ instruction ∈ block.instructions, instruction.isPhi = false) (phis : List Phi)
    (walk : Walk) : block.Grows (Body.refresh ((block.joinWith phis).expand expand walk).1) where
  writes name written := by
    obtain ⟨version, found⟩ := Option.isSome_iff_exists.mp written
    have own := signed.own name version found
    rw [← plainDefs_joinWith noPhi] at own
    have named := (expandBody_names expand { walk with written := Table.empty }
      (block.joinWith phis).instructions).subset (List.mem_map_of_mem own)
    obtain ⟨defined, inside, same⟩ := List.mem_map.mp named
    have listed := ((block.joinWith phis).expand_tallies defines walk).signed.all defined inside
    rwa [same] at listed
  reads name read := (Names.contains_addAll ..).mpr (.inr read)

theorem grows_of_expands {blocks joined expanded : List Block}
    (signed : ∀ block ∈ blocks, block.Signed)
    (noPhi : ∀ block ∈ blocks, ∀ instruction ∈ block.instructions, instruction.isPhi = false)
    (joins : List.Forall₂ (fun block joined => ∃ phis, joined = block.joinWith phis) blocks joined)
    (expands : List.Forall₂ (fun block expanded => ∃ walk, expanded = (block.expand expand walk).1)
      joined expanded) :
    List.Forall₂ Block.Grows blocks (expanded.map Body.refresh) := by
  induction joins generalizing expanded with
  | nil =>
    cases expands
    exact .nil
  | @cons block _ rest _ here _ ih =>
    obtain ⟨phis, rfl⟩ := here
    rw [List.forall_mem_cons] at signed noPhi
    cases expands with
    | cons there later =>
      obtain ⟨walk, rfl⟩ := there
      exact .cons (block.grows_expand defines signed.1 noPhi.1 phis walk) (ih signed.2 noPhi.2 later)

end Growth

namespace Body

variable (scope : Scope) (statements : List Statement) {templates : Table Template}
  (phiFree : templates.PhiFree) (depth : Nat) (root : String)

def rejoined (body : Body) (templates : Table Template) (depth : Nat) (root : String) : Joined :=
  let expanded := body.expanded templates depth root
  insertPhis expanded.exits expanded.versions (expanded.blocks.map refresh)

include phiFree

theorem phiNames_expanded {index : Nat} {old new : Block} :
    let numbered := numberBlocks scope {} (flowBlocks statements).1
    let fresh := ((build scope statements).expanded templates depth root).blocks.map refresh
    numbered.blocks[index]? = some old → fresh[index]? = some new →
      phiNames numbered.blocks (graphOf numbered.blocks) index old ⊆
        phiNames fresh (graphOf fresh) index new := by
  intro numbered fresh here there
  let built := build scope statements
  have graph : graphOf fresh = graphOf built.blocks :=
    (graphOf_refresh _).trans (built.graphOf_expanded templates depth root)
  have same : graphOf numbered.blocks = graphOf fresh := by
    rw [graph]
    exact (graphOf_joinFrom ..).symm
  have closed : (graphOf fresh).Closed := by
    have sound := build_sound scope statements
    rw [graph]
    exact ⟨sound.numbered.distinct, sound.decided, sound.numbered.inside⟩
  have laid : Laid (outlinesOf fresh) := by
    have outlines : outlinesOf fresh = outlinesOf built.blocks :=
      (outlinesOf_refresh _).trans (outlinesOf_inlineFrom ..)
    rw [outlines, outlinesOf_build]
    exact flowBlocks_laid statements
  have signed : ∀ block ∈ fresh, block.Signed := by
    intro block member
    obtain ⟨old, inside, rfl⟩ := List.mem_map.mp member
    have sound := inlineFrom_signed (splice_defines templates depth [root]) _ _ _ _ old inside
    exact ⟨sound.own, sound.all⟩
  have once : (defsOf fresh).Nodup := by
    rw [defsOf, instructionsOf_refresh]
    exact (built.expanded_extends depth root phiFree).counted.nodup
  have plain : ∀ block ∈ numbered.blocks, ∀ instruction ∈ block.instructions,
      instruction.isPhi = false := fun block inside instruction member =>
    (numberBlocks_extends scope {} _).noPhi instruction
      (List.mem_flatMap.mpr ⟨block, inside, member⟩)
  have grown : List.Forall₂ Block.Grows numbered.blocks fresh :=
    grows_of_expands (splice_defines templates depth [root]) (numberFrom_signed _ _ _ _ _) plain
      (joinFrom_joins ..) (inlineFrom_expands ..)
  rw [same]
  exact phiNames_grows grown closed laid signed once here there

/-- The number of a phi stays the number of some definition: of a phi up to the same block, or of
an instruction that is no phi. -/
theorem phi_kept {index : Nat} {block : Block}
    (located : (build scope statements).blocks[index]? = some block) {read : Variable}
    (phi : read ∈ phiDefs block.instructions) :
    let joined := (build scope statements).rejoined templates depth root
    read ∈ plainDefs (instructionsOf joined.blocks) ∨
      read ∈ phiDefs (instructionsOf (joined.blocks.take (index + 1))) := by
  let numbered := numberBlocks scope {} (flowBlocks statements).1
  let built := build scope statements
  let expanded := built.expanded templates depth root
  let fresh := expanded.blocks.map refresh
  have extended := numberBlocks_extends scope {} (flowBlocks statements).1
  have again : Extends Table.empty (instructionsOf fresh) expanded.versions.counter := by
    rw [instructionsOf_refresh]
    exact built.expanded_extends depth root phiFree
  have untake {blocks : List Block} {offset : Nat} {found : Block}
      (located : (blocks.take (index + 1))[offset]? = some found) :
      blocks[offset]? = some found := by
    rw [List.getElem?_take] at located
    split at located
    · exact located
    · cases located
  have expands : List.Forall₂ _ built.blocks expanded.blocks :=
    inlineFrom_expands (splice templates depth [root]) ..
  have long : numbered.blocks.length = fresh.length := by
    rw [List.length_map, ← expands.length_eq]
    exact (joinFrom_joins ..).length_eq
  have member : read ∈ phiDefs (instructionsOf (built.blocks.take (index + 1))) := by
    have taken : (built.blocks.take (index + 1))[index]? = some block := by
      rw [List.getElem?_take, if_pos (Nat.lt_succ_self index), located]
    exact mem_phiDefs_instructionsOf.mpr ⟨block, List.mem_of_getElem? taken, phi⟩
  have longer : (versionsOf read.name ((instructionsOf numbered.blocks).flatMap
        Instruction.defs)).length ≤
      (versionsOf read.name ((instructionsOf fresh).flatMap Instruction.defs)).length := by
    have kept := names_of_expands expands
    have plain : plainDefs (instructionsOf built.blocks) = defsOf numbered.blocks :=
      (joinFrom_defs _ _ _ 0 _ _ extended.noPhi).1
    rw [plain, defsOf, defsOf, ← instructionsOf_refresh expanded.blocks] at kept
    rw [length_versionsOf, length_versionsOf]
    exact kept.count_le read.name
  have wider := joinFrom_count_le numbered.exits expanded.exits (noPhi_take extended.noPhi (index + 1))
    (noPhi_take again.noPhi (index + 1)) (by rw [List.length_take, List.length_take, long]) 0 numbered.versions
    expanded.versions (fun offset old new here there => by
      rw [Nat.zero_add]
      exact phiNames_expanded scope statements phiFree depth root (untake here) (untake there))
    read.name
  obtain ⟨plain, _⟩ := joinFrom_defs fresh (graphOf fresh) expanded.exits 0 expanded.versions fresh
    again.noPhi
  obtain ⟨_, before⟩ := joinFrom_defs numbered.blocks (graphOf numbered.blocks) numbered.exits 0
    numbered.versions _ (noPhi_take extended.noPhi (index + 1))
  obtain ⟨_, after⟩ := joinFrom_defs fresh (graphOf fresh) expanded.exits 0 expanded.versions _
    (noPhi_take again.noPhi (index + 1))
  rw [← joinFrom_take] at before after
  rw [← joinFrom_take, ← joinFrom_take] at wider
  have found := extended.counted.covers before again.counted after longer wider member
  rwa [← plain] at found

omit phiFree in
theorem build_owns {index : Nat} {block : Block}
    (located : (build scope statements).blocks[index]? = some block) :
    block.Owns (plainDefs (instructionsOf ((build scope statements).blocks.take index))) := by
  intro before use after split plain read member
  rcases build_reads scope statements located split plain member with
    entry | here | ⟨origin, other, behind, there, defined⟩
  · exact .inl entry
  · exact .inr (.inr here)
  · have early := Nat.lt_of_lt_of_le behind (block.entry_le _ _)
    have taken : ((build scope statements).blocks.take index)[origin]? = some other := by
      rw [List.getElem?_take, if_pos early, there]
    refine .inr (.inl ?_)
    exact mem_plainDefs_instructionsOf.mpr ⟨other, List.mem_of_getElem? taken, defined⟩

theorem rejoined_reads {index : Nat} {block : Block} {before after : List Instruction}
    {use : Instruction} {read : Variable}
    (located : ((build scope statements).rejoined templates depth root).blocks[index]? = some block)
    (split : block.instructions = before ++ use :: after) (plain : use.isPhi = false)
    (member : read ∈ use.uses) :
    let joined := (build scope statements).rejoined templates depth root
    read.version = 0 ∨ read ∈ plainDefs (instructionsOf (joined.blocks.take index)) ∨
      read ∈ before.flatMap Instruction.defs ∨
        ∃ origin, (build scope statements).blocks[index]? = some origin ∧
          read ∈ origin.outlived := by
  let built := build scope statements
  let expanded := built.expanded templates depth root
  let fresh := expanded.blocks.map refresh
  have noPhi : ∀ instruction ∈ instructionsOf fresh, instruction.isPhi = false := by
    rw [instructionsOf_refresh]
    exact (built.expanded_extends depth root phiFree).noPhi
  obtain ⟨old, phis, found, rfl, _⟩ := getElem?_joinFrom fresh (graphOf fresh) expanded.exits 0
    expanded.versions fresh located
  obtain ⟨source, there, rfl⟩ : ∃ source, expanded.blocks[index]? = some source ∧
      refresh source = old := by simpa [fresh] using found
  have start : Walk.Covers (.start built.versions.calls) [] [] :=
    ⟨fun name => .inl rfl, fun old version absent => (by cases absent), by simp⟩
  obtain ⟨origin, first, supplied⟩ := inlineFrom_supplied (splice_defines templates depth [root])
    (splice_supplied phiFree depth [root]) (graphOf built.blocks) start (by simp)
    (fun offset block found => by simpa using build_owns scope statements found) there
  have earlier : plainDefs (instructionsOf ((built.rejoined templates depth root).blocks.take index)) =
      defsOf (expanded.blocks.take index) := by
    rw [rejoined, insertPhis, joinFrom_take,
      (joinFrom_defs fresh (graphOf fresh) _ 0 _ _ (noPhi_take noPhi index)).1, ← List.map_take,
      instructionsOf_refresh]
    rfl
  rcases Block.joinWith_reads supplied phis split plain member with entry | known | here
  · exact .inl entry
  · rcases List.mem_append.mp known with defined | outlived
    · rw [List.nil_append] at defined
      exact .inr (.inl (earlier ▸ defined))
    · exact .inr (.inr (.inr ⟨origin, first, outlived⟩))
  · exact .inr (.inr (.inl here))

end Body

theorem Block.PhisLead.phiDefs_before {block : Block} (lead : block.PhisLead)
    {before after : List Instruction} {use : Instruction}
    (split : block.instructions = before ++ use :: after) (plain : use.isPhi = false) :
    phiDefs block.instructions = phiDefs before := by
  obtain ⟨front, rest, whole, phis, others⟩ := lead
  rw [whole] at split
  obtain ⟨inner, rfl, rfl⟩ := split_behind_phis phis split plain
  have here : ∀ instruction ∈ inner, instruction.isPhi = false :=
    fun instruction member => others instruction (List.mem_append_left _ member)
  rw [whole, phiDefs_append, phiDefs_of_noPhi others, phiDefs_append, phiDefs_of_noPhi here]

/-- Every operand of `news` other than a value on entry is defined by an earlier instruction, or
it is a phi that the block has outlived in `olds` and its number is given to a later instruction
that is no phi. -/
def DefinedUnlessOutlived (olds news : List Block) : Prop :=
  ∀ (front back : List Block) (block : Block) (before after : List Instruction)
    (use : Instruction), news = front ++ block :: back →
      block.instructions = before ++ use :: after → use.isPhi = false →
        ∀ read ∈ use.uses, 1 ≤ read.version →
          read ∈ (instructionsOf front ++ before).flatMap Instruction.defs ∨
            (∃ old, olds[front.length]? = some old ∧ read ∈ old.outlived) ∧
              read ∈ plainDefs (use :: after ++ instructionsOf back)

theorem build_definedUnlessOutlived (scope : Scope) (statements : List Statement) :
    DefinedUnlessOutlived (Body.build scope statements).blocks
      (Body.build scope statements).blocks := by
  intro front back block before after use whole split plain read member version
  left
  have located : (Body.build scope statements).blocks[front.length]? = some block := by
    simp [whole]
  have first : (Body.build scope statements).blocks.take front.length = front := by simp [whole]
  rw [List.flatMap_append]
  rcases Body.build_owns scope statements located before use after split plain read member with
    entry | known | here
  · omega
  · rw [first] at known
    exact List.mem_append_left _ ((List.filter_sublist.flatMap _).subset known)
  · exact List.mem_append_right _ here

/-- After expansion every operand other than a value on entry is defined earlier, phis included,
or its number is that of a phi that the block has outlived and a later instruction has it. -/
theorem inline_defined (scope : Scope) (statements : List Statement) (callees : List Callee)
    (depth : Nat) (root : String) :
    let built := Body.build scope statements
    DefinedUnlessOutlived built.blocks (built.inline (templatesOf callees) depth root).blocks := by
  intro built
  have phiFree := templatesOf_phiFree callees
  have lead := ((Body.build_sound scope statements).inline phiFree depth root).lead
  rcases built.inline_cases (templatesOf callees) depth root with same | joined
  · rw [same]
    exact build_definedUnlessOutlived scope statements
  intro front back block before after use whole split plain read member version
  have leading := (lead block (whole ▸ List.mem_append_right _ List.mem_cons_self)).phiDefs_before
    split plain
  let news := (built.rejoined (templatesOf callees) depth root).blocks
  have listed : news = front ++ block :: back := by
    rw [joined] at whole
    exact whole
  have located : news[front.length]? = some block := by simp [listed]
  have first : news.take front.length = front := by simp [listed]
  have reached : news.take (front.length + 1) = front ++ [block] := by
    rw [listed, ← List.singleton_append, ← List.append_assoc]
    exact List.take_left' (by simp)
  rcases Body.rejoined_reads scope statements phiFree depth root located split plain member with
    entry | known | here | ⟨old, origin, outlived⟩
  · omega
  · rw [first] at known
    rw [List.flatMap_append]
    exact .inl (List.mem_append_left _ ((List.filter_sublist.flatMap _).subset known))
  · rw [List.flatMap_append]
    exact .inl (List.mem_append_right _ here)
  -- The number of the phi is given to a phi up to here, or to some other instruction.
  · rcases Body.phi_kept scope statements phiFree depth root origin
      (outlivedBehind_subset outlived) with other | phi
    · have instructions : instructionsOf news =
          (instructionsOf front ++ before) ++ (use :: after ++ instructionsOf back) := by
        simp [listed, instructionsOf, split]
      rw [instructions, plainDefs_append] at other
      rcases List.mem_append.mp other with earlier | later
      · exact .inl ((List.filter_sublist.flatMap _).subset earlier)
      · exact .inr ⟨⟨old, origin, outlived⟩, later⟩
    · have instructions : instructionsOf (front ++ [block]) =
          instructionsOf front ++ block.instructions := by simp [instructionsOf]
      rw [reached, instructions, phiDefs_append, leading, ← phiDefs_append] at phi
      exact .inl ((List.filter_sublist.flatMap _).subset phi)

open Snippet in
/-- In `if (c) { x = 1; } else { x = 1; } y = x++; f();` the phi in front of `y = x++` is `x_4`. With
the body `x = 1;` of `f` put in it becomes `x_5`, the step reads `x_5`, but `y` still reads `x_4`,
which is now the write of `f` behind it. -/
theorem outlived_phi_defined_later :
    let scope : Scope := { functions := Names.ofList ["f"] }
    let writes := [sets (named "x") one]
    let templates := Table.ofList [("f", Template.ofBlocks [] (Body.build scope writes).blocks)]
    let body := Body.build scope [.branch (named "c") writes writes,
      sets (named "y") (.unary "++" false (named "x")), calls "f" []]
    let told := fun (instruction : Instruction) => (instruction.defs, instruction.uses)
    body.blocks.map Block.outlived = [[], [], [], [⟨"x", 4⟩], []] ∧
      (body.inline templates 1 "g").blocks.map (fun block => block.instructions.map told) =
        [[([], [⟨"c", 0⟩])], [([⟨"x", 1⟩], [])], [([⟨"x", 2⟩], [])],
          [([⟨"x", 5⟩], [⟨"x", 1⟩, ⟨"x", 2⟩]), ([⟨"x", 3⟩], [⟨"x", 5⟩]), ([⟨"y", 1⟩], [⟨"x", 4⟩])],
          [([⟨"ret1", 1⟩], []), ([⟨"x", 4⟩], [])]] := by
  decide +kernel

end Reentrancy
