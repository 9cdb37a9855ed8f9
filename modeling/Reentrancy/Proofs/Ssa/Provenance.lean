import Reentrancy.Proofs.Flow.Passage
import Reentrancy.Proofs.Ssa.Definedness

/-! Where operands come from along the control flow. A block reads what earlier blocks define, the
other arm of its own branch apart. Control can get from there to the block unless the earlier one
leaves the function: numbering goes on behind a `return` as if there were none. -/
namespace Reentrancy

variable {blocks : List Block}

theorem outlines_pairwise {relation : Outline → Outline → Prop}
    (ordered : (outlinesOf blocks).Pairwise relation) {first second : Nat} {one two : Block}
    (here : blocks[first]? = some one) (there : blocks[second]? = some two)
    (before : first < second) : relation one.outline two.outline := by
  obtain ⟨low, left⟩ := List.getElem?_eq_some_iff.mp (getElem?_outlinesOf here)
  obtain ⟨high, right⟩ := List.getElem?_eq_some_iff.mp (getElem?_outlinesOf there)
  rw [← left, ← right]
  exact List.pairwise_iff_getElem.mp ordered _ _ low high before

section Arms

variable (closed : (graphOf blocks).Closed)
  (laid : Laid (outlinesOf blocks))

include closed

theorem enters_of_path {index : Nat} {block : Block} (located : blocks[index]? = some block)
    (entered : (graphOf blocks).Path 0 index) : (graphOf blocks).Enters block.id := by
  have bound := entered.target_lt
  have head := List.getElem?_eq_getElem (Nat.lt_of_le_of_lt (Nat.zero_le _) bound)
  refine ⟨_, by rwa [List.head?_eq_getElem?], ?_⟩
  exact ((closed.path_iff head (getElem?_graphOf located)).mp entered).to_reflTransGen

include laid

theorem arm_test {index : Nat} {arm : Block} (located : blocks[index]? = some arm)
    (side : arm.side.isSome = true) :
    ∃ (place : Nat) (test : Block), blocks[place]? = some test ∧ place < index ∧
      arm.test? (graphOf blocks) = some place ∧
      ∀ before, (graphOf blocks).Links before arm.id ↔ before = test.id := by
  have outlined := getElem?_outlinesOf located
  have distinct := closed.distinct
  rw [← outlineGraph_outlinesOf] at distinct
  obtain ⟨id, only⟩ := laid.arm distinct (List.mem_of_getElem? outlined) side
  obtain ⟨place, outline, found, rfl, named⟩ := exists_outline ((only id).mpr rfl)
  rw [outlineGraph_outlinesOf] at only
  obtain ⟨test, there, rfl⟩ := getElem?_of_outlinesOf found
  have earlier : place < index := by
    rcases links_order closed laid there located named with later | ⟨headed, _, whole, _⟩
    · exact later
    · obtain rfl := Option.some.inj (headed.symm.trans outlined)
      exact absurd side (by rw [show arm.side = none from whole]; decide)
  have alone : (graphOf blocks).predecessors arm.id = [test.id] := by
    have single : ((graphOf blocks).predecessors arm.id).Nodup := by
      rw [closed.predecessors_eq]
      exact closed.distinct.sublist (List.filter_sublist.map _)
    refine List.perm_singleton.mp
      ((List.perm_ext_iff_of_nodup single (List.nodup_singleton _)).mpr fun before => ?_)
    rw [closed.mem_predecessors, List.mem_singleton]
    exact only before
  have position : arm.test? (graphOf blocks) = some place := by
    obtain ⟨branch, known⟩ := Option.isSome_iff_exists.mp side
    simp only [Block.test?, known, alone]
    exact closed.position?_id (getElem?_graphOf there)
  exact ⟨place, test, there, earlier, position, only⟩

theorem arm_entry {index : Nat} {arm : Block} (located : blocks[index]? = some arm)
    (side : arm.side.isSome = true) :
    ∃ (place : Nat) (test : Block), blocks[place]? = some test ∧ place < index ∧
      arm.entry (graphOf blocks) index = place + 1 ∧
      ∀ before, (graphOf blocks).Links before arm.id ↔ before = test.id := by
  obtain ⟨place, test, there, earlier, position, only⟩ := arm_test closed laid located side
  exact ⟨place, test, there, earlier, by simp [Block.entry, position, Option.filter, earlier], only⟩

theorem not_siblings {origin index : Nat} {other block : Block}
    (there : blocks[origin]? = some other) (located : blocks[index]? = some block)
    (behind : origin < block.entry (graphOf blocks) index) :
    ¬Siblings (outlinesOf blocks) other.outline block.outline := by
  rintro ⟨one, two, test, left, right⟩
  rw [outlineGraph_outlinesOf] at left right
  obtain ⟨place, first, found, before, _, only⟩ := arm_entry closed laid there one
  obtain ⟨second, same, known, _, entry, alone⟩ := arm_entry closed laid located two
  have shared : first.vertex.id = same.vertex.id :=
    ((only test).mp left).symm.trans ((alone test).mp right)
  obtain ⟨rfl, _⟩ := Graph.eq_of_id closed.distinct (getElem?_graphOf found)
    (getElem?_graphOf known) shared
  omega

/-- A block that control gets to is reached from the blocks that it comes after, unless they leave
the function; and only arms of branches and bodies of loops do. -/
theorem path_iff_goesOn {origin index : Nat} {other block : Block}
    (there : blocks[origin]? = some other) (located : blocks[index]? = some block)
    (behind : origin < block.entry (graphOf blocks) index) (entered : (graphOf blocks).Path 0 index) :
    ((graphOf blocks).Path origin index ↔ other.exit.GoesOn) ∧
      (other.exit.GoesOn ∨ other.side.isSome = true ∨ other.role = some .body) := by
  have early := Nat.lt_of_lt_of_le behind (block.entry_le _ _)
  have distinct := closed.distinct
  have enters := enters_of_path closed located entered
  rw [← outlineGraph_outlinesOf] at distinct enters
  refine ⟨⟨fun path => ?_, fun goes => ?_⟩, ?_⟩
  · obtain ⟨next, edge, _⟩ := Relation.TransGen.head'_iff.mp path
    have source := getElem?_graphOf there
    obtain ⟨target, named, _⟩ := (Graph.mem_successors source
      (closed.decided _ (List.mem_of_getElem? source))).mp edge
    constructor
    · intro leaves
      simp [Block.vertex, leaves, Exit.targets] at named
    · intro leaves
      simp [Block.vertex, leaves, Exit.targets] at named
  · have passes := outlines_pairwise (laid.passes distinct) there located early
    rw [closed.path_iff (getElem?_graphOf there) (getElem?_graphOf located),
      ← outlineGraph_outlinesOf]
    exact passes enters (not_siblings closed laid there located behind) goes
  · exact outlines_pairwise (laid.goesOn distinct) there located early enters

end Arms

/-- Every operand other than a value on entry comes from earlier in its block or from an earlier
block. If control gets to the reader at all, it gets there from the other block, unless that is an
arm of a branch or the body of a loop that leaves the function. -/
def Traced (blocks : List Block) : Prop :=
  ∀ (index : Nat) (block : Block) (before after : List Instruction) (use : Instruction),
    blocks[index]? = some block → block.instructions = before ++ use :: after →
      use.isPhi = false → ∀ read ∈ use.uses, 1 ≤ read.version →
        read ∈ before.flatMap Instruction.defs ∨
          ∃ (origin : Nat) (other : Block), origin < index ∧ blocks[origin]? = some other ∧
            read ∈ plainDefs other.instructions ∧
            ((graphOf blocks).Path 0 index →
              ((graphOf blocks).Path origin index ↔ other.exit.GoesOn) ∧
              (other.exit.GoesOn ∨ other.side.isSome = true ∨ other.role = some .body))

theorem build_traced (scope : Scope) (statements : List Statement) :
    Traced (Body.build scope statements).blocks := by
  intro index block before after use located split plain read member version
  have sound := Body.build_sound scope statements
  have closed : (graphOf (Body.build scope statements).blocks).Closed :=
    ⟨sound.numbered.distinct, sound.decided, sound.numbered.inside⟩
  have laid : Laid (outlinesOf (Body.build scope statements).blocks) := by
    rw [Body.outlinesOf_build]
    exact flowBlocks_laid statements
  rcases Body.build_reads scope statements located split plain member with
    entry | here | ⟨origin, other, behind, there, defined⟩
  · omega
  · exact .inl here
  · have early := Nat.lt_of_lt_of_le behind (block.entry_le _ _)
    exact .inr ⟨origin, other, early, there, defined,
      path_iff_goesOn closed laid there located behind⟩

open Snippet in
/-- In `if (c) { x = 1; return; } y = x;` the last block reads `x_1`, which only the arm that
returns defines. -/
theorem returned_write_is_read :
    let statements := [Statement.branch (named "c") [sets (named "x") one, .ret .missing] [],
      sets (named "y") (named "x")]
    let blocks := (Body.build {} statements).blocks
    let told := fun (instruction : Instruction) => (instruction.defs, instruction.uses)
    blocks.map (fun block => block.instructions.map told) =
        [[([], [⟨"c", 0⟩])], [([⟨"x", 1⟩], []), ([], [])], [], [([⟨"y", 1⟩], [⟨"x", 1⟩])]] ∧
      (graphOf blocks).Path 0 3 ∧ ¬(graphOf blocks).Path 1 3 := by
  intro statements blocks told
  have toElse : 2 ∈ (graphOf blocks).successors 0 := by decide +kernel
  have onward : 3 ∈ (graphOf blocks).successors 2 := by decide +kernel
  have stops : (graphOf blocks).successors 1 = [] := by decide +kernel
  refine ⟨by decide +kernel, .tail (.single toElse) onward, fun path => ?_⟩
  obtain ⟨next, edge, _⟩ := Relation.TransGen.head'_iff.mp path
  rw [Graph.Edge, stops] at edge
  cases edge

end Reentrancy
