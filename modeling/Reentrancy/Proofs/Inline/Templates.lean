import Reentrancy.Proofs.Inline.Expansion
import Reentrancy.Proofs.Table
import Reentrancy.Ssa.Body
import Reentrancy.Tree.Reading

/-! Templates as they are made from functions that were built on their own, and what they do
to a body that they are put into. -/
namespace Reentrancy

def statementsOf (body : Option Json) : List Statement := (body.map bodyOfJson).getD []

structure Callee where
  name : String
  parameters : List String
  scope : Scope
  body : Option Json

def Callee.template (callee : Callee) : Template :=
  Template.ofBlocks callee.parameters (Body.build callee.scope (statementsOf callee.body)).blocks

/-- Of several functions with one name the last one counts. -/
def templatesOf (callees : List Callee) : Table Template :=
  Table.ofList (callees.map fun callee => (callee.name, callee.template))

theorem Template.ofBlocks_noPhi (parameters : List String) (blocks : List Block) :
    ∀ instruction ∈ (Template.ofBlocks parameters blocks).body, instruction.isPhi = false := by
  intro instruction member
  have kept := (List.mem_filter.mp member).2
  cases instruction <;> simp_all [Instruction.isPhi]

theorem templatesOf_phiFree (callees : List Callee) : (templatesOf callees).PhiFree := by
  intro name template found
  rcases Table.mem_of_get?_insertAll found with made | absent
  · obtain ⟨callee, _, equal⟩ := List.mem_map.mp made
    have same : callee.template = template := congrArg Prod.snd equal
    rw [← same]
    exact Template.ofBlocks_noPhi _ _
  · simp at absent

section Spliced

@[simp] theorem Instruction.internalTarget?_substitute (rule : Variable → Option Value)
    (instruction : Instruction) :
    (instruction.substitute rule).internalTarget? = instruction.internalTarget? := by
  cases instruction <;> rfl

@[simp] theorem Instruction.internalTarget?_redefine {σ : Type}
    (step : σ → Variable → Variable × σ) (state : σ) (instruction : Instruction) :
    (instruction.redefine step state).1.internalTarget? = instruction.internalTarget? := by
  cases instruction <;> rfl

theorem splice_spliced {templates : Table Template} {stack : List String} {target : String}
    (new : target ∉ stack) (known : templates.contains target = true) (depth : Nat)
    (arguments : List Value) (walk : Walk) :
    0 < (splice templates (depth + 1) stack target arguments walk).spliced := by
  obtain ⟨template, found⟩ := Option.isSome_iff_exists.mp known
  simp [splice, new, found]

variable {expand : String → List Value → Walk → Expansion} {target : String}
  (puts : ∀ arguments walk, 0 < (expand target arguments walk).spliced) {call : Instruction}
  (goes : call.internalTarget? = some target)

include puts goes

theorem expandBody_spliced {body : List Instruction} (member : call ∈ body) (walk : Walk) :
    0 < (expandBody expand walk body).spliced := by
  induction body generalizing walk with
  | nil => cases member
  | cons first rest ih =>
    cases phi : first.isPhi with
    | true =>
      cases first with
      | phi met sources =>
        rcases List.mem_cons.mp member with rfl | later
        · cases goes
        · exact ih later (walk.meetPhi met)
      | _ => simp [Instruction.isPhi] at phi
    | false =>
      rw [expandBody_cons walk phi]
      rcases List.mem_cons.mp member with rfl | later
      · refine Nat.add_pos_left ?_ _
        simp only [expandAfter, Instruction.internalTarget?_redefine,
          Instruction.internalTarget?_substitute, goes]
        exact puts _ _
      · exact Nat.add_pos_right _ (ih later _)

theorem inlineFrom_spliced (graph : Graph) (exits : List WalkExit) (walk : Walk)
    {blocks : List Block} (member : call ∈ instructionsOf blocks) :
    0 < (inlineFrom graph expand exits walk blocks).spliced := by
  induction blocks generalizing exits walk with
  | nil => cases member
  | cons block rest ih =>
    rcases List.mem_append.mp member with here | later
    · exact Nat.add_pos_left (expandBody_spliced puts goes here _) _
    · exact Nat.add_pos_right _ (ih _ _ later)

end Spliced

namespace Body

variable (body : Body) (templates : Table Template) (depth : Nat) (root : String)

def expanded : Inlined :=
  inlineFrom (graphOf body.blocks) (splice templates depth [root]) []
    (.start body.versions.calls) body.blocks

theorem graphOf_expanded :
    graphOf (body.expanded templates depth root).blocks = graphOf body.blocks :=
  graphOf_inlineFrom ..

variable {templates} in
theorem expanded_extends (phiFree : templates.PhiFree) :
    Extends Table.empty (instructionsOf (body.expanded templates depth root).blocks)
      (body.expanded templates depth root).versions.counter :=
  inlineFrom_extends phiFree (graphOf body.blocks) depth [root] []
    (.start body.versions.calls) body.blocks

theorem instructionsOf_refresh (blocks : List Block) :
    instructionsOf (blocks.map refresh) = instructionsOf blocks := by
  simp [instructionsOf, List.flatMap_map, refresh]

theorem graphOf_refresh (blocks : List Block) : graphOf (blocks.map refresh) = graphOf blocks := by
  simp [graphOf, Block.vertex, refresh]

theorem expanded_spliced (some : depth ≠ 0) (targets : hasTargets templates root body.blocks = true) :
    (body.expanded templates depth root).spliced ≠ 0 := by
  obtain ⟨call, member, goes⟩ := List.any_eq_true.mp targets
  obtain ⟨target, named, known⟩ := (Option.any_eq_true ..).mp goes
  rw [Bool.and_eq_true, bne_iff_ne] at known
  obtain ⟨less, rfl⟩ := Nat.exists_eq_succ_of_ne_zero some
  have new : target ∉ [root] := by simpa using known.1
  exact Nat.ne_of_gt (inlineFrom_spliced (splice_spliced new known.2 less) named _ _ _ member)

theorem inline_cases :
    let expanded := body.expanded templates depth root
    let joined := insertPhis expanded.exits expanded.versions (expanded.blocks.map refresh)
    body.inline templates depth root = body ∨
      body.inline templates depth root =
        { body with blocks := joined.blocks, versions := joined.versions } := by
  by_cases idle : depth = 0 || !hasTargets templates root body.blocks
  · left
    simp [inline, inlineBlocks, idle]
  · right
    have unfolded : inlineBlocks templates depth root body.versions body.blocks =
        body.expanded templates depth root := by
      simp [inlineBlocks, idle, expanded]
    simp only [Bool.or_eq_true, decide_eq_true_eq, Bool.not_eq_true', not_or,
      Bool.not_eq_false] at idle
    rw [inline, unfolded]
    exact if_neg (body.expanded_spliced templates depth root idle.1 idle.2)

end Body

end Reentrancy
