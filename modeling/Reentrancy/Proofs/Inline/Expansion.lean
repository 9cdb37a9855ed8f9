import Reentrancy.Inline.Walk
import Reentrancy.Proofs.Ssa.Numbering

/-! Expansion counts definitions anew: the instructions of the function and of the bodies
put into it define the versions of each name one after another, in list order. -/
namespace Reentrancy

section Definitions

variable {σ : Type} (step : σ → Variable → Variable × σ) (counter : σ → Table Nat)

theorem mapDefinitions_continues
    (counts : ∀ state old, Continues (counter state) [(step state old).1]
      (counter (step state old).2)) (state : σ) (defined : List Variable) :
    Continues (counter state) (mapDefinitions step state defined).1
      (counter (mapDefinitions step state defined).2) := by
  induction defined generalizing state with
  | nil => exact .nil _
  | cons first rest ih => exact (counts state first).append (ih (step state first).2)

theorem Instruction.redefine_extends
    (counts : ∀ state old, Continues (counter state) [(step state old).1]
      (counter (step state old).2)) (state : σ) {instruction : Instruction}
    (noPhi : instruction.isPhi = false) :
    Extends (counter state) [(instruction.redefine step state).1]
      (counter (instruction.redefine step state).2) := by
  cases instruction with
  | assign assignment =>
    refine .single rfl ?_
    exact (counts state assignment.target).append
      (mapDefinitions_continues step counter counts _ assignment.implied)
  | call operation => exact .single rfl (counts state operation.result)
  | phi target sources => simp [isPhi] at noPhi
  | _ => exact .single rfl (.nil _)

end Definitions

theorem Walk.resolve_name (walk : Walk) (read : Variable) :
    (walk.resolve read).name = read.name := by
  unfold resolve
  split <;> rfl

theorem Walk.redefine_continues (walk : Walk) (old : Variable) :
    Continues walk.versions.counter [(walk.redefine old).1]
      (walk.redefine old).2.versions.counter :=
  Continues.define walk.versions old.name

theorem Region.redefine_continues (region : Region) (old : Variable) :
    Continues region.walk.versions.counter [(region.redefine old).1]
      (region.redefine old).2.walk.versions.counter :=
  Continues.define region.walk.versions old.name

def expandAfter (expand : String → List Value → Walk → Expansion) (written : Instruction)
    (walk : Walk) : Expansion :=
  match written.internalTarget? with
  | some target => expand target written.arguments walk
  | none => { walk }

def Expansion.Counts (expansion : Expansion) (walk : Walk) : Prop :=
  Extends walk.versions.counter expansion.instructions expansion.walk.versions.counter

section Bodies

variable {expand : String → List Value → Walk → Expansion}

theorem spliceBody_cons (bindings : Table Value) (region : Region) (first : Instruction)
    (rest : List Instruction) :
    spliceBody bindings expand region (first :: rest) =
      let written := ((first.bindNames bindings).substitute fun read =>
        some (region.resolve bindings read)).redefine Region.redefine region
      let inner := expandAfter expand written.1 written.2.walk
      let others := spliceBody bindings expand ⟨inner.walk, written.2.renamed⟩ rest
      ⟨others.walk, written.1 :: inner.instructions ++ others.instructions,
        inner.spliced + others.spliced⟩ := rfl

theorem expandBody_cons (walk : Walk) {first : Instruction} (noPhi : first.isPhi = false)
    (rest : List Instruction) :
    expandBody expand walk (first :: rest) =
      let written := (first.substitute fun read => some (.var (walk.resolve read))).redefine
        Walk.redefine walk
      let inner := expandAfter expand written.1 written.2
      let others := expandBody expand inner.walk rest
      ⟨others.walk, written.1 :: inner.instructions ++ others.instructions,
        inner.spliced + others.spliced⟩ := by
  cases first with
  | phi target sources => simp [Instruction.isPhi] at noPhi
  | _ => rfl

variable (counts : ∀ target arguments walk, (expand target arguments walk).Counts walk)

include counts

theorem expandAfter_counts (written : Instruction) (walk : Walk) :
    (expandAfter expand written walk).Counts walk := by
  unfold expandAfter
  split
  · exact counts _ _ walk
  · exact .nil _

theorem spliceBody_counts (bindings : Table Value) (region : Region) (body : List Instruction)
    (noPhi : ∀ instruction ∈ body, instruction.isPhi = false) :
    (spliceBody bindings expand region body).Counts region.walk := by
  induction body generalizing region with
  | nil => exact .nil _
  | cons first rest ih =>
    let bound := (first.bindNames bindings).substitute fun read =>
      some (region.resolve bindings read)
    have plain : bound.isPhi = false := by
      rw [Instruction.isPhi_substitute, Instruction.isPhi_bindNames]
      exact noPhi first List.mem_cons_self
    let written := bound.redefine Region.redefine region
    have here := Instruction.redefine_extends Region.redefine
      (fun region => region.walk.versions.counter) Region.redefine_continues region plain
    have inner := expandAfter_counts counts written.1 written.2.walk
    have others := ih ⟨(expandAfter expand written.1 written.2.walk).walk, written.2.renamed⟩
      fun instruction member => noPhi instruction (List.mem_cons_of_mem _ member)
    rw [spliceBody_cons]
    exact (here.append inner).append others

theorem expandBody_counts (walk : Walk) (body : List Instruction) :
    (expandBody expand walk body).Counts walk := by
  induction body generalizing walk with
  | nil => exact .nil _
  | cons first rest ih =>
    cases phi : first.isPhi with
    | true =>
      cases first with
      | phi target sources => exact ih (walk.meetPhi target)
      | _ => simp [Instruction.isPhi] at phi
    | false =>
      let bound := first.substitute fun read => some (.var (walk.resolve read))
      have plain : bound.isPhi = false := by rw [Instruction.isPhi_substitute, phi]
      have here := Instruction.redefine_extends Walk.redefine (fun walk => walk.versions.counter)
        Walk.redefine_continues walk plain
      let written := bound.redefine Walk.redefine walk
      have inner := expandAfter_counts counts written.1 written.2
      rw [expandBody_cons walk phi]
      exact (here.append inner).append (ih _)

end Bodies

def Table.PhiFree (templates : Table Template) : Prop :=
  ∀ name template, templates.get? name = some template →
    ∀ instruction ∈ template.body, instruction.isPhi = false

section Functions

variable {templates : Table Template} (phiFree : templates.PhiFree)

include phiFree

theorem splice_counts (depth : Nat) (stack : List String) (target : String)
    (arguments : List Value) (walk : Walk) :
    (splice templates depth stack target arguments walk).Counts walk := by
  induction depth generalizing stack target arguments walk with
  | zero => exact .nil _
  | succ depth ih =>
    rw [splice]
    split
    · exact .nil _
    · split
      · exact .nil _
      next template found =>
        exact spliceBody_counts (ih (target :: stack)) (template.bindings arguments) ⟨walk, []⟩
          template.body (phiFree target template found)

theorem inlineFrom_extends (graph : Graph) (depth : Nat) (stack : List String)
    (exits : List WalkExit) (walk : Walk) (blocks : List Block) :
    let inlined := inlineFrom graph (splice templates depth stack) exits walk blocks
    Extends walk.versions.counter (instructionsOf inlined.blocks) inlined.versions.counter := by
  induction blocks generalizing exits walk with
  | nil => exact .nil _
  | cons block rest ih =>
    let entry := block.armExit? graph exits
    let entered := { (entry.map walk.enter).getD walk with written := Table.empty }
    let body := expandBody (splice templates depth stack) entered block.instructions
    let resumed := if entry.isSome then body.walk.resume walk.exit else body.walk
    have here := expandBody_counts (splice_counts phiFree depth stack) entered block.instructions
    have entered_counter : entered.versions.counter = walk.versions.counter := by
      unfold entered
      cases entry <;> rfl
    have resumed_counter : resumed.versions.counter = body.walk.versions.counter := by
      unfold resumed
      split <;> rfl
    have later := ih (exits ++ [body.walk.exit]) resumed
    unfold Expansion.Counts at here
    rw [entered_counter] at here
    rw [resumed_counter] at later
    exact here.append later

end Functions

theorem graphOf_inlineFrom (graph : Graph)
    (expansion : String → List Value → Walk → Expansion) (exits : List WalkExit) (walk : Walk)
    (blocks : List Block) :
    graphOf (inlineFrom graph expansion exits walk blocks).blocks = graphOf blocks := by
  induction blocks generalizing exits walk with
  | nil => rfl
  | cons block rest ih => exact congrArg (block.vertex :: ·) (ih _ _)

end Reentrancy
