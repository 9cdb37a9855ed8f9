import Mathlib.Data.List.Forall2
import Reentrancy.Proofs.Inline.Alike
import Reentrancy.Proofs.Inline.Walks
import Reentrancy.Proofs.Ssa.LoopPhis

/-! Expansion only inserts. Nothing of a function is lost, moved or merged: its blocks stay, and in
each block its instructions other than phis stay in their order, with other versions at most. What
is put in after a call stands right behind it. Where there is nothing to put in, nothing at all
changes. -/
namespace Reentrancy

section Bare

theorem Variable.unversioned_eq {one two : Variable} (same : one.name = two.name) :
    one.unversioned = two.unversioned := congrArg (Variable.mk · 0) same

theorem Variable.map_unversioned {one two : List Variable}
    (same : one.map Variable.name = two.map Variable.name) :
    one.map Variable.unversioned = two.map Variable.unversioned := by
  have names := congrArg (List.map (Variable.mk · 0)) same
  rwa [List.map_map, List.map_map] at names

variable {rename : Variable → Variable} (names : ∀ read, (rename read).name = read.name)

include names

theorem Value.unversioned_rename (value : Value) :
    (value.substitute fun read => some (.var (rename read))).unversioned = value.unversioned := by
  have same (read : Variable) : (rename read).unversioned = read.unversioned :=
    Variable.unversioned_eq (names read)
  rw [unversioned, substitute_substitute]
  simp only [Option.getD_some, substitute, same, unversioned]

theorem Instruction.unversioned_rename (instruction : Instruction) :
    (instruction.substitute fun read => some (.var (rename read))).unversioned =
      instruction.unversioned := by
  have values : Value.unversioned ∘ Value.substitute (fun read => some (.var (rename read))) =
      Value.unversioned := funext (Value.unversioned_rename names)
  have previous : Variable.unversioned ∘
      Assignment.substitutePrevious (fun read => some (.var (rename read))) =
        Variable.unversioned := funext fun read => Variable.unversioned_eq (names read)
  cases instruction with
  | assign assignment =>
    simp only [substitute, Assignment.substitute, unversioned_assign, Option.map_map, previous,
      Value.unversioned_rename names]
  | call operation =>
    simp only [substitute, CallOperation.substitute, unversioned_call, Option.map_map,
      List.map_map, values]
    simp only [Function.comp_def, Value.unversioned_rename names]
  | condition value => exact congrArg condition (Value.unversioned_rename names value)
  | expression value => exact congrArg expression (Value.unversioned_rename names value)
  | ret listed =>
    exact congrArg ret (List.map_map.trans (congrArg (List.map · listed) values))
  | emit event listed =>
    exact congrArg (emit event) (List.map_map.trans (congrArg (List.map · listed) values))
  | phi => rfl
  | raw => rfl

/-- The instruction without versions, those that it defines included. -/
def Instruction.bare : Instruction → Instruction
  | assign assignment =>
    (assign { assignment with
      target := assignment.target.unversioned
      implied := assignment.implied.map Variable.unversioned }).unversioned
  | call operation => (call { operation with result := operation.result.unversioned }).unversioned
  | instruction => instruction.unversioned

theorem Instruction.bare_rename (instruction : Instruction) :
    (instruction.substitute fun read => some (.var (rename read))).bare = instruction.bare := by
  cases instruction with
  | assign assignment =>
    exact unversioned_rename names (assign { assignment with
      target := assignment.target.unversioned
      implied := assignment.implied.map Variable.unversioned })
  | call operation =>
    exact unversioned_rename names (call { operation with result := operation.result.unversioned })
  | _ => exact unversioned_rename names _

omit names in
theorem Instruction.bare_redefine {σ : Type} {step : σ → Variable → Variable × σ}
    (named : ∀ state old, (step state old).1.name = old.name) (state : σ)
    {instruction : Instruction} (noPhi : instruction.isPhi = false) :
    (instruction.redefine step state).1.bare = instruction.bare := by
  cases instruction with
  | assign assignment =>
    have target := Variable.unversioned_eq (named state assignment.target)
    have implied := Variable.map_unversioned
      (mapDefinitions_names step named (step state assignment.target).2 assignment.implied)
    simp only [redefine, bare, target, implied]
  | call operation =>
    have result := Variable.unversioned_eq (named state operation.result)
    simp only [redefine, bare, result]
  | phi => cases noPhi
  | _ => rfl

end Bare

section Insertion

variable (expand : String → List Value → Walk → Expansion)

/-- The new instructions are the old ones without the phis, in their order, each as it was but for
versions. Right behind each stands what was put in after it, which is nothing unless it is an
internal call. -/
def Inserts (old new : List Instruction) : Prop :=
  ∃ parts : List (Instruction × List Instruction),
    new = parts.flatMap (fun part => part.1 :: part.2) ∧
      List.Forall₂ (fun instruction part => part.1.bare = instruction.bare ∧
          ∃ walk, part.2 = (expandAfter expand part.1 walk).instructions)
        (old.filter fun instruction => !instruction.isPhi) parts

theorem expandBody_inserts (walk : Walk) (body : List Instruction) :
    Inserts expand body (expandBody expand walk body).instructions := by
  induction body generalizing walk with
  | nil => exact ⟨[], rfl, .nil⟩
  | cons first rest ih =>
    cases phi : first.isPhi with
    | true =>
      cases first with
      | phi target sources => exact ih (walk.meetPhi target)
      | _ => cases phi
    | false =>
      let renamed := first.substitute fun read => some (.var (walk.resolve read))
      let written := renamed.redefine Walk.redefine walk
      obtain ⟨parts, whole, each⟩ := ih (expandAfter expand written.1 written.2).walk
      have plain : renamed.isPhi = false := by rw [Instruction.isPhi_substitute, phi]
      have kept : written.1.bare = first.bare :=
        (Instruction.bare_redefine (fun _ _ => rfl) walk plain).trans
          (Instruction.bare_rename walk.resolve_name first)
      refine ⟨(written.1, (expandAfter expand written.1 written.2).instructions) :: parts, ?_, ?_⟩
      · rw [expandBody_cons walk phi, List.flatMap_cons, ← whole]
      · rw [List.filter_cons_of_pos (by simp [phi])]
        exact .cons ⟨kept, written.2, rfl⟩ each

theorem inlineFrom_inserts (graph : Graph) (exits : List WalkExit) (walk : Walk)
    (blocks : List Block) :
    List.Forall₂ (fun old new => Inserts expand old.instructions new.instructions) blocks
      (inlineFrom graph expand exits walk blocks).blocks := by
  induction blocks generalizing exits walk with
  | nil => exact .nil
  | cons block rest ih => exact .cons (expandBody_inserts expand _ _) (ih _ _)

theorem shells_inlineFrom (graph : Graph) (exits : List WalkExit) (walk : Walk)
    (blocks : List Block) :
    (inlineFrom graph expand exits walk blocks).blocks.map Block.shell =
      blocks.map Block.shell := by
  induction blocks generalizing exits walk with
  | nil => rfl
  | cons block rest ih => exact congrArg (block.shell :: ·) (ih _ _)

theorem length_exits_inlineFrom (graph : Graph) (exits : List WalkExit) (walk : Walk)
    (blocks : List Block) :
    (inlineFrom graph expand exits walk blocks).exits.length = blocks.length := by
  induction blocks generalizing exits walk with
  | nil => rfl
  | cons block rest ih => exact congrArg (· + 1) (ih _ _)

end Insertion

section Targets

variable {templates : Table Template}

theorem splice_stops {depth : Nat} {stack : List String} {target : String}
    (stops : depth = 0 ∨ target ∈ stack ∨ templates.get? target = none) (arguments : List Value)
    (walk : Walk) : splice templates depth stack target arguments walk = { walk } := by
  cases depth with
  | zero => rfl
  | succ depth =>
    rw [splice]
    split
    · rfl
    next fresh =>
      have apart : target ∉ stack := by simpa using fresh
      rw [(stops.resolve_left (Nat.succ_ne_zero depth)).resolve_left apart]

theorem expandAfter_stops {depth : Nat} {stack : List String} {call : Instruction}
    (stops : ∀ target, call.internalTarget? = some target →
      depth = 0 ∨ target ∈ stack ∨ templates.get? target = none) (walk : Walk) :
    expandAfter (splice templates depth stack) call walk = { walk } := by
  unfold expandAfter
  split
  next target goes => exact splice_stops (stops target goes) _ _
  next => rfl

variable (templates)

theorem hasTargets_eq_false (root : String) (blocks : List Block) :
    hasTargets templates root blocks = false ↔
      ∀ call ∈ instructionsOf blocks, ∀ target, call.internalTarget? = some target →
        target = root ∨ templates.get? target = none := by
  rw [hasTargets, List.any_eq_false]
  refine forall₂_congr fun call _ => ?_
  rw [Bool.not_eq_true, Option.any_eq_false]
  refine forall₂_congr fun target _ => ?_
  simp [Table.contains, Decidable.or_iff_not_imp_left]

end Targets

/-- Expansion keeps all blocks with everything but their instructions and versions. If something is
put in, it stands behind the calls that it comes from, between instructions that are otherwise the
old ones, and the versions at the end of every block are told. If nothing is put in, nothing
changes; and this is so exactly if nothing may be put in or every call goes to the function itself
or to one that is not known. -/
theorem inlineBlocks_inserts (templates : Table Template) (depth : Nat) (root : String)
    (versions : Versions) (blocks : List Block) :
    let inlined := inlineBlocks templates depth root versions blocks
    let expand := splice templates depth [root]
    inlined.blocks.map Block.shell = blocks.map Block.shell ∧
    (inlined.spliced ≠ 0 → inlined.exits.length = blocks.length ∧
      List.Forall₂ (fun old new => Inserts expand old.instructions new.instructions) blocks
        inlined.blocks) ∧
    (inlined.spliced = 0 → inlined.blocks = blocks ∧ inlined.versions = versions ∧
      ∀ call ∈ instructionsOf blocks, ∀ walk, (expandAfter expand call walk).instructions = []) ∧
    (inlined.spliced = 0 ↔ depth = 0 ∨
      ∀ call ∈ instructionsOf blocks, ∀ target, call.internalTarget? = some target →
        target = root ∨ templates.get? target = none) := by
  intro inlined expand
  have calm := hasTargets_eq_false templates root blocks
  by_cases idle : depth = 0 ∨ hasTargets templates root blocks = false
  · have same : inlined = { blocks, versions } := if_pos (by simpa using idle)
    have stops : depth = 0 ∨ ∀ call ∈ instructionsOf blocks, ∀ target,
        call.internalTarget? = some target → target = root ∨ templates.get? target = none :=
      idle.imp_right calm.mp
    rw [same]
    refine ⟨rfl, fun put => absurd rfl put, fun _ => ⟨rfl, rfl, ?_⟩, fun _ => stops, fun _ => rfl⟩
    intro call member walk
    rw [expandAfter_stops (fun target goes => ?_)]
    exact stops.imp_right fun quiet => by simpa using quiet call member target goes
  · have active : inlined = Body.expanded { blocks, versions } templates depth root :=
      if_neg (by simpa using idle)
    rw [not_or, Bool.not_eq_false] at idle
    have put : inlined.spliced ≠ 0 := by
      rw [active]
      exact Body.expanded_spliced { blocks, versions } templates depth root idle.1 idle.2
    refine ⟨?_, fun _ => ⟨?_, ?_⟩, fun none => absurd none put, fun none => absurd none put, ?_⟩
    · rw [active]
      exact shells_inlineFrom expand ..
    · rw [active]
      exact length_exits_inlineFrom expand ..
    · rw [active]
      exact inlineFrom_inserts expand ..
    · rintro (zero | quiet)
      · exact absurd zero idle.1
      · cases (calm.mpr quiet).symm.trans idle.2

end Reentrancy
