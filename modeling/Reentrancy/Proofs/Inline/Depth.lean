import Reentrancy.Proofs.Detector.Effects
import Reentrancy.Proofs.Inline.Alike
import Reentrancy.Proofs.Inline.Templates

/-! Deeper expansion has all effects of a shallower one, in the same blocks and the same order.
The two expansions put in the same bodies down to the lesser depth. Arguments differ in the
versions that they read, but they stay alike, so names and call targets come out the same. -/
namespace Reentrancy

/-- The names of a contract are identifiers, no parameter has the name of a function, and
template bodies are formed. -/
structure Named (state callables : Names) (templates : Table Template) : Prop where
  stateNames : ∀ name, state.contains name = true → Token.isName name.toList = true
  functionNames : ∀ name, callables.contains name = true → Token.isName name.toList = true
  parameters : ∀ name template, templates.get? name = some template →
    ∀ parameter ∈ template.parameters, Token.isName parameter.toList = true ∧
      (parameter ≠ "" → callables.contains parameter = false)
  formed : ∀ name template, templates.get? name = some template →
    ∀ instruction ∈ template.body, instruction.Formed callables

section Bindings

theorem insertAll_alike {parameters : List String} {one two : List Value}
    (arguments : List.Forall₂ Value.Alike one two) {first second : Table Value}
    (tables : ∀ name, Option.Rel Value.Alike (first.get? name) (second.get? name)) (name : String) :
    Option.Rel Value.Alike ((first.insertAll (parameters.zip one)).get? name)
      ((second.insertAll (parameters.zip two)).get? name) := by
  induction arguments generalizing parameters first second with
  | nil =>
    rw [List.zip_nil_right]
    exact tables name
  | @cons left right lefts rights alike _ ih =>
    cases parameters with
    | nil => exact tables name
    | cons parameter rest =>
      have inserted (other : String) : Option.Rel Value.Alike
          ((first.insert parameter left).get? other)
          ((second.insert parameter right).get? other) := by
        rw [Table.get?_insert, Table.get?_insert]
        split
        · exact .some alike
        · exact tables other
      exact ih inserted

theorem mem_parameters {template : Template} {arguments : List Value} {name : String}
    (known : (template.bindings arguments).contains name = true) : name ∈ template.parameters := by
  obtain ⟨value, found⟩ := Option.isSome_iff_exists.mp known
  rcases Table.mem_of_get?_insertAll found with member | absent
  · exact (List.of_mem_zip member).1
  · cases absent

variable {state callables : Names} {templates : Table Template}

theorem Named.bound (named : Named state callables templates) {target : String}
    {template : Template} (found : templates.get? target = some template) {one two : List Value}
    (arguments : List.Forall₂ Value.Alike one two) :
    Bound callables (template.bindings one) (template.bindings two) where
  alike := insertAll_alike arguments fun _ => .none
  named name known := (named.parameters target template found name (mem_parameters known)).1
  apart name known := (named.parameters target template found name (mem_parameters known)).2

end Bindings

structure SameStep (state : Names) (one two : Instruction) : Prop where
  effect : one.effect? state = two.effect? state
  target : one.internalTarget? = two.internalTarget?
  arguments : List.Forall₂ Value.Alike one.arguments two.arguments

section Steps

variable {state callables : Names} {templates : Table Template}

theorem contains_baseName (stateNames : ∀ name, state.contains name = true →
      Token.isName name.toList = true) {one two : String}
    (alike : Token.Alike one.toList two.toList) :
    state.contains (baseName one) = state.contains (baseName two) := by
  have moves {first second : String} (same : Token.Alike first.toList second.toList)
      (known : state.contains (baseName first) = true) :
      state.contains (baseName second) = true := by
    have named := stateNames _ known
    have base := (Token.baseName_eq_iff named).mp (Eq.refl (baseName first))
    rw [same.whole, same.root] at base
    rwa [(Token.baseName_eq_iff named).mpr base]
  exact Bool.eq_iff_iff.mpr ⟨moves alike, moves alike.symm⟩

theorem Named.sameStep_bound (named : Named state callables templates) {one two : Table Value}
    (bound : Bound callables one two) {instruction : Instruction}
    (formed : instruction.Formed callables) (first second : Region) :
    SameStep state
      (((instruction.bindNames one).substitute fun read =>
        some (first.resolve one read)).redefine Region.redefine first).1
      (((instruction.bindNames two).substitute fun read =>
        some (second.resolve two read)).redefine Region.redefine second).1 := by
  cases instruction with
  | assign assignment =>
    refine ⟨?_, rfl, .nil⟩
    have base := contains_baseName named.stateNames (bound.bindVariable assignment.target)
    exact congrArg (fun known : Bool => if known then some Effect.writes else none) base
  | call operation =>
    refine ⟨rfl, ?_, ?_⟩
    · change (if operation.type = .internal then
          some (Text.afterLast '.' (bindText one operation.callee)) else none) =
        if operation.type = .internal then
          some (Text.afterLast '.' (bindText two operation.callee)) else none
      split
      next internal =>
        obtain ⟨name, known, called⟩ := formed.2 internal
        rw [bound.afterLast_bindText (named.functionNames name known) known called,
          bound.symm.afterLast_bindText (named.functionNames name known) known called]
      next => rfl
    · change List.Forall₂ Value.Alike
        ((operation.arguments.map (Value.bindNames one)).map (Value.substitute fun read =>
          some (first.resolve one read)))
        ((operation.arguments.map (Value.bindNames two)).map (Value.substitute fun read =>
          some (second.resolve two read)))
      rw [List.map_map, List.map_map, List.forall₂_map_left_iff, List.forall₂_map_right_iff,
        List.forall₂_same]
      intro argument member
      rw [Function.comp_apply, Function.comp_apply, Value.bindNames, Value.bindNames,
        Value.substitute_substitute, Value.substitute_substitute]
      refine Value.alike_substitute (fun read => ?_) argument (formed.1 argument member)
      exact bound.resolve first second read
  | _ => exact ⟨rfl, rfl, .nil⟩

theorem sameStep_walk (state : Names) {instruction : Instruction}
    (formed : instruction.Formed callables) (first second : Walk) :
    SameStep state
      ((instruction.substitute fun read => some (.var (first.resolve read))).redefine
        Walk.redefine first).1
      ((instruction.substitute fun read => some (.var (second.resolve read))).redefine
        Walk.redefine second).1 := by
  cases instruction with
  | call operation =>
    refine ⟨rfl, rfl, ?_⟩
    change List.Forall₂ Value.Alike
      (operation.arguments.map (Value.substitute fun read => some (.var (first.resolve read))))
      (operation.arguments.map (Value.substitute fun read => some (.var (second.resolve read))))
    rw [List.forall₂_map_left_iff, List.forall₂_map_right_iff, List.forall₂_same]
    intro argument member
    refine Value.alike_substitute (fun read => ?_) argument (formed.1 argument member)
    -- Walks give a read another version, never another name.
    have names : Token.Alike (first.resolve read).name.toList
        (second.resolve read).name.toList := by
      rw [first.resolve_name, second.resolve_name]
      exact .refl _
    exact .var names
  | _ => exact ⟨rfl, rfl, .nil⟩

end Steps

/-- Wherever the one expansion puts something in, the other puts in at least its effects. -/
def Deeper (state : Names) (one two : String → List Value → Walk → Expansion) : Prop :=
  ∀ target first second walk other, List.Forall₂ Value.Alike first second →
    (effectsOf state (one target first walk).instructions).Sublist
      (effectsOf state (two target second other).instructions)

section Expansion

variable {state callables : Names} {templates : Table Template}
  {one two : String → List Value → Walk → Expansion}

theorem effectsOf_cons (state : Names) (first : Instruction) (rest : List Instruction) :
    effectsOf state (first :: rest) = (first.effect? state).toList ++ effectsOf state rest := by
  rw [effectsOf, List.filterMap_cons]
  cases first.effect? state <;> rfl

theorem Deeper.expandAfter (deeper : Deeper state one two) {first second : Instruction}
    (same : SameStep state first second) (walk other : Walk) :
    (effectsOf state (expandAfter one first walk).instructions).Sublist
      (effectsOf state (expandAfter two second other).instructions) := by
  unfold Reentrancy.expandAfter
  rw [same.target]
  split
  · exact deeper _ _ _ walk other same.arguments
  · exact .refl _

theorem Named.spliceBody (named : Named state callables templates)
    (deeper : Deeper state one two) {left right : Table Value} (bound : Bound callables left right)
    {body : List Instruction} (formed : ∀ instruction ∈ body, instruction.Formed callables)
    (region other : Region) :
    (effectsOf state (spliceBody left one region body).instructions).Sublist
      (effectsOf state (spliceBody right two other body).instructions) := by
  induction body generalizing region other with
  | nil => exact .refl _
  | cons first rest ih =>
    rw [List.forall_mem_cons] at formed
    have same := named.sameStep_bound bound formed.1 region other
    rw [spliceBody_cons, spliceBody_cons]
    dsimp only
    rw [List.cons_append, List.cons_append, effectsOf_cons, effectsOf_cons, effectsOf_append,
      effectsOf_append, same.effect]
    exact (List.Sublist.refl _).append ((deeper.expandAfter same _ _).append (ih formed.2 _ _))

theorem Named.splice (named : Named state callables templates) {shallow deep : Nat}
    (le : shallow ≤ deep) (stack : List String) :
    Deeper state (splice templates shallow stack) (splice templates deep stack) := by
  -- Both expansions carry the same stack, so recursion ends in the same places; only the one
  -- that runs out of depth stops earlier.
  induction shallow generalizing deep stack with
  | zero =>
    intro target first second walk other _
    exact List.nil_sublist _
  | succ shallow ih =>
    intro target first second walk other arguments
    obtain ⟨deep, rfl⟩ : ∃ depth, deep = depth + 1 := ⟨deep - 1, by omega⟩
    rw [Reentrancy.splice, Reentrancy.splice]
    split
    · exact .refl _
    · split
      · exact .refl _
      next template found =>
        exact named.spliceBody (ih (by omega) (target :: stack)) (named.bound found arguments)
          (named.formed target template found) ⟨walk, []⟩ ⟨other, []⟩

theorem Deeper.expandBody (deeper : Deeper state one two) {body : List Instruction}
    (formed : ∀ instruction ∈ body, instruction.Formed callables) (walk other : Walk) :
    (effectsOf state (expandBody one walk body).instructions).Sublist
      (effectsOf state (expandBody two other body).instructions) := by
  induction body generalizing walk other with
  | nil => exact .refl _
  | cons first rest ih =>
    rw [List.forall_mem_cons] at formed
    cases phi : first.isPhi with
    | true =>
      cases first with
      | phi target sources => exact ih formed.2 (walk.meetPhi target) (other.meetPhi target)
      | _ => cases phi
    | false =>
      have same := sameStep_walk state formed.1 walk other
      rw [expandBody_cons walk phi, expandBody_cons other phi]
      dsimp only
      rw [List.cons_append, List.cons_append, effectsOf_cons, effectsOf_cons, effectsOf_append,
        effectsOf_append, same.effect]
      exact (List.Sublist.refl _).append ((deeper.expandAfter same _ _).append (ih formed.2 _ _))

theorem expandBody_keeps (expand : String → List Value → Walk → Expansion) (walk : Walk)
    (body : List Instruction) :
    (effectsOf state body).Sublist
      (effectsOf state (expandBody expand walk body).instructions) := by
  induction body generalizing walk with
  | nil => exact .refl _
  | cons first rest ih =>
    cases phi : first.isPhi with
    | true =>
      cases first with
      | phi target sources => exact ih (walk.meetPhi target)
      | _ => cases phi
    | false =>
      have kept (rule : Variable → Option Value) :
          ((first.substitute rule).redefine Walk.redefine walk).1.effect? state =
            first.effect? state := by
        cases first <;> rfl
      rw [expandBody_cons walk phi]
      dsimp only
      rw [List.cons_append, effectsOf_cons, effectsOf_cons, effectsOf_append, kept]
      exact (List.Sublist.refl _).append ((ih _).trans (List.sublist_append_right _ _))

theorem Deeper.inlineFrom (deeper : Deeper state one two) {blocks : List Block}
    (formed : ∀ block ∈ blocks, ∀ instruction ∈ block.instructions, instruction.Formed callables)
    (graph : Graph) (exits others : List WalkExit) (walk other : Walk) :
    Covers state (inlineFrom graph one exits walk blocks).blocks
      (inlineFrom graph two others other blocks).blocks := by
  induction blocks generalizing exits others walk other with
  | nil => exact .nil
  | cons block rest ih =>
    rw [List.forall_mem_cons] at formed
    exact .cons ⟨rfl, deeper.expandBody formed.1 _ _⟩ (ih formed.2 _ _ _ _)

theorem inlineFrom_covers (graph : Graph) (expand : String → List Value → Walk → Expansion)
    (exits : List WalkExit) (walk : Walk) (blocks : List Block) :
    Covers state blocks (inlineFrom graph expand exits walk blocks).blocks := by
  induction blocks generalizing exits walk with
  | nil => exact .nil
  | cons block rest ih => exact .cons ⟨rfl, expandBody_keeps expand _ _⟩ (ih _ _)

end Expansion

section Joined

variable (state : Names)

theorem effectsOf_joinWith (block : Block) (phis : List Phi) :
    effectsOf state (block.joinWith phis).instructions = effectsOf state block.instructions := by
  have none : effectsOf state (phis.map Phi.instruction) = [] := by
    rw [effectsOf, List.filterMap_eq_nil_iff]
    intro instruction member
    obtain ⟨phi, _, rfl⟩ := List.mem_map.mp member
    rfl
  rw [Block.joinWith, effectsOf_append, none, List.nil_append, effectsOf_substitute]

/-- Phis have no effects, and what they replace are reads. -/
theorem joinFrom_covers (blocks : List Block) (graph : Graph) (exits : List (Table Nat))
    (index : Nat) (versions : Versions) (rest : List Block) :
    Covers state rest (joinFrom blocks graph exits index versions rest).blocks ∧
      Covers state (joinFrom blocks graph exits index versions rest).blocks rest := by
  induction rest generalizing index versions with
  | nil => exact ⟨.nil, .nil⟩
  | cons block others ih =>
    rw [joinFrom_cons]
    have same := effectsOf_joinWith state block (phisAt blocks graph exits index versions block).1
    have later := ih (index + 1) (phisAt blocks graph exits index versions block).2
    exact ⟨.cons ⟨rfl, by rw [same]⟩ later.1, .cons ⟨rfl, by rw [same]⟩ later.2⟩

theorem insertPhis_covers (exits : List (Table Nat)) (versions : Versions) (blocks : List Block) :
    Covers state blocks (insertPhis exits versions blocks).blocks ∧
      Covers state (insertPhis exits versions blocks).blocks blocks :=
  joinFrom_covers state blocks (graphOf blocks) exits 0 versions blocks

theorem refresh_covers (blocks : List Block) :
    Covers state blocks (blocks.map Body.refresh) ∧
      Covers state (blocks.map Body.refresh) blocks := by
  induction blocks with
  | nil => exact ⟨.nil, .nil⟩
  | cons block rest ih => exact ⟨.cons ⟨rfl, .refl _⟩ ih.1, .cons ⟨rfl, .refl _⟩ ih.2⟩

end Joined

namespace Body

variable (body : Body) (templates : Table Template) (root : String)

def idle (depth : Nat) : Bool := depth = 0 || !hasTargets templates root body.blocks

theorem inline_idle {depth : Nat} (idle : body.idle templates root depth = true) :
    body.inline templates depth root = body := by
  rw [Body.idle] at idle
  simp [inline, inlineBlocks, idle]

theorem inline_active {depth : Nat} (active : body.idle templates root depth = false)
    (state : Names) :
    Covers state (body.expanded templates depth root).blocks
        (body.inline templates depth root).blocks ∧
      Covers state (body.inline templates depth root).blocks
        (body.expanded templates depth root).blocks := by
  have unfolded : inlineBlocks templates depth root body.versions body.blocks =
      body.expanded templates depth root := by
    rw [Body.idle] at active
    simp [inlineBlocks, active, expanded]
  rw [inline, unfolded]
  split
  · exact ⟨.refl state _, .refl state _⟩
  · let expanded := body.expanded templates depth root
    have fresh := refresh_covers state expanded.blocks
    have joined := insertPhis_covers state expanded.exits expanded.versions
      (expanded.blocks.map refresh)
    exact ⟨fresh.1.trans joined.1, joined.2.trans fresh.2⟩

variable {templates}

theorem inline_covers {state callables : Names} (named : Named state callables templates)
    (formed : ∀ block ∈ body.blocks, ∀ instruction ∈ block.instructions,
      instruction.Formed callables) {shallow deep : Nat} (le : shallow ≤ deep) :
    Covers state (body.inline templates shallow root).blocks
      (body.inline templates deep root).blocks := by
  cases deepIdle : body.idle templates root deep with
  | true =>
    have shallowIdle : body.idle templates root shallow = true := by
      rw [Body.idle] at deepIdle ⊢
      grind
    rw [body.inline_idle templates root deepIdle, body.inline_idle templates root shallowIdle]
    exact .refl state _
  | false =>
    have target := (body.inline_active templates root deepIdle state).1
    cases shallowIdle : body.idle templates root shallow with
    | true =>
      -- At depth zero the body stays as it is, which any expansion covers.
      rw [body.inline_idle templates root shallowIdle]
      exact (inlineFrom_covers _ _ _ _ _).trans target
    | false =>
      have source := (body.inline_active templates root shallowIdle state).2
      have between : Covers state (body.expanded templates shallow root).blocks
          (body.expanded templates deep root).blocks :=
        (named.splice le [root]).inlineFrom formed _ _ _ _ _
      exact (source.trans between).trans target

end Body
end Reentrancy
