import Mathlib.Data.List.Nodup
import Reentrancy.Proofs.Inline.Binding
import Reentrancy.Proofs.Inline.Insertion

/-! How deep bodies are nested. The functions that are being expanded are all different, so there
are never more of them than functions that can be put in, and beyond that number a greater depth
changes nothing. -/
namespace Reentrancy

mutual

/-- What may follow an instruction inside the functions `chain`, the innermost first. `opened` tells
of every body that is put in which functions it stands in, itself the first. Nothing here keeps a
function from being put in again inside itself; but a call is left alone only if its function is
open or not known, or if `limit` bodies are open. -/
inductive Nests (templates : Table Template) (limit : Nat) :
    List String → Instruction → Walk → List (List String) → Expansion → Prop where
  | stops {chain : List String} {call : Instruction} {walk : Walk}
      (stops : ∀ target, call.internalTarget? = some target →
        limit < chain.length ∨ target ∈ chain ∨ templates.get? target = none) :
      Nests templates limit chain call walk [] { walk }
  | opens {chain : List String} {call : Instruction} {walk : Walk} {target : String}
      {template : Template} {opened : List (List String)} {body : Expansion}
      (goes : call.internalTarget? = some target) (found : templates.get? target = some template)
      (inner : NestsBody templates limit (target :: chain) (template.bindings call.arguments)
        ⟨walk, []⟩ template.body opened body) :
      Nests templates limit chain call walk ((target :: chain) :: opened)
        { body with spliced := body.spliced + 1 }

inductive NestsBody (templates : Table Template) (limit : Nat) :
    List String → Table Value → Region → List Instruction → List (List String) → Expansion →
      Prop where
  | nil {chain : List String} {bindings : Table Value} (region : Region) :
      NestsBody templates limit chain bindings region [] [] { walk := region.walk }
  | cons {chain : List String} {bindings : Table Value} {region : Region} {first : Instruction}
      {rest : List Instruction} {opened others : List (List String)} {inner later : Expansion}
      (here : Nests templates limit chain (region.write bindings first).1
        (region.write bindings first).2.walk opened inner)
      (behind : NestsBody templates limit chain bindings
        ⟨inner.walk, (region.write bindings first).2.renamed⟩ rest others later) :
      NestsBody templates limit chain bindings region (first :: rest) (opened ++ others)
        ⟨later.walk, (region.write bindings first).1 :: inner.instructions ++ later.instructions,
          inner.spliced + later.spliced⟩

end

/-- More functions may be open inside those of `chain`: known ones, no function twice, and at most
`limit` besides the outermost. -/
structure Deepens (templates : Table Template) (limit : Nat) (chain deeper : List String) :
    Prop where
  distinct : deeper.Nodup
  known : ∃ bodies, deeper = bodies ++ chain ∧ ∀ name ∈ bodies, templates.contains name = true
  bounded : deeper.length ≤ limit + 1

section Chains

variable {templates : Table Template}

theorem splice_opens {stack : List String} {target : String} {template : Template}
    (fresh : target ∉ stack) (found : templates.get? target = some template) (depth : Nat)
    (arguments : List Value) (walk : Walk) :
    splice templates (depth + 1) stack target arguments walk =
      let body := spliceBody (template.bindings arguments)
        (splice templates depth (target :: stack)) ⟨walk, []⟩ template.body
      { body with spliced := body.spliced + 1 } := by
  rw [splice, if_neg (by simpa using fresh), found]

variable {limit : Nat} {chain : List String}

theorem Deepens.push {target : String} {deeper : List String}
    (known : templates.contains target = true)
    (deepens : Deepens templates limit (target :: chain) deeper) :
    Deepens templates limit chain deeper := by
  obtain ⟨bodies, rfl, each⟩ := deepens.known
  refine ⟨deepens.distinct, ⟨bodies ++ [target], List.append_cons .., ?_⟩, deepens.bounded⟩
  rw [List.forall_mem_append, List.forall_mem_singleton]
  exact ⟨each, known⟩

theorem Deepens.length_le {root : String} {deeper : List String}
    (deepens : Deepens templates limit [root] deeper) :
    ∃ bodies, deeper = bodies ++ [root] ∧ bodies.length ≤ min limit templates.keys.length ∧
      ∀ name ∈ bodies, templates.contains name = true := by
  obtain ⟨bodies, rfl, each⟩ := deepens.known
  have bounded := deepens.bounded
  rw [List.length_append, List.length_singleton] at bounded
  have listed : bodies ⊆ templates.keys := fun name member => Table.mem_keys.mpr (each name member)
  have few := (List.subperm_of_subset deepens.distinct.of_append_left listed).length_le
  exact ⟨bodies, rfl, le_min (Nat.le_of_add_le_add_right bounded) few, each⟩

variable {expand : String → List Value → Walk → Expansion} {allowed : List String → Prop}

theorem spliceBody_nests
    (each : ∀ call walk, ∃ opened,
      Nests templates limit chain call walk opened (expandAfter expand call walk) ∧
        opened.length = (expandAfter expand call walk).spliced ∧ ∀ deeper ∈ opened, allowed deeper)
    (bindings : Table Value) (region : Region) (body : List Instruction) :
    ∃ opened, NestsBody templates limit chain bindings region body opened
        (spliceBody bindings expand region body) ∧
      opened.length = (spliceBody bindings expand region body).spliced ∧
      ∀ deeper ∈ opened, allowed deeper := by
  induction body generalizing region with
  | nil => exact ⟨[], .nil region, rfl, by simp⟩
  | cons first rest ih =>
    let written := region.write bindings first
    obtain ⟨opened, here, count, kept⟩ := each written.1 written.2.walk
    obtain ⟨others, behind, counts, keeps⟩ :=
      ih ⟨(expandAfter expand written.1 written.2.walk).walk, written.2.renamed⟩
    rw [spliceBody_cons]
    refine ⟨opened ++ others, .cons here behind, ?_, ?_⟩
    · rw [List.length_append, count, counts]
      rfl
    · intro deeper member
      exact (List.mem_append.mp member).elim (kept deeper) (keeps deeper)

/-- The induction is on how many bodies may still be opened. -/
theorem splice_nests (distinct : chain.Nodup) {depth : Nat}
    (room : depth + chain.length = limit + 1) (call : Instruction) (walk : Walk) :
    ∃ opened, Nests templates limit chain call walk opened
        (expandAfter (splice templates depth chain) call walk) ∧
      opened.length = (expandAfter (splice templates depth chain) call walk).spliced ∧
      ∀ deeper ∈ opened, Deepens templates limit chain deeper := by
  induction depth generalizing chain call walk with
  | zero =>
    rw [expandAfter_stops fun _ _ => .inl rfl]
    exact ⟨[], .stops fun _ _ => .inl (by omega), rfl, by simp⟩
  | succ depth ih =>
    by_cases stops : ∀ target, call.internalTarget? = some target →
        target ∈ chain ∨ templates.get? target = none
    · rw [expandAfter_stops fun target goes => .inr (stops target goes)]
      exact ⟨[], .stops fun target goes => .inr (stops target goes), rfl, by simp⟩
    · push Not at stops
      obtain ⟨target, goes, fresh, found⟩ := stops
      obtain ⟨template, found⟩ := Option.ne_none_iff_exists'.mp found
      have longer : (target :: chain).Nodup := List.nodup_cons.mpr ⟨fresh, distinct⟩
      have room' : depth + (target :: chain).length = limit + 1 := by
        rw [List.length_cons]
        omega
      obtain ⟨opened, inner, count, kept⟩ := spliceBody_nests (ih longer room')
        (template.bindings call.arguments) ⟨walk, []⟩ template.body
      have known : templates.contains target = true := by rw [Table.contains, found]; rfl
      have itself : Deepens templates limit (target :: chain) (target :: chain) :=
        ⟨longer, ⟨[], rfl, by simp⟩, by omega⟩
      have put : expandAfter (splice templates (depth + 1) chain) call walk =
          splice templates (depth + 1) chain target call.arguments walk := by
        rw [expandAfter, goes]
      rw [put, splice_opens fresh found]
      refine ⟨(target :: chain) :: opened, .opens goes found inner, congrArg (· + 1) count, ?_⟩
      rw [List.forall_mem_cons]
      exact ⟨itself.push known, fun deeper member => (kept deeper member).push known⟩

end Chains

section Saturation

variable (templates : Table Template)

def unopened (stack : List String) : List String :=
  templates.keys.filter fun name => !stack.contains name

variable {templates}

theorem mem_unopened {stack : List String} {target : String} (fresh : target ∉ stack)
    (known : templates.get? target ≠ none) : target ∈ unopened templates stack := by
  have listed : target ∈ templates.keys := Table.mem_keys.mpr (Option.isSome_iff_ne_none.mpr known)
  exact List.mem_filter.mpr ⟨listed, by simpa using fresh⟩

theorem length_unopened_lt {stack : List String} {target : String} (fresh : target ∉ stack)
    (known : templates.get? target ≠ none) :
    (unopened templates (target :: stack)).length < (unopened templates stack).length := by
  have fewer : unopened templates (target :: stack) =
      (unopened templates stack).filter fun name => name != target := by
    rw [unopened, unopened, List.filter_filter]
    congr 1
    funext name
    by_cases same : name = target <;> simp [same]
  rw [fewer, List.length_filter_lt_length_iff_exists]
  exact ⟨target, mem_unopened fresh known, by simp⟩

theorem splice_saturates {stack : List String} {depth other : Nat}
    (enough : (unopened templates stack).length ≤ depth)
    (also : (unopened templates stack).length ≤ other) :
    splice templates depth stack = splice templates other stack := by
  induction depth generalizing stack other with
  | zero =>
    have none_left : unopened templates stack = [] := List.length_eq_zero_iff.mp (by omega)
    funext target arguments walk
    rw [splice_stops (.inl rfl), splice_stops]
    by_contra opens
    push Not at opens
    have left : target ∈ unopened templates stack := mem_unopened opens.2.1 opens.2.2
    rw [none_left] at left
    cases left
  | succ depth ih =>
    funext target arguments walk
    by_cases stops : target ∈ stack ∨ templates.get? target = none
    · rw [splice_stops (.inr stops), splice_stops (.inr stops)]
    · push Not at stops
      have fewer := length_unopened_lt stops.1 stops.2
      obtain ⟨template, found⟩ := Option.ne_none_iff_exists'.mp stops.2
      obtain ⟨rest, rfl⟩ : ∃ rest, other = rest + 1 := ⟨other - 1, by omega⟩
      have same : splice templates depth (target :: stack) =
          splice templates rest (target :: stack) := ih (by omega) (by omega)
      rw [splice_opens stops.1 found, splice_opens stops.1 found, same]

theorem length_keys_pos {root : String} {blocks : List Block}
    (targets : hasTargets templates root blocks = true) : 0 < templates.keys.length := by
  by_contra none
  have empty : templates.keys = [] := List.length_eq_zero_iff.mp (by omega)
  have calm : hasTargets templates root blocks = false := by
    refine (hasTargets_eq_false templates root blocks).mpr fun _ _ target _ => .inr ?_
    by_contra known
    have listed := mem_unopened (List.not_mem_nil (a := target)) known
    rw [unopened, empty] at listed
    cases listed
  cases targets.symm.trans calm

end Saturation

/-- Whatever the functions call, themselves and each other included, the expansion of a call is one
where every body stands in functions that are all different, down from `root`, and no deeper than
the depth or the number of functions. Depths from that number on give the same blocks, versions and
count. -/
theorem inlineBlocks_saturates (templates : Table Template) (root : String) :
    (∀ depth call walk, ∃ opened,
      let expansion := expandAfter (splice templates depth [root]) call walk
      Nests templates depth [root] call walk opened expansion ∧
        opened.length = expansion.spliced ∧
        ∀ chain ∈ opened, chain.Nodup ∧ ∃ bodies, chain = bodies ++ [root] ∧
          bodies.length ≤ min depth templates.keys.length ∧
          ∀ name ∈ bodies, templates.contains name = true) ∧
    (∀ versions blocks depth other,
      templates.keys.length ≤ depth → templates.keys.length ≤ other →
        inlineBlocks templates depth root versions blocks =
          inlineBlocks templates other root versions blocks) := by
  constructor
  · intro depth call walk
    have room : depth + [root].length = depth + 1 := rfl
    obtain ⟨opened, nests, count, deepens⟩ :=
      splice_nests (List.nodup_singleton root) room call walk
    exact ⟨opened, nests, count, fun chain member =>
      ⟨(deepens chain member).distinct, (deepens chain member).length_le⟩⟩
  · intro versions blocks depth other enough also
    have fewer : (unopened templates [root]).length ≤ templates.keys.length :=
      List.length_filter_le ..
    have same := splice_saturates (Nat.le_trans fewer enough) (Nat.le_trans fewer also)
    cases targets : hasTargets templates root blocks with
    | false => simp [inlineBlocks, targets]
    | true =>
      have positive := length_keys_pos targets
      have goes : depth ≠ 0 := by omega
      have goes' : other ≠ 0 := by omega
      simp only [inlineBlocks, targets, goes, goes', same]

/-- Two functions that call each other are put in once each, one inside the other. -/
theorem mutual_recursion_saturates :
    let calls (target : String) : Instruction :=
      .call { result := ⟨"ret1", 1⟩, callee := target, type := .internal }
    let templates := Table.ofList [("f", Template.mk [] [calls "g"]), ("g", ⟨[], [calls "f"]⟩)]
    (∃ opened, Nests templates 5 ["h"] (calls "f") {} opened
        (expandAfter (splice templates 5 ["h"]) (calls "f") {}) ∧
      opened.length = 2 ∧ ∀ chain ∈ opened, chain.Nodup) ∧
    ∀ versions blocks, inlineBlocks templates 2 "h" versions blocks =
      inlineBlocks templates 5 "h" versions blocks := by
  intro calls templates
  have size : templates.keys.length = 2 := by decide +kernel
  have spliced : (expandAfter (splice templates 5 ["h"]) (calls "f") {}).spliced = 2 := by
    decide +kernel
  obtain ⟨nests, saturates⟩ := inlineBlocks_saturates templates "h"
  obtain ⟨opened, nested, count, chains⟩ := nests 5 (calls "f") {}
  refine ⟨⟨opened, nested, count.trans spliced, fun chain member => (chains chain member).1⟩, ?_⟩
  intro versions blocks
  exact saturates versions blocks 2 5 (by omega) (by omega)

end Reentrancy
