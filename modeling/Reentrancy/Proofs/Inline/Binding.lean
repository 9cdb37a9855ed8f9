import Reentrancy.Proofs.Inline.Alike
import Reentrancy.Proofs.Inline.Operands
import Reentrancy.Proofs.Ssa.Places

/-! How the parameters of a body are bound. Every operand that reads a bound parameter on entry
becomes the argument, as a whole and at once. Two reads are not bound: the previous value of a
compound assignment, where the argument is no variable, and the version of a phi, which is not
part of a body. -/
namespace Reentrancy

namespace Instruction

section Rewriting

variable (bindings : Table Value) (instruction : Instruction)

theorem operands_bindNames :
    (instruction.bindNames bindings).operands =
      instruction.operands.map (Value.bindNames bindings) := by
  cases instruction with
  | call operation =>
    cases receiver : operation.receiver <;> simp [bindNames, operands, receiver]
  | _ => simp [bindNames, operands]

theorem previous?_bindNames :
    (instruction.bindNames bindings).previous? =
      instruction.previous?.map (bindVariable bindings) := by
  cases instruction <;> rfl

variable {σ : Type} (step : σ → Variable → Variable × σ) (state : σ)

theorem operands_redefine :
    (instruction.redefine step state).1.operands = instruction.operands := by
  cases instruction <;> rfl

theorem previous?_redefine :
    (instruction.redefine step state).1.previous? = instruction.previous? := by
  cases instruction <;> rfl

end Rewriting

end Instruction

theorem bindVariable_version (bindings : Table Value) (named : Variable) :
    (bindVariable bindings named).version = named.version := by
  unfold bindVariable
  split <;> rfl

theorem bindVariable_of_bound {bindings : Table Value} {named : Variable} {argument : Value}
    (bound : bindings.get? named.name = some argument) : bindVariable bindings named = named :=
  if_pos (Option.isSome_iff_exists.mpr ⟨argument, bound⟩)

namespace Region

def write (bindings : Table Value) (region : Region) (old : Instruction) : Instruction × Region :=
  ((old.bindNames bindings).substitute fun read => some (region.resolve bindings read)).redefine
    Region.redefine region

/-- What the two rewrites of a read come to: its name bound, then the read resolved. -/
def value (bindings : Table Value) (region : Region) (read : Variable) : Value :=
  region.resolve bindings (bindVariable bindings read)

variable {bindings : Table Value} {region : Region}

theorem operands_write (old : Instruction) :
    (region.write bindings old).1.operands =
      old.operands.map (Value.substitute fun read => some (region.value bindings read)) := by
  rw [write, Instruction.operands_redefine, Instruction.operands_substitute,
    Instruction.operands_bindNames, List.map_map]
  apply List.map_congr_left
  intro operand _
  rw [Function.comp_apply, Value.bindNames, Value.substitute_substitute]
  rfl

theorem previous?_write (old : Instruction) :
    (region.write bindings old).1.previous? = old.previous?.map fun read =>
      (region.value bindings read).asPrevious (bindVariable bindings read) := by
  rw [write, Instruction.previous?_redefine, Instruction.previous?_substitute,
    Instruction.previous?_bindNames, Option.map_map]
  congr 1
  funext read
  exact Value.substitutePrevious_eq (region.resolve bindings) (bindVariable bindings read)

theorem value_of_bound {parameter : String} {argument : Value}
    (bound : bindings.get? parameter = some argument) :
    region.value bindings ⟨parameter, 0⟩ = argument := by
  rw [value, bindVariable_of_bound bound, resolve, if_pos rfl, bound]
  rfl

end Region

theorem Walk.Defines.positive {before after : Walk} {defined : List Variable}
    (defines : before.Defines defined after) : ∀ named ∈ defined, named.version ≠ 0 := by
  induction defines with
  | nil => simp
  | cons walk name _ ih =>
    rw [List.forall_mem_cons]
    exact ⟨Nat.succ_ne_zero _, ih⟩

theorem Renamed.redefineAll {region : Region} {known : List Variable}
    (points : Renamed region.renamed known) (defined : List Variable) :
    Renamed (mapDefinitions Region.redefine region defined).2.renamed
      (known ++ (mapDefinitions Region.redefine region defined).1) := by
  induction defined generalizing region known with
  | nil => simpa [mapDefinitions] using points
  | cons first rest ih =>
    have here : Renamed (region.redefine first).2.renamed (known ++ [(region.redefine first).1]) :=
      points.cons
    have later := ih here
    rwa [List.append_assoc] at later

/-- A region some way into a body: `before` is the code put in so far. -/
structure Region.Reached (start : Walk) (before : List Instruction) (region : Region) : Prop where
  defines : start.Defines (before.flatMap Instruction.defs) region.walk
  renamed : Renamed region.renamed (before.flatMap Instruction.defs)

def Untouched (versions : Versions) (before : List Instruction) (name : String) : Prop :=
  versions.current.version name = 0 ∧ name ∉ (before.flatMap Instruction.defs).map Variable.name

def Takes (bindings : Table Value) (read : Variable) (argument : Value) : Prop :=
  read.version = 0 ∧ bindings.get? (bindVariable bindings read).name = some argument

theorem Takes.unique {bindings : Table Value} {read : Variable} {one two : Value}
    (first : Takes bindings read one) (second : Takes bindings read two) : one = two :=
  Option.some.inj (first.2.symm.trans second.2)

/-- A read of a version that the body does not define, of a name that stands at its value on
entry. -/
def FallsBack (bindings : Table Value) (versions : Versions) (before : List Instruction)
    (read : Variable) (name : String) : Prop :=
  read.version ≠ 0 ∧ (bindVariable bindings read).name = name ∧ Untouched versions before name

namespace Region.Reached

variable {start : Walk} {before : List Instruction} {region : Region}
  (reached : region.Reached start before)

include reached

theorem write {expand : String → List Value → Walk → Expansion}
    (defines : ∀ target arguments walk, Walk.Defines walk
      ((expand target arguments walk).instructions.flatMap Instruction.defs)
      (expand target arguments walk).walk) (bindings : Table Value) (old : Instruction) :
    let written := region.write bindings old
    let inner := expandAfter expand written.1 written.2.walk
    Region.Reached start (before ++ written.1 :: inner.instructions)
      ⟨inner.walk, written.2.renamed⟩ := by
  intro written inner
  obtain ⟨defs, state⟩ := Instruction.redefine_eq Region.redefine region
    ((old.bindNames bindings).substitute fun read => some (region.resolve bindings read))
  have here : region.walk.Defines written.1.defs written.2.walk := by
    unfold written Region.write
    rw [defs, state]
    exact mapDefinitions_defines region _
  have points : Renamed written.2.renamed (before.flatMap Instruction.defs ++ written.1.defs) := by
    unfold written Region.write
    rw [defs, state]
    exact reached.renamed.redefineAll _
  have nested := expandAfter_defines defines written.1 written.2.walk
  have code : (before ++ written.1 :: inner.instructions).flatMap Instruction.defs =
      before.flatMap Instruction.defs ++ written.1.defs ++
        inner.instructions.flatMap Instruction.defs := by
    rw [List.flatMap_append, List.flatMap_cons, List.append_assoc]
  constructor
  · rw [code]
    exact (reached.defines.append here).append nested
  · rw [code]
    exact points.mono (List.subset_append_left _ _)

theorem resolve_eq_entry_iff (bindings : Table Value) {read : Variable}
    (later : read.version ≠ 0) (name : String) :
    region.resolve bindings read = .var ⟨name, 0⟩ ↔
      read.name = name ∧ Untouched start.versions before name := by
  have positive := reached.defines.positive
  rw [resolve, if_neg later, Value.var.injEq, Variable.mk.injEq]
  apply and_congr_right
  rintro rfl
  cases found : lookupVariable region.renamed read with
  | some version =>
    have member := reached.renamed read version found
    have named : read.name ∈ (before.flatMap Instruction.defs).map Variable.name :=
      List.mem_map.mpr ⟨_, member, rfl⟩
    constructor
    · intro zero
      exact absurd zero (positive _ member)
    · rintro ⟨_, apart⟩
      exact absurd named apart
  | none =>
    rw [Option.getD_none]
    rcases reached.defines.writes.latest read.name with member | ⟨apart, same⟩
    · constructor
      · intro zero
        exact absurd zero (positive _ member)
      · rintro ⟨_, apart⟩
        exact absurd (List.mem_map.mpr ⟨_, member, rfl⟩) apart
    · rw [same]
      exact ⟨fun zero => ⟨zero, apart⟩, fun untouched => untouched.1⟩

/-- A read becomes the argument it takes. All else that can become a bound parameter on entry is
a version that falls back to it. -/
theorem value_cases {bindings : Table Value} {parameter : String}
    (bound : bindings.contains parameter = true) (read : Variable) :
    (∃ argument, Takes bindings read argument ∧ region.value bindings read = argument) ∨
      (∀ argument, ¬ Takes bindings read argument) ∧
        ∃ other, region.value bindings read = .var other ∧
          (other = ⟨parameter, 0⟩ ↔
            FallsBack bindings start.versions before read parameter) := by
  have version := bindVariable_version bindings read
  by_cases entry : read.version = 0
  · have resolved : region.value bindings read =
        (bindings.get? (bindVariable bindings read).name).getD
          (.var (region.walk.versions.read (bindVariable bindings read).name)) :=
      if_pos (version.trans entry)
    cases found : bindings.get? (bindVariable bindings read).name with
    | some argument =>
      rw [found] at resolved
      exact .inl ⟨argument, ⟨entry, found⟩, resolved⟩
    | none =>
      rw [found] at resolved
      refine .inr ⟨?_, _, resolved, ?_⟩
      · rintro argument ⟨_, other⟩
        cases found.symm.trans other
      · constructor
        · intro same
          have named : (bindVariable bindings read).name = parameter := congrArg Variable.name same
          rw [named] at found
          rw [Table.contains, found] at bound
          cases bound
        · rintro ⟨later, _⟩
          exact absurd entry later
  · have later : (bindVariable bindings read).version ≠ 0 := version ▸ entry
    have fallen := reached.resolve_eq_entry_iff bindings later parameter
    refine .inr ⟨fun argument takes => entry takes.1, _, if_neg later, ?_⟩
    rw [resolve, if_neg later, Value.var.injEq] at fallen
    rw [fallen]
    exact ⟨fun both => ⟨entry, both⟩, fun falls => falls.2⟩

theorem place_value_iff {bindings : Table Value} {parameter : String}
    (bound : bindings.contains parameter = true) {read : Variable} {path : List Nat} :
    (region.value bindings read).place path = some (.var ⟨parameter, 0⟩) ↔
      (∃ argument, Takes bindings read argument ∧
        argument.place path = some (.var ⟨parameter, 0⟩)) ∨
      path = [] ∧ FallsBack bindings start.versions before read parameter := by
  rcases reached.value_cases bound read with
    ⟨argument, takes, becomes⟩ | ⟨none, other, becomes, falls⟩
  · rw [becomes]
    constructor
    · intro inside
      exact .inl ⟨argument, takes, inside⟩
    · rintro (⟨other, taken, inside⟩ | ⟨_, later, _⟩)
      · rwa [takes.unique taken]
      · exact absurd takes.1 later
  · rw [becomes, Value.place_var_eq_some, Value.var.injEq, falls]
    constructor
    · exact .inr
    · rintro (⟨argument, takes, _⟩ | fallen)
      · exact absurd takes (none argument)
      · exact fallen

theorem asPrevious_value_iff {bindings : Table Value} {parameter : String}
    (bound : bindings.contains parameter = true) {read : Variable} :
    (region.value bindings read).asPrevious (bindVariable bindings read) = ⟨parameter, 0⟩ ↔
      (∃ argument, Takes bindings read argument ∧
        argument.asPrevious (bindVariable bindings read) = ⟨parameter, 0⟩) ∨
      FallsBack bindings start.versions before read parameter := by
  rcases reached.value_cases bound read with
    ⟨argument, takes, becomes⟩ | ⟨none, other, becomes, falls⟩
  · rw [becomes]
    constructor
    · intro same
      exact .inl ⟨argument, takes, same⟩
    · rintro (⟨other, taken, same⟩ | ⟨later, _⟩)
      · rwa [takes.unique taken]
      · exact absurd takes.1 later
  · rw [becomes, Value.asPrevious, falls]
    constructor
    · exact .inr
    · rintro (⟨argument, takes, _⟩ | fallen)
      · exact absurd takes (none argument)
      · exact fallen

end Region.Reached

/-- An instruction of a body and what is written for it behind the code `before`. The reads of a
bound parameter on entry are exactly those that an argument brings along, those of a previous
value that an argument could not replace, and those that fall back to it. -/
structure Binds (bindings : Table Value) (versions : Versions) (before : List Instruction)
    (old written : Instruction) : Prop where
  operand : ∀ parameter argument, bindings.get? parameter = some argument → ∀ index path,
    old.operandAt index path = some (.var ⟨parameter, 0⟩) →
      written.operandAt index path = some argument
  previous : ∀ parameter argument, bindings.get? parameter = some argument →
    old.previous? = some ⟨parameter, 0⟩ →
      written.previous? = some (argument.asPrevious ⟨parameter, 0⟩)
  operand_iff : ∀ parameter, bindings.contains parameter = true → ∀ index path,
    written.operandAt index path = some (.var ⟨parameter, 0⟩) ↔
      (∃ front back read argument, path = front ++ back ∧
        old.operandAt index front = some (.var read) ∧ Takes bindings read argument ∧
        argument.place back = some (.var ⟨parameter, 0⟩)) ∨
      ∃ read, old.operandAt index path = some (.var read) ∧
        FallsBack bindings versions before read parameter
  previous_iff : ∀ parameter, bindings.contains parameter = true →
    (written.previous? = some ⟨parameter, 0⟩ ↔ ∃ read, old.previous? = some read ∧
      ((∃ argument, Takes bindings read argument ∧
          argument.asPrevious (bindVariable bindings read) = ⟨parameter, 0⟩) ∨
        FallsBack bindings versions before read parameter))
  uses_iff : old.isPhi = false → ∀ read, read ∈ written.uses ↔
    written.previous? = some read ∨ ∃ index path, written.operandAt index path = some (.var read)

theorem Region.operandAt_write {bindings : Table Value} {region : Region} {old : Instruction}
    {index : Nat} {path : List Nat} {target : Variable} :
    (region.write bindings old).1.operandAt index path = some (.var target) ↔
      ∃ front back read, path = front ++ back ∧ old.operandAt index front = some (.var read) ∧
        (region.value bindings read).place back = some (.var target) := by
  rw [Instruction.operandAt, operands_write, List.getElem?_map]
  unfold Instruction.operandAt
  cases old.operands[index]? with
  | none => simp
  | some operand => exact Value.place_substitute_eq_var

theorem Region.isPhi_write (bindings : Table Value) (region : Region) (old : Instruction) :
    (region.write bindings old).1.isPhi = old.isPhi := by
  cases old <;> rfl

theorem Region.Reached.binds {start : Walk} {before : List Instruction} {region : Region}
    (reached : region.Reached start before) (bindings : Table Value) (old : Instruction) :
    Binds bindings start.versions before old (region.write bindings old).1 where
  operand parameter argument bound index path found := by
    unfold Instruction.operandAt at found ⊢
    obtain ⟨operand, stands, there⟩ := Option.bind_eq_some_iff.mp found
    rw [operands_write, List.getElem?_map, stands, Option.map_some, Option.bind_some,
      Value.place_substitute there, Value.substitute, Option.getD_some, value_of_bound bound]
  previous parameter argument bound found := by
    rw [previous?_write, found, Option.map_some, value_of_bound bound,
      bindVariable_of_bound bound]
  operand_iff parameter bound index path := by
    simp only [operandAt_write, reached.place_value_iff bound]
    constructor
    · rintro ⟨front, back, read, rfl, stands, ⟨argument, takes, inside⟩ | ⟨rfl, fallen⟩⟩
      · exact .inl ⟨front, back, read, argument, rfl, stands, takes, inside⟩
      · exact .inr ⟨read, by rwa [List.append_nil], fallen⟩
    · rintro (⟨front, back, read, argument, rfl, stands, takes, inside⟩ | ⟨read, stands, fallen⟩)
      · exact ⟨front, back, read, rfl, stands, .inl ⟨argument, takes, inside⟩⟩
      · exact ⟨path, [], read, (List.append_nil path).symm, stands, .inr ⟨rfl, fallen⟩⟩
  previous_iff parameter bound := by
    simp only [previous?_write, Option.map_eq_some_iff, reached.asPrevious_value_iff bound]
  uses_iff noPhi := Instruction.mem_uses_iff ((isPhi_write bindings region old).trans noPhi)

section Steps

variable {expand : String → List Value → Walk → Expansion}
  (defines : ∀ target arguments walk, Walk.Defines walk
    ((expand target arguments walk).instructions.flatMap Instruction.defs)
    (expand target arguments walk).walk) (bindings : Table Value)

include defines

theorem spliceBody_steps {start : Walk} {code : List Instruction} {region : Region}
    (reached : region.Reached start code) (body : List Instruction) :
    ∃ steps : List Passed, steps.map Passed.old = body ∧
      steps.flatMap Passed.code = (spliceBody bindings expand region body).instructions ∧
      ∀ before step after, steps = before ++ step :: after →
        Binds bindings start.versions (code ++ before.flatMap Passed.code) step.old step.written ∧
        ∃ walk, step.spliced = (expandAfter expand step.written walk).instructions := by
  induction body generalizing code region with
  | nil => exact ⟨[], rfl, rfl, by simp⟩
  | cons first rest ih =>
    let written := region.write bindings first
    let inner := expandAfter expand written.1 written.2.walk
    obtain ⟨steps, olds, all, each⟩ := ih (reached.write defines bindings first)
    refine ⟨⟨first, written.1, inner.instructions⟩ :: steps, ?_, ?_, ?_⟩
    · rw [List.map_cons, olds]
    · rw [List.flatMap_cons, all, spliceBody_cons]
      rfl
    · intro before step after split
      cases before with
      | nil =>
        obtain ⟨rfl, rfl⟩ := List.cons.inj split
        rw [List.flatMap_nil, List.append_nil]
        exact ⟨reached.binds bindings first, written.2.walk, rfl⟩
      | cons head before =>
        obtain ⟨rfl, tail⟩ := List.cons.inj split
        have later := each before step after tail
        rwa [List.append_assoc] at later

end Steps

theorem keys_zip_sublist {α β : Type} : ∀ (keys : List α) (values : List β),
    ((keys.zip values).map (·.1)).Sublist keys
  | [], _ => by simp
  | _ :: _, [] => by simp
  | key :: keys, _ :: values => (keys_zip_sublist keys values).cons_cons key

/-- The arguments of a call are bound to the parameters of the function it goes to, and each
instruction of its body is put in with them; what is put in after it is the expansion of a call in
it. -/
theorem splice_binds {templates : Table Template} {target : String} {template : Template}
    (found : templates.get? target = some template) {stack : List String}
    (outside : target ∉ stack) (depth : Nat) (arguments : List Value) (walk : Walk) :
    let bindings := template.bindings arguments
    (template.parameters.Nodup → ∀ parameter argument, bindings.get? parameter = some argument ↔
        (parameter, argument) ∈ template.parameters.zip arguments) ∧
      ∃ steps : List Passed, steps.map Passed.old = template.body ∧
        steps.flatMap Passed.code =
          (splice templates (depth + 1) stack target arguments walk).instructions ∧
        ∀ before step after, steps = before ++ step :: after →
          Binds bindings walk.versions (before.flatMap Passed.code) step.old step.written ∧
          ∃ inner, step.spliced =
            (expandAfter (splice templates depth (target :: stack)) step.written
              inner).instructions := by
  intro bindings
  constructor
  · intro distinct parameter argument
    apply Table.get?_ofList_iff_mem
    exact distinct.sublist (keys_zip_sublist _ _)
  · have reached : Region.Reached walk [] ⟨walk, []⟩ :=
      ⟨.nil walk, by simp [Renamed, lookupVariable]⟩
    obtain ⟨steps, olds, code, each⟩ := spliceBody_steps
      (splice_defines templates depth (target :: stack)) bindings reached template.body
    refine ⟨steps, olds, ?_, each⟩
    have apart : stack.contains target = false := by simpa using outside
    rw [code, splice, apart, found]
    rfl

/-- With `function f(a, b) { x = a - b; }` the call `f(b, a)` gives `x = b - a`. -/
theorem swapped_arguments_bind :
    let difference : Value := .binary "-" (.var ⟨"a", 0⟩) (.var ⟨"b", 0⟩)
    let template : Template := ⟨["a", "b"], [.assign { target := ⟨"x", 1⟩, value := difference }]⟩
    let templates := Table.ofList [("f", template)]
    let arguments : List Value := [.var ⟨"b", 0⟩, .var ⟨"a", 0⟩]
    templates.get? "f" = some template ∧ "f" ∉ ["g"] ∧
      ∃ written ∈ (splice templates 1 ["g"] "f" arguments {}).instructions,
        written.operandAt 0 [0] = some (.var ⟨"b", 0⟩) ∧
        written.operandAt 0 [1] = some (.var ⟨"a", 0⟩) := by
  intro difference template templates arguments
  have found : templates.get? "f" = some template := rfl
  have outside : "f" ∉ ["g"] := by decide
  obtain ⟨_, steps, olds, code, each⟩ := splice_binds found outside 0 arguments {}
  refine ⟨found, outside, ?_⟩
  obtain ⟨step, rfl, old⟩ := List.map_eq_singleton_iff.mp olds
  obtain ⟨binds, _⟩ := each [] step [] rfl
  refine ⟨step.written, by rw [← code]; simp [Passed.code], ?_, ?_⟩
  · exact binds.operand "a" _ rfl 0 [0] (by rw [old]; rfl)
  · exact binds.operand "b" _ rfl 0 [1] (by rw [old]; rfl)

open Snippet in
/-- With `function f(p) { p += 1; }` the call `f(5)` still reads `p`, and so does `f(n)` with
`function f(p) { while (p > 0) { p = p - 1; } }`, in the condition only. -/
theorem compound_reads_parameter :
    let spliced := fun (body : List Statement) (argument : Value) =>
      let template := Template.ofBlocks ["p"] (Body.build {} body).blocks
      (splice (Table.ofList [("f", template)]) 1 ["g"] "f" [argument] {}).instructions
    let adds := .expression (.assign "+=" (named "p") one)
    let loop := .whileLoop (.binary ">" (named "p") (.literal { value := some "0" }))
      [sets (named "p") (.binary "-" (named "p") one)] []
    (spliced [adds] (.literal "5")).map Instruction.uses = [[⟨"p", 0⟩]] ∧
      (spliced [loop] (.var ⟨"n", 0⟩)).map Instruction.uses = [[⟨"p", 0⟩], [⟨"n", 0⟩]] := by
  decide +kernel

end Reentrancy
