import Reentrancy.Proofs.Lowering.Actions

/-! Lowering as a run of a small machine. Its stages hold the version tables and the
variables at hand as operands; a step reads a name, emits an instruction that defines
nothing, or emits an assignment or a call together with the versions that it defines.
Statements about all instructions that lowering can emit are proved over runs, and lowering a
statement is a run that takes the actions of its tree. -/
namespace Reentrancy.Lower

structure Stage where
  versions : Versions
  operands : List Variable

inductive Step : Stage → Emission → Stage → Prop where
  | read (stage : Stage) (name : String) :
      Step stage {} { stage with operands := stage.versions.read name :: stage.operands }
  | plain (stage : Stage) (instruction : Instruction) (definesNothing : instruction.defs = [])
      (atHand : instruction.uses ⊆ stage.operands) :
      Step stage { instructions := [instruction] } stage
  | assign (stage : Stage) (names : List String) (assignment : Assignment)
      (defined : assignment.target :: assignment.implied =
        (defineAll names stage.versions).value)
      (atHand : (Instruction.assign assignment).uses ⊆ stage.operands) :
      Step stage { instructions := [.assign assignment], defined := names }
        ⟨(defineAll names stage.versions).versions, assignment.target :: stage.operands⟩
  | call (stage : Stage) (operation : CallOperation)
      (defined : operation.result = stage.versions.nextResult.1)
      (atHand : operation.reads ⊆ stage.operands) :
      Step stage
        { instructions := [.call operation], sites := [operation.site],
          defined := [operation.result.name] }
        ⟨stage.versions.nextResult.2, operation.result :: stage.operands⟩

inductive Run : Stage → Emission → Stage → Prop where
  | nil (stage : Stage) : Run stage {} stage
  | cons {first second third : Stage} {here later : Emission} (step : Step first here second)
      (rest : Run second later third) : Run first (here.append later) third

namespace Run

theorem single {first second : Stage} {emission : Emission} (step : Step first emission second) :
    Run first emission second := by
  have run := Run.cons step (Run.nil second)
  rwa [Emission.append_empty] at run

theorem append {first second third : Stage} {here later : Emission} (run : Run first here second)
    (rest : Run second later third) : Run first (here.append later) third := by
  induction run with
  | nil => rwa [Emission.empty_append]
  | cons step _ ih =>
    rw [Emission.append_assoc]
    exact .cons step (ih rest)

end Run

variable {α β : Type}

/-- From a stage with the variables `needed` at hand the step is a run, and what its value
reads is at hand after it. -/
def Runs (needed : List Variable) (step : Lower α) (reads : α → List Variable) : Prop :=
  ∀ versions operands, needed ⊆ operands → ∃ left, operands ⊆ left ∧
    reads (step versions).value ⊆ left ∧
    Run ⟨versions, operands⟩ (step versions).emission ⟨(step versions).versions, left⟩

/-- A run that takes the given actions. They decide its versions and its definitions, and nothing
else comes to hand. -/
structure Acts (actions : List Action) (first : Stage) (emission : Emission) (second : Stage) :
    Prop where
  run : Run first emission second
  versions : second.versions = Action.applyAll actions first.versions
  operands : second.operands ⊆ Action.along Action.gets actions first.versions ++ first.operands
  marks : emission.instructions.flatMap Instruction.marks =
    Action.along Action.marks actions first.versions

namespace Acts

theorem nil (stage : Stage) : Acts [] stage {} stage :=
  ⟨.nil stage, rfl, fun _ member => member, rfl⟩

theorem append {first second third : Stage} {here later : Emission} {before after : List Action}
    (run : Acts before first here second) (rest : Acts after second later third) :
    Acts (before ++ after) first (here.append later) third := by
  refine ⟨run.run.append rest.run, ?_, ?_, ?_⟩
  · rw [Action.applyAll_append, ← run.versions, rest.versions]
  · intro found member
    rw [Action.along_append, ← run.versions]
    have last := rest.operands member
    have middle := @run.operands found
    grind
  · rw [Action.along_append, ← run.versions, ← run.marks, ← rest.marks]
    exact List.flatMap_append

theorem look (name : String) (stage : Stage) :
    Acts [.look name] stage {}
      { stage with operands := stage.versions.read name :: stage.operands } :=
  ⟨.single (.read stage name), rfl, fun _ member => member, rfl⟩

theorem plain {instruction : Instruction} (definesNothing : instruction.defs = [])
    {stage : Stage} (atHand : instruction.uses ⊆ stage.operands) :
    Acts [] stage { instructions := [instruction] } stage := by
  refine ⟨.single (.plain stage instruction definesNothing atHand), rfl, fun _ member => member, ?_⟩
  cases instruction <;> simp_all [Instruction.defs, Instruction.marks, Action.along]

theorem assign {names : List String} (assignment : Assignment) {stage : Stage}
    (defined : assignment.target :: assignment.implied = (defineAll names stage.versions).value)
    (atHand : (Instruction.assign assignment).uses ⊆ stage.operands) :
    Acts [.define names] stage { instructions := [.assign assignment], defined := names }
      ⟨(defineAll names stage.versions).versions, assignment.target :: stage.operands⟩ := by
  refine ⟨.single (.assign stage names assignment defined atHand), rfl, ?_, ?_⟩
  · have written : assignment.target ∈ (defineAll names stage.versions).value := by simp [← defined]
    intro found member
    simp only [Action.along, Action.gets]
    grind
  · simp [Instruction.marks, Action.along, Action.marks, ← defined]

theorem call (operation : CallOperation) {stage : Stage}
    (defined : operation.result = stage.versions.nextResult.1)
    (atHand : operation.reads ⊆ stage.operands) :
    Acts [.result] stage
      { instructions := [.call operation], sites := [operation.site],
        defined := [operation.result.name] }
      ⟨stage.versions.nextResult.2, operation.result :: stage.operands⟩ := by
  refine ⟨.single (.call stage operation defined atHand), rfl, ?_, ?_⟩
  · rw [defined]
    exact fun _ member => member
  · simp [Instruction.marks, Action.along, Action.marks, ← defined]

end Acts

/-- From a stage with the variables `needed` at hand the step takes the given actions, and what
its value reads is at hand after them. -/
def Follows (needed : List Variable) (step : Lower α) (actions : List Action)
    (reads : α → List Variable) : Prop :=
  ∀ versions operands, needed ⊆ operands → ∃ left, operands ⊆ left ∧
    reads (step versions).value ⊆ left ∧
    Acts actions ⟨versions, operands⟩ (step versions).emission ⟨(step versions).versions, left⟩

namespace Follows

theorem runs {needed : List Variable} {step : Lower α} {actions : List Action}
    {reads : α → List Variable} (follows : Follows needed step actions reads) :
    Runs needed step reads := by
  intro versions operands atHand
  obtain ⟨left, kept, known, taken⟩ := follows versions operands atHand
  exact ⟨left, kept, known, taken.run⟩

theorem pure {needed : List Variable} {reads : α → List Variable} {value : α}
    (inside : reads value ⊆ needed) : Follows needed (Pure.pure value) [] reads := by
  intro versions operands atHand
  exact ⟨operands, fun _ member => member, fun _ member => atHand (inside member), .nil _⟩

theorem bind {needed : List Variable} {first : Lower α} {next : α → Lower β}
    {before after : List Action} {middle : α → List Variable} {reads : β → List Variable}
    (run : Follows needed first before middle)
    (rest : ∀ value, Follows (middle value ++ needed) (next value) after reads) :
    Follows needed (first >>= next) (before ++ after) reads := by
  intro versions operands atHand
  obtain ⟨between, kept, known, left⟩ := run versions operands atHand
  have ready : middle (first versions).value ++ needed ⊆ between := by
    intro found member
    rcases List.mem_append.mp member with here | before
    · exact known here
    · exact kept (atHand before)
  obtain ⟨reached, keptAfter, knownAfter, right⟩ := rest _ (first versions).versions between ready
  exact ⟨reached, fun _ member => keptAfter (kept member), knownAfter, left.append right⟩

theorem ends {needed : List Variable} {first : Lower α} {next : α → Lower β}
    {actions : List Action} {middle : α → List Variable} {reads : β → List Variable}
    (run : Follows needed first actions middle)
    (rest : ∀ value, Follows (middle value ++ needed) (next value) [] reads) :
    Follows needed (first >>= next) actions reads := by
  have whole := run.bind rest
  rwa [List.append_nil] at whole

end Follows

variable {needed : List Variable}

theorem use_follows (name : String) :
    Follows needed (use name) [.look name] fun read => [read] := by
  intro versions operands _
  refine ⟨versions.read name :: operands, fun _ member => List.mem_cons_of_mem _ member, ?_, ?_⟩
  · simp [use]
  · exact .look name ⟨versions, operands⟩

theorem emit_follows {instruction : Instruction} (definesNothing : instruction.defs = [])
    (inside : instruction.uses ⊆ needed) :
    Follows needed (emit instruction) [] fun _ => [] := by
  intro versions operands atHand
  refine ⟨operands, fun _ member => member, by simp, ?_⟩
  exact .plain definesNothing fun _ member => atHand (inside member)

theorem defineAll_emission (names : List String) (versions : Versions) :
    (defineAll names versions).emission = { defined := names } := by
  induction names generalizing versions with
  | nil => rfl
  | cons name rest ih => simp [defineAll, define, ih, Emission.append]

theorem defineAll_cons (name : String) (rest : List String) (versions : Versions) :
    defineAll (name :: rest) versions =
      ⟨(versions.define name).1 :: (defineAll rest (versions.define name).2).value,
        { defined := name :: rest }, (defineAll rest (versions.define name).2).versions⟩ := by
  simp [defineAll, define, defineAll_emission, Emission.append]

theorem calls_defineAll (names : List String) (versions : Versions) :
    (defineAll names versions).versions.calls = versions.calls := by
  induction names generalizing versions with
  | nil => rfl
  | cons first rest ih =>
    rw [defineAll_cons]
    exact ih (versions.define first).2

def storeAssignment (target : Expression) (operator : String) (value : Value)
    (versions : Versions) : Assignment :=
  let implied := (defineAll target.path.dropLast (versions.define target.locationName).2).value
  if operator = "" then { target := (versions.define target.locationName).1, implied, value }
  else { target := (versions.define target.locationName).1, implied,
         previous := some (versions.read target.locationName), operator := some operator, value }

theorem store_apply (target : Expression) (operator : String) (value : Value)
    (versions : Versions) :
    store target operator value versions =
      ⟨(versions.define target.locationName).1,
        { instructions := [.assign (storeAssignment target operator value versions)],
          defined := target.locationName :: target.path.dropLast },
        (defineAll (target.locationName :: target.path.dropLast) versions).versions⟩ := by
  rw [defineAll_cons]
  simp [store, use, define, emit, defineAll_emission, Emission.append, storeAssignment]

theorem storeAssignment_defines (target : Expression) (operator : String) (value : Value)
    (versions : Versions) :
    (storeAssignment target operator value versions).target ::
        (storeAssignment target operator value versions).implied =
      (defineAll (target.locationName :: target.path.dropLast) versions).value := by
  rw [defineAll_cons]
  unfold storeAssignment
  split <;> rfl

theorem store_follows (target : Expression) (operator : String) {value : Value}
    (inside : value.reads ⊆ needed) :
    Follows needed (store target operator value) (target.storeActions operator)
      fun written => [written] := by
  intro versions operands atHand
  have assigned : (storeAssignment target operator value versions).target =
      (versions.define target.locationName).1 := by
    unfold storeAssignment
    split <;> rfl
  have written {ready : List Variable} (atRead :
      (Instruction.assign (storeAssignment target operator value versions)).uses ⊆ ready) :
      Acts [.define (target.locationName :: target.path.dropLast)] ⟨versions, ready⟩
        (store target operator value versions).emission
        ⟨(store target operator value versions).versions,
          (versions.define target.locationName).1 :: ready⟩ := by
    rw [store_apply, ← assigned]
    exact .assign _ (storeAssignment_defines target operator value versions) atRead
  unfold Expression.storeActions
  by_cases plain : operator = ""
  · rw [if_pos plain, List.nil_append]
    refine ⟨_, fun _ member => List.mem_cons_of_mem _ member, by simp [store_apply], written ?_⟩
    intro found member
    rw [storeAssignment, if_pos plain] at member
    exact atHand (inside member)
  · rw [if_neg plain]
    have looked := Acts.look target.locationName ⟨versions, operands⟩
    refine ⟨_, ?_, by simp [store_apply], (looked.append (written ?_))⟩
    · intro found member
      exact List.mem_cons_of_mem _ (List.mem_cons_of_mem _ member)
    · intro found member
      rw [storeAssignment, if_neg plain] at member
      rcases List.mem_cons.mp member with first | later
      · exact List.mem_cons.mpr (Or.inl first)
      · exact List.mem_cons_of_mem _ (atHand (inside later))

theorem invoke_follows (callee : String) (type : CallType) {receiver : Option Value}
    {options : List (String × Value)} {arguments : List Value} (location : Location)
    (inside : CallOperation.reads
      { result := default, callee, type, receiver, options, arguments } ⊆ needed) :
    Follows needed (invoke callee type receiver options arguments location) [.result]
      fun result => [result] := by
  intro versions operands atHand
  let operation : CallOperation :=
    { result := versions.nextResult.1, callee, type, receiver, options, arguments, location }
  have called : Acts [.result] ⟨versions, operands⟩ _ _ :=
    .call operation rfl fun _ member => atHand (inside member)
  refine ⟨versions.nextResult.1 :: operands, ?_, by simp [invoke, nextResult, note, emit], called⟩
  exact fun _ member => List.mem_cons_of_mem _ member

theorem bindNames_follows {part : Nat → Value} (inside : ∀ index, (part index).reads ⊆ needed)
    (names : List String) (index : Nat) :
    Follows needed (bindNames part index names) (bindActions names) fun _ => [] := by
  induction names generalizing index with
  | nil => exact .pure (by simp)
  | cons name rest ih =>
    have bound : Follows needed
        (define name >>= fun target => emit (.assign { target, value := part index }))
        [.define [name]] fun _ => [] := by
      intro versions operands atHand
      have written : Acts [.define [name]] ⟨versions, operands⟩ _ _ :=
        .assign { target := (versions.define name).1, value := part index } rfl
          fun _ member => atHand (inside index member)
      exact ⟨(versions.define name).1 :: operands, fun _ member => List.mem_cons_of_mem _ member,
        by simp, written⟩
    have later (value : Unit) : Follows ([] ++ needed) (bindNames part (index + 1) rest)
        (bindActions rest) fun _ => [] := ih (index + 1)
    rw [bindNames]
    split
    next filled =>
      have listed : bindActions (name :: rest) = [.define [name]] ++ bindActions rest := by
        simp [bindActions, filled]
      rw [listed]
      exact bound.bind later
    next empty =>
      have passed : bindActions (name :: rest) = bindActions rest := by
        simp [bindActions, Classical.not_not.mp empty]
      rw [passed]
      exact ih (index + 1)

end Reentrancy.Lower

namespace Reentrancy

theorem Value.listReads_eq_flatMap (values : List Value) :
    listReads values = values.flatMap reads := by
  induction values with
  | nil => rfl
  | cons first rest ih => simp [listReads, ih]

theorem Value.component_reads (count : Nat) (value : Option Value) (index : Nat) :
    (component count value index).reads ⊆ (value.map reads).getD [] := by
  unfold component
  split
  next items =>
    split
    · intro found member
      cases inside : items[index]? with
      | none => simp [inside, reads] at member
      | some item =>
        have taken : found ∈ item.reads := by simpa [inside] using member
        simpa [reads, listReads_eq_flatMap] using ⟨item, List.mem_of_getElem? inside, taken⟩
    · simp
  next => simp
  next => simp [reads]

namespace Expression

open Lower

variable (scope : Scope)

theorem actions_of_isMissing {expression : Expression} (missing : expression.isMissing = true) :
    expression.actions = [] := by
  cases expression <;> first | rfl | cases missing

theorem unlessMissing_follows {needed : List Variable} {expression : Expression} (text : String)
    (present : Follows needed (expression.lower scope) expression.actions Value.reads) :
    Follows needed
      (if expression.isMissing then Pure.pure (.literal text) else expression.lower scope)
      expression.actions Value.reads := by
  split
  next missing =>
    rw [actions_of_isMissing missing]
    exact .pure (by simp [Value.reads])
  next => exact present

mutual

theorem lower_follows (needed : List Variable) :
    ∀ expression : Expression,
      Follows needed (expression.lower scope) expression.actions Value.reads
  | missing => .pure (by simp [Value.reads])
  | identifier name _ => (use_follows name).ends fun read => .pure (by simp [Value.reads])
  | literal _ => .pure (by simp [Value.reads])
  | member base type name => by
    rw [lower, actions]
    split
    · refine (lowerKeys_follows needed base).bind fun _ => ?_
      exact (use_follows _).ends fun read => .pure (by simp [Value.reads])
    · exact (lower_follows needed base).ends fun _ => .pure (by simp [Value.reads])
  | index base key lowest highest => by
    rw [lower, actions]
    split
    · refine (lower_follows needed key).bind fun _ => ?_
      refine (lowerKeys_follows _ base).bind fun _ => ?_
      exact (use_follows _).ends fun read => .pure (by simp [Value.reads])
    · refine (lower_follows needed base).bind fun _ => ?_
      refine (lower_follows _ key).bind fun _ => ?_
      refine (lower_follows _ lowest).bind fun _ => ?_
      exact (lower_follows _ highest).ends fun _ => .pure (by simp [Value.reads])
  | slice base key lowest highest => by
    rw [lower]
    refine (lower_follows needed base).bind fun _ => ?_
    refine (lower_follows _ key).bind fun _ => ?_
    refine (lower_follows _ lowest).bind fun _ => ?_
    exact (lower_follows _ highest).ends fun _ => .pure (by simp [Value.reads])
  | binary operator left right => by
    rw [lower]
    refine (lower_follows needed left).bind fun first => ?_
    refine (lower_follows _ right).ends fun second => ?_
    exact .pure (by grind [Value.reads])
  | unary operator leading operand => by
    rw [lower, actions]
    split
    · exact .pure (by simp [Value.reads])
    · split
      · refine (use_follows _).bind fun before => ?_
        refine (lowerKeys_follows _ operand).bind fun _ => ?_
        refine (store_follows operand _ (by simp [Value.reads])).ends fun after => ?_
        exact .pure (by cases leading <;> simp [Value.reads])
      · split
        · refine (lowerKeys_follows needed operand).bind fun _ => ?_
          refine (store_follows operand _ (by simp [Value.reads])).ends fun _ => ?_
          exact .pure (by simp [Value.reads])
        · exact (lower_follows needed operand).ends fun inner => .pure (by simp [Value.reads])
  | assign operator target value => by
    have valued := unlessMissing_follows scope "0" (lower_follows needed value)
    rw [lower, ite_then, actions.eq_def]
    dsimp only
    refine valued.bind fun stored => ?_
    split
    next => exact .pure (by simp)
    next components =>
      have parts (index : Nat) :
          (Value.component components.length (some stored) index).reads ⊆ stored.reads ++ needed :=
        fun _ member => List.mem_append_left _ (Value.component_reads _ _ _ member)
      refine (storeComponents_follows _ parts 0 components).ends fun written => ?_
      exact .pure (by simp [Value.reads, Value.listReads_eq_flatMap])
    next absent single =>
      have stores : Follows (stored.reads ++ needed)
          (do lowerKeys scope target; return .var (← store target (stepOperator operator) stored))
          (target.keyActions ++ target.storeActions (stepOperator operator)) Value.reads := by
        refine (lowerKeys_follows _ target).bind fun _ => ?_
        refine (store_follows target _ (by simp)).ends fun written => ?_
        exact .pure (by simp [Value.reads])
      cases target with
      | missing => exact absurd rfl absent
      | tuple => exact absurd rfl (single _ _)
      | _ => exact stores
  | conditional condition yes no => by
    rw [lower]
    refine (lower_follows needed condition).bind fun test => ?_
    refine (lower_follows _ yes).bind fun first => ?_
    refine (lower_follows _ no).ends fun second => ?_
    exact .pure (by grind [Value.reads])
  | tuple isArray components => by
    rw [lower]
    refine (lowerComponents_follows needed components).ends fun items => ?_
    split
    · split <;> exact .pure (by simp [Value.reads, Value.listReads_eq_flatMap])
    · exact .pure (by simp [Value.reads, Value.listReads_eq_flatMap])
  | call form callee arguments _ location => by
    rw [lower, actions]
    split
    · refine (lowerList_follows needed arguments).ends fun values => ?_
      exact .pure (by simp [Value.reads, Value.listReads_eq_flatMap])
    · refine (lowerReceiver_follows needed callee).bind fun receiver => ?_
      refine (lowerOptions_follows _ callee).bind fun options => ?_
      refine (lowerList_follows _ arguments).bind fun values => ?_
      refine (invoke_follows _ _ location ?_).ends fun result => .pure (by simp [Value.reads])
      grind [CallOperation.reads]
  | options callee labels values => .pure (by simp [Value.reads])
  | typeName _ => .pure (by simp [Value.reads])
  | new _ => .pure (by simp [Value.reads])
  | other _ => .pure (by simp [Value.reads])
termination_by expression => sizeOf expression

theorem lowerList_follows (needed : List Variable) :
    ∀ expressions : List Expression,
      Follows needed (lowerList scope expressions) (listActions expressions)
        fun values => values.flatMap Value.reads
  | [] => .pure (by simp)
  | first :: rest => by
    rw [lowerList]
    refine (lower_follows needed first).bind fun value => ?_
    refine (lowerList_follows _ rest).ends fun others => ?_
    exact .pure (by grind)
termination_by expressions => sizeOf expressions

theorem lowerComponents_follows (needed : List Variable) :
    ∀ components : List Expression,
      Follows needed (lowerComponents scope components) (listActions components)
        fun values => values.flatMap Value.reads
  | [] => .pure (by simp)
  | first :: rest => by
    have taken := unlessMissing_follows scope "" (lower_follows needed first)
    rw [lowerComponents, ite_then]
    refine taken.bind fun value => ?_
    refine (lowerComponents_follows _ rest).ends fun others => ?_
    exact .pure (by grind)
termination_by components => sizeOf components

theorem lowerKeys_follows (needed : List Variable) :
    ∀ expression : Expression,
      Follows needed (lowerKeys scope expression) expression.keyActions fun _ => []
  | index base key _ _ => by
    rw [lowerKeys]
    exact (lower_follows needed key).bind fun _ => lowerKeys_follows _ base
  | member base _ _ => by
    rw [lowerKeys]
    exact lowerKeys_follows needed base
  | missing | identifier .. | literal .. | slice .. | binary .. | unary .. | assign ..
  | conditional .. | tuple .. | call .. | options .. | typeName .. | new .. | other .. =>
    .pure (by simp)
termination_by expression => sizeOf expression

theorem storeComponents_follows (needed : List Variable) {part : Nat → Value}
    (inside : ∀ index, (part index).reads ⊆ needed) (index : Nat) :
    ∀ components : List Expression,
      Follows needed (storeComponents scope part index components) (targetActions components)
        fun values => values.flatMap Value.reads
  | [] => .pure (by simp)
  | first :: rest => by
    rw [storeComponents, targetActions]
    split
    · exact storeComponents_follows needed inside (index + 1) rest
    · refine (lowerKeys_follows needed first).bind fun _ => ?_
      refine (store_follows first _ (inside index)).bind fun target => ?_
      have later (next : Nat) : (part next).reads ⊆ [target] ++ ([] ++ needed) :=
        fun _ member => List.mem_cons_of_mem _ (inside next member)
      refine (storeComponents_follows _ later (index + 1) rest).ends fun others => ?_
      exact .pure (by grind [Value.reads])
termination_by components => sizeOf components

theorem lowerReceiver_follows (needed : List Variable) :
    ∀ callee : Expression, Follows needed (lowerReceiver scope callee) callee.receiverActions
      fun receiver => (receiver.map Value.reads).getD []
  | options callee _ _ => by
    rw [lowerReceiver]
    exact lowerReceiver_follows needed callee
  | member base _ _ => by
    rw [lowerReceiver, receiverActions]
    split
    · exact .pure (by simp)
    · exact (lower_follows needed base).ends fun value => .pure (by simp)
  | missing | identifier .. | literal .. | index .. | slice .. | binary .. | unary .. | assign ..
  | conditional .. | tuple .. | call .. | typeName .. | new .. | other .. => .pure (by simp)
termination_by callee => sizeOf callee

theorem lowerOptions_follows (needed : List Variable) :
    ∀ callee : Expression, Follows needed (lowerOptions scope callee) callee.optionActions
      fun options => options.flatMap fun option => option.2.reads
  | options callee labels values => by
    rw [lowerOptions]
    refine (lowerLabelled_follows needed labels values).bind fun here => ?_
    refine (lowerOptions_follows _ callee).ends fun inner => ?_
    exact .pure (by grind)
  | missing | identifier .. | literal .. | member .. | index .. | slice .. | binary .. | unary ..
  | assign .. | conditional .. | tuple .. | call .. | typeName .. | new .. | other .. =>
    .pure (by simp)
termination_by callee => sizeOf callee

theorem lowerLabelled_follows (needed : List Variable) :
    ∀ (labels : List (Option String)) (values : List Expression),
      Follows needed (lowerLabelled scope labels values) (labelledActions labels values)
        fun options => options.flatMap fun option => option.2.reads
  | label :: labels, first :: rest => by
    rw [lowerLabelled]
    refine (lower_follows needed first).bind fun value => ?_
    refine (lowerLabelled_follows _ labels rest).ends fun others => ?_
    exact .pure (by grind)
  | [], [] | [], _ :: _ | _ :: _, [] => .pure (by simp)
termination_by _ values => sizeOf values

end

theorem lowerCondition_follows (needed : List Variable) (condition : Expression) :
    Follows needed (condition.lowerCondition scope) condition.actions fun _ => [] := by
  have tested := unlessMissing_follows scope "true" (lower_follows scope needed condition)
  rw [lowerCondition, ite_then]
  exact tested.ends fun value => emit_follows rfl (by simp [Instruction.uses])

theorem lowerOptional_follows (needed : List Variable) (expression : Expression) :
    Follows needed
      (if expression.isMissing then Pure.pure none else some <$> expression.lower scope)
      expression.actions fun value => (value.map Value.reads).getD [] := by
  split
  next missing =>
    rw [actions_of_isMissing missing]
    exact .pure (by simp)
  next =>
    rw [map_eq_pure_bind]
    exact (lower_follows scope needed expression).ends fun value => .pure (by simp)

end Expression

namespace Statement

open Lower

variable (scope : Scope)

mutual

theorem lower_follows (needed : List Variable) :
    ∀ statement : Statement,
      Follows needed (statement.lower scope) statement.actions fun _ => []
  | expression value => by
    rw [lower, actions]
    split
    next missing =>
      rw [Expression.actions_of_isMissing missing]
      exact .pure (by simp)
    next =>
      split
      · exact (value.lower_follows scope needed).ends fun _ => .pure (by simp)
      · refine (value.lower_follows scope needed).ends fun lowered => ?_
        exact emit_follows rfl (by simp [Instruction.uses])
  | declare targets value => by
    rw [lower, ite_then]
    refine (value.lowerOptional_follows scope needed).bind fun initial => ?_
    exact bindNames_follows (fun index _ member =>
      List.mem_append_left _ (Value.component_reads _ _ _ member)) _ 0
  | emit none => .pure (by simp)
  | emit (some event) => by
    rw [lower]
    refine (Expression.lowerList_follows scope needed event.arguments).ends fun arguments => ?_
    exact emit_follows rfl (by simp [Instruction.uses])
  | revert none => .pure (by simp)
  | revert (some error) => by
    rw [lower]
    refine (Expression.lowerList_follows scope needed error.arguments).bind fun arguments => ?_
    exact (invoke_follows _ _ _ (by simp [CallOperation.reads])).ends fun _ => .pure (by simp)
  | ret value => by
    rw [lower, actions]
    split
    next missing =>
      rw [Expression.actions_of_isMissing missing]
      exact emit_follows rfl (by simp [Instruction.uses])
    next =>
      refine (value.lower_follows scope needed).ends fun lowered => ?_
      split
      · exact emit_follows rfl
          (by simp [Instruction.uses, Value.reads, Value.listReads_eq_flatMap])
      · exact emit_follows rfl (by simp [Instruction.uses])
  | branch condition yes no => by
    rw [lower]
    refine (condition.lowerCondition_follows scope needed).bind fun _ => ?_
    exact (lowerBody_follows _ yes).bind fun _ => lowerBody_follows _ no
  | forLoop start condition step body _ => by
    rw [lower]
    refine (lowerBody_follows needed start).bind fun _ => ?_
    refine (condition.lowerCondition_follows scope _).bind fun _ => ?_
    exact (lowerBody_follows _ body).bind fun _ => lowerBody_follows _ step
  | whileLoop condition body _ => by
    rw [lower]
    exact (condition.lowerCondition_follows scope needed).bind fun _ => lowerBody_follows _ body
  | doWhile condition body _ => by
    rw [lower]
    exact (lowerBody_follows needed body).bind fun _ => condition.lowerCondition_follows scope _
  | block body => by
    rw [lower]
    exact lowerBody_follows needed body
  | tryCall call clauses => by
    rw [lower, ite_then]
    refine (call.lowerOptional_follows scope needed).bind fun result => ?_
    exact lowerClauses_follows _ (fun count index _ member =>
      List.mem_append_left _ (Value.component_reads _ _ _ member)) clauses
  | other text => by
    rw [lower]
    split
    · exact .pure (by simp)
    · exact emit_follows rfl (by simp [Instruction.uses])

theorem lowerBody_follows (needed : List Variable) :
    ∀ body : List Statement,
      Follows needed (lowerBody scope body) (bodyActions body) fun _ => []
  | [] => .pure (by simp)
  | first :: rest => by
    rw [lowerBody]
    exact (lower_follows needed first).bind fun _ => lowerBody_follows _ rest

theorem lowerClauses_follows (needed : List Variable) {part : Nat → Nat → Value}
    (inside : ∀ count index, (part count index).reads ⊆ needed) :
    ∀ clauses : List (List String × List Statement),
      Follows needed (lowerClauses scope part clauses) (clauseActions clauses) fun _ => []
  | [] => .pure (by simp)
  | (parameters, body) :: rest => by
    rw [lowerClauses]
    refine (bindNames_follows (inside parameters.length) parameters 0).bind fun _ => ?_
    refine (lowerBody_follows _ body).bind fun _ => ?_
    exact lowerClauses_follows _ (by simp [Value.reads]) rest

end

theorem lowerHead_follows (needed : List Variable) (statement : Statement) :
    Follows needed (statement.lowerHead scope) statement.headActions fun _ => [] := by
  cases statement with
  | branch | forLoop | whileLoop => exact Expression.lowerCondition_follows scope needed _
  | expression | declare | emit | revert | ret | doWhile | block | tryCall | other =>
    exact lower_follows scope needed _

theorem lower_runs (needed : List Variable) (statement : Statement) :
    Runs needed (statement.lower scope) fun _ => [] :=
  (lower_follows scope needed statement).runs

theorem lowerBody_runs (needed : List Variable) (body : List Statement) :
    Runs needed (lowerBody scope body) fun _ => [] :=
  (lowerBody_follows scope needed body).runs

end Statement
end Reentrancy
