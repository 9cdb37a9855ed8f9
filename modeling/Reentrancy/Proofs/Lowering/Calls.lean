import Reentrancy.Proofs.Lowering.Run

/-! The calls of a statement. Lowering turns each call that it meets into one instruction and
one call site; some positions it passes over, and the calls there are skipped. -/
namespace Reentrancy

namespace Expression

variable (scope : Scope)

mutual

/-- The calls that are evaluated with an expression. Conversions and constructions are no
calls, and their type is not evaluated. -/
def calls : Expression → List CallSite
  | missing | identifier .. | literal _ | typeName _ | new _ | other _ => []
  | member base _ _ => base.calls
  | index base key lower upper => base.calls ++ key.calls ++ lower.calls ++ upper.calls
  | slice base key lower upper => base.calls ++ key.calls ++ lower.calls ++ upper.calls
  | binary _ left right => left.calls ++ right.calls
  | unary _ _ operand => operand.calls
  | assign _ target value => target.calls ++ value.calls
  | conditional condition yes no => condition.calls ++ yes.calls ++ no.calls
  | tuple _ components => callsList components
  | call form callee arguments _ location =>
    if isConversion form callee || form == .construction then callsList arguments
    else callee.calls ++ callsList arguments ++
      [⟨callee.peeled.text, scope.classify callee, location⟩]
  | options callee _ values => callee.calls ++ callsList values

def callsList : List Expression → List CallSite
  | [] => []
  | first :: rest => first.calls ++ callsList rest

end

mutual

/-- The calls of an expression that lowering passes over. -/
def skipped : Expression → List CallSite
  | missing | identifier .. | literal _ | typeName _ | new _ | other _ => []
  | member base _ _ => if base.isLocation then skippedKeys base else base.skipped
  | index base key lower upper =>
    if base.isLocation then
      key.skipped ++ skippedKeys base ++ lower.calls scope ++ upper.calls scope
    else base.skipped ++ key.skipped ++ lower.skipped ++ upper.skipped
  | slice base key lower upper =>
    base.skipped ++ key.skipped ++ lower.skipped ++ upper.skipped
  | binary _ left right => left.skipped ++ right.skipped
  | unary operator _ operand =>
    if writesOperand operator then skippedKeys operand else operand.skipped
  | assign _ target value =>
    value.skipped ++ match target with
      | tuple _ components => skippedTargets components
      | target => skippedKeys target
  | conditional condition yes no => condition.skipped ++ yes.skipped ++ no.skipped
  | tuple _ components => skippedList components
  | call form callee arguments _ _ =>
    if isConversion form callee || form == .construction then skippedList arguments
    else skippedReceiver callee ++ skippedOptions callee ++ skippedList arguments
  | options callee _ values => callee.calls scope ++ callsList scope values

def skippedList : List Expression → List CallSite
  | [] => []
  | first :: rest => first.skipped ++ skippedList rest

/-- Of a location only the keys are lowered: what it is rooted in is passed over. -/
def skippedKeys : Expression → List CallSite
  | index base key lower upper =>
    key.skipped ++ skippedKeys base ++ lower.calls scope ++ upper.calls scope
  | member base _ _ => skippedKeys base
  | root => root.calls scope

def skippedTargets : List Expression → List CallSite
  | [] => []
  | first :: rest => skippedKeys first ++ skippedTargets rest

/-- Of a callee only the receiver of a member is lowered. -/
def skippedReceiver : Expression → List CallSite
  | options callee _ _ => skippedReceiver callee
  | member base _ _ => base.skipped
  | callee => callee.calls scope

def skippedOptions : Expression → List CallSite
  | options callee labels values => skippedLabelled labels values ++ skippedOptions callee
  | _ => []

def skippedLabelled : List (Option String) → List Expression → List CallSite
  | _ :: labels, first :: rest => first.skipped ++ skippedLabelled labels rest
  | _, values => callsList scope values

end

def receiverCalls : Expression → List CallSite
  | options callee _ _ => receiverCalls callee
  | callee => callee.calls scope

def optionCalls : Expression → List CallSite
  | options callee _ values => callsList scope values ++ optionCalls callee
  | _ => []

theorem count_calls_callee (site : CallSite) (callee : Expression) :
    (callee.calls scope).count site =
      (callee.receiverCalls scope).count site + (callee.optionCalls scope).count site := by
  fun_induction optionCalls scope callee with
  | case1 callee labels values ih =>
    simp only [calls, receiverCalls, List.count_append, ih]
    omega
  | case2 callee plain =>
    unfold receiverCalls
    split
    next inner labels values => exact (plain inner labels values rfl).elim
    next => rfl

def skippedWritten : Expression → List CallSite
  | tuple _ components => skippedTargets scope components
  | target => target.skippedKeys scope

theorem skipped_assign (operator : String) (target value : Expression) :
    (assign operator target value).skipped scope =
      value.skipped scope ++ target.skippedWritten scope := by
  cases target <;> rfl

theorem skippedWritten_of_plain {target : Expression}
    (plain : ∀ isArray components, target = tuple isArray components → False) :
    target.skippedWritten scope = target.skippedKeys scope := by
  cases target with
  | tuple isArray components => exact (plain isArray components rfl).elim
  | _ => rfl

theorem eq_missing {expression : Expression} (gone : expression.isMissing = true) :
    expression = missing := by
  cases expression with
  | missing => rfl
  | _ => cases gone

theorem calls_of_namespace {base : Expression}
    (idle : (base.isMissing || base.isNamespace) = true) :
    base.calls scope = [] ∧ base.skipped scope = [] := by
  cases base with
  | missing | identifier => exact ⟨rfl, rfl⟩
  | _ => cases idle

end Expression

namespace Lower

variable {α β : Type}

/-- Each of the calls `all` is met once by the step, or is `lost`. -/
def Meets (step : Lower α) (all lost : List CallSite) : Prop :=
  ∀ versions site, all.count site =
    (step versions).emission.sites.count site + lost.count site

namespace Meets

theorem quiet {step : Lower α} (none : ∀ versions, (step versions).emission.sites = [])
    (all : List CallSite) : Meets step all all := by
  intro versions site
  rw [none, List.count_nil, Nat.zero_add]

theorem pure (value : α) (all : List CallSite) : Meets (Pure.pure value) all all :=
  quiet (fun _ => rfl) all

theorem bind {first : Lower α} {next : α → Lower β} {all more lost missed : List CallSite}
    (here : Meets first all lost) (later : ∀ value, Meets (next value) more missed) :
    Meets (first >>= next) (all ++ more) (lost ++ missed) := by
  intro versions site
  have before := here versions site
  have after := later (first versions).value (first versions).versions site
  simp only [bind_apply, Emission.append, List.count_append]
  omega

/-- What is met is what is not lost, so only the difference counts. -/
theorem balance {step : Lower α} {all lost every skipped : List CallSite}
    (meets : Meets step all lost)
    (same : ∀ site, every.count site + lost.count site = all.count site + skipped.count site) :
    Meets step every skipped := by
  intro versions site
  have met := meets versions site
  have equal := same site
  omega

end Meets

theorem use_meets (name : String) : Meets (use name) [] [] := .quiet (fun _ => rfl) []

theorem define_meets (name : String) : Meets (define name) [] [] := .quiet (fun _ => rfl) []

theorem emit_meets (instruction : Instruction) : Meets (emit instruction) [] [] :=
  .quiet (fun _ => rfl) []

theorem store_meets (target : Expression) (operator : String) (value : Value) :
    Meets (store target operator value) [] [] :=
  .quiet (fun versions => by rw [store_apply]) []

theorem bindNames_meets (part : Nat → Value) (names : List String) (index : Nat) :
    Meets (bindNames part index names) [] [] := by
  induction names generalizing index with
  | nil => exact .pure () []
  | cons name rest ih =>
    rw [bindNames]
    split
    · exact (define_meets name).bind fun _ => (emit_meets _).bind fun _ => ih (index + 1)
    · exact ih (index + 1)

theorem invoke_meets (callee : String) (type : CallType) (receiver : Option Value)
    (options : List (String × Value)) (arguments : List Value) (location : Location) :
    Meets (invoke callee type receiver options arguments location) [⟨callee, type, location⟩] [] :=
  fun _ _ => rfl

end Lower

namespace Expression

open Lower

variable (scope : Scope)

theorem unlessMissing_meets {expression : Expression} (text : String)
    (present : Meets (expression.lower scope) (expression.calls scope) (expression.skipped scope)) :
    Meets (if expression.isMissing then Pure.pure (.literal text) else expression.lower scope)
      (expression.calls scope) (expression.skipped scope) := by
  split
  next gone =>
    obtain rfl := eq_missing gone
    exact .pure _ []
  next => exact present

mutual

theorem lower_meets : ∀ expression : Expression,
    Meets (expression.lower scope) (expression.calls scope) (expression.skipped scope)
  | missing => .pure _ _
  | identifier name _ => (use_meets name).bind fun _ => .pure _ []
  | literal _ => .pure _ _
  | member base type name => by
    rw [lower, calls, skipped]
    split
    · exact ((lowerKeys_meets base).bind fun _ => (use_meets _).bind fun _ => .pure _ []).balance
        fun site => by simp
    · exact ((lower_meets base).bind fun _ => .pure _ []).balance fun site => by simp
  | index base key lowest highest => by
    rw [lower, calls, skipped]
    split
    -- Along a location the range of an index is passed over.
    · refine ((lower_meets key).bind fun _ => (lowerKeys_meets base).bind fun _ =>
        (use_meets _).bind fun _ => .pure _ []).balance fun site => ?_
      simp only [List.count_append, List.count_nil]
      omega
    · refine ((lower_meets base).bind fun _ => (lower_meets key).bind fun _ =>
        (lower_meets lowest).bind fun _ => (lower_meets highest).bind fun _ =>
          .pure _ []).balance fun site => ?_
      simp only [List.count_append, List.count_nil]
      omega
  | slice base key lowest highest => by
    rw [lower, calls, skipped]
    refine ((lower_meets base).bind fun _ => (lower_meets key).bind fun _ =>
      (lower_meets lowest).bind fun _ => (lower_meets highest).bind fun _ =>
        .pure _ []).balance fun site => ?_
    simp only [List.count_append, List.count_nil]
    omega
  | binary operator left right => by
    rw [lower, calls, skipped]
    exact ((lower_meets left).bind fun _ => (lower_meets right).bind fun _ =>
      .pure _ []).balance fun site => by simp
  | unary operator leading operand => by
    rw [lower, calls, skipped]
    split
    next gone =>
      obtain rfl := eq_missing gone
      exact (Meets.pure _ []).balance fun site => by split <;> rfl
    next =>
      split
      next step =>
        rw [if_pos (writesOperand_iff.mpr (.inl step))]
        exact ((use_meets _).bind fun _ => (lowerKeys_meets operand).bind fun _ =>
          (store_meets operand _ _).bind fun _ => .pure _ []).balance fun site => by simp
      next other =>
        split
        next erased =>
          rw [if_pos (writesOperand_iff.mpr (.inr erased))]
          exact ((lowerKeys_meets operand).bind fun _ =>
            (store_meets operand _ _).bind fun _ => .pure _ []).balance fun site => by simp
        next kept =>
          rw [if_neg (mt writesOperand_iff.mp (not_or.mpr ⟨other, kept⟩))]
          exact ((lower_meets operand).bind fun _ => .pure _ []).balance fun site => by simp
  | assign operator target value => by
    have valued := unlessMissing_meets scope "0" (lower_meets value)
    have written (stored : Value) : Meets
        (match target with
          | missing => Pure.pure stored
          | tuple _ components => do
            return .tuple (← storeComponents scope (Value.component components.length (some stored))
              0 components)
          | target => do
            lowerKeys scope target
            return .var (← Lower.store target (stepOperator operator) stored))
        (target.calls scope) (target.skippedWritten scope) := by
      split
      next => exact .pure _ []
      next components =>
        exact ((storeComponents_meets _ 0 components).bind fun _ => .pure _ []).balance
          fun site => by simp [calls, skippedWritten]
      next present plain =>
        rw [skippedWritten_of_plain scope plain]
        exact ((lowerKeys_meets target).bind fun _ => (store_meets target _ _).bind fun _ =>
          .pure _ []).balance fun site => by simp
    rw [lower, ite_then, calls, skipped_assign]
    refine (valued.bind written).balance fun site => ?_
    simp only [List.count_append]
    omega
  | conditional condition yes no => by
    rw [lower, calls, skipped]
    refine ((lower_meets condition).bind fun _ => (lower_meets yes).bind fun _ =>
      (lower_meets no).bind fun _ => .pure _ []).balance fun site => ?_
    simp only [List.count_append, List.count_nil]
    omega
  | tuple isArray components => by
    rw [lower, calls, skipped]
    refine ((lowerComponents_meets components).bind fun items => ?_).balance
      fun site => by rw [List.append_nil, List.append_nil]
    split
    · split <;> exact .pure _ []
    · exact .pure _ []
  | call form callee arguments _ location => by
    rw [lower, calls, skipped]
    split
    · exact ((lowerList_meets arguments).bind fun _ => .pure _ []).balance fun site => by simp
    · refine ((lowerReceiver_meets callee).bind fun _ => (lowerOptions_meets callee).bind fun _ =>
        (lowerList_meets arguments).bind fun _ => (invoke_meets _ _ _ _ _ location).bind fun _ =>
          .pure _ []).balance fun site => ?_
      -- Receiver and options are lowered by two walks over the same callee.
      simp only [List.count_append, List.count_nil, count_calls_callee]
      omega
  | options callee labels values => .pure _ _
  | typeName _ => .pure _ _
  | new _ => .pure _ _
  | other _ => .pure _ _
termination_by expression => sizeOf expression

theorem lowerList_meets : ∀ expressions : List Expression,
    Meets (lowerList scope expressions) (callsList scope expressions)
      (skippedList scope expressions)
  | [] => .pure _ _
  | first :: rest => by
    rw [lowerList, callsList, skippedList]
    exact ((lower_meets first).bind fun _ => (lowerList_meets rest).bind fun _ =>
      .pure _ []).balance fun site => by simp
termination_by expressions => sizeOf expressions

theorem lowerComponents_meets : ∀ components : List Expression,
    Meets (lowerComponents scope components) (callsList scope components)
      (skippedList scope components)
  | [] => .pure _ _
  | first :: rest => by
    have taken := unlessMissing_meets scope "" (lower_meets first)
    rw [lowerComponents, ite_then, callsList, skippedList]
    exact (taken.bind fun _ => (lowerComponents_meets rest).bind fun _ =>
      .pure _ []).balance fun site => by simp
termination_by components => sizeOf components

theorem lowerKeys_meets : ∀ expression : Expression,
    Meets (lowerKeys scope expression) (expression.calls scope) (expression.skippedKeys scope)
  | index base key _ _ => by
    rw [lowerKeys, calls, skippedKeys]
    refine ((lower_meets key).bind fun _ => lowerKeys_meets base).balance fun site => ?_
    simp only [List.count_append]
    omega
  | member base _ _ => by
    rw [lowerKeys, calls, skippedKeys]
    exact lowerKeys_meets base
  | missing | identifier .. | literal .. | slice .. | binary .. | unary .. | assign ..
  | conditional .. | tuple .. | call .. | options .. | typeName .. | new .. | other .. =>
    .pure _ _
termination_by expression => sizeOf expression

theorem storeComponents_meets (part : Nat → Value) (index : Nat) :
    ∀ components : List Expression, Meets (storeComponents scope part index components)
      (callsList scope components) (skippedTargets scope components)
  | [] => .pure _ _
  | first :: rest => by
    rw [storeComponents, callsList, skippedTargets]
    split
    next gone =>
      obtain rfl := eq_missing gone
      exact storeComponents_meets part (index + 1) rest
    next =>
      exact ((lowerKeys_meets first).bind fun _ => (store_meets first _ _).bind fun _ =>
        (storeComponents_meets part (index + 1) rest).bind fun _ => .pure _ []).balance
          fun site => by simp
termination_by components => sizeOf components

theorem lowerReceiver_meets : ∀ callee : Expression,
    Meets (lowerReceiver scope callee) (callee.receiverCalls scope) (callee.skippedReceiver scope)
  | options callee _ _ => by
    rw [lowerReceiver, receiverCalls, skippedReceiver]
    exact lowerReceiver_meets callee
  | member base type name => by
    have whole : (member base type name).receiverCalls scope = base.calls scope := rfl
    rw [lowerReceiver, whole, skippedReceiver]
    split
    next idle =>
      obtain ⟨none, kept⟩ := calls_of_namespace scope idle
      rw [none, kept]
      exact .pure _ []
    next => exact ((lower_meets base).bind fun _ => .pure _ []).balance fun site => by simp
  | missing | identifier .. | literal .. | index .. | slice .. | binary .. | unary .. | assign ..
  | conditional .. | tuple .. | call .. | typeName .. | new .. | other .. => .pure _ _
termination_by callee => sizeOf callee

theorem lowerOptions_meets : ∀ callee : Expression,
    Meets (lowerOptions scope callee) (callee.optionCalls scope) (callee.skippedOptions scope)
  | options callee labels values => by
    rw [lowerOptions, optionCalls, skippedOptions]
    exact ((lowerLabelled_meets labels values).bind fun _ =>
      (lowerOptions_meets callee).bind fun _ => .pure _ []).balance fun site => by simp
  | missing | identifier .. | literal .. | member .. | index .. | slice .. | binary .. | unary ..
  | assign .. | conditional .. | tuple .. | call .. | typeName .. | new .. | other .. => .pure _ _
termination_by callee => sizeOf callee

theorem lowerLabelled_meets : ∀ (labels : List (Option String)) (values : List Expression),
    Meets (lowerLabelled scope labels values) (callsList scope values)
      (skippedLabelled scope labels values)
  | label :: labels, first :: rest => by
    rw [lowerLabelled, callsList, skippedLabelled]
    exact ((lower_meets first).bind fun _ => (lowerLabelled_meets labels rest).bind fun _ =>
      .pure _ []).balance fun site => by simp
  | [], [] | [], _ :: _ | _ :: _, [] => .pure _ _
termination_by _ values => sizeOf values

end

theorem callsList_eq_flatMap (expressions : List Expression) :
    callsList scope expressions = expressions.flatMap (calls scope) := by
  induction expressions with
  | nil => rfl
  | cons first rest ih => rw [callsList, List.flatMap_cons, ih]

theorem skippedList_eq_flatMap (expressions : List Expression) :
    skippedList scope expressions = expressions.flatMap (skipped scope) := by
  induction expressions with
  | nil => rfl
  | cons first rest ih => rw [skippedList, List.flatMap_cons, ih]

theorem lowerCondition_meets (condition : Expression) :
    Meets (condition.lowerCondition scope) (condition.calls scope) (condition.skipped scope) := by
  have tested := unlessMissing_meets scope "true" (lower_meets scope condition)
  rw [lowerCondition, ite_then]
  exact (tested.bind fun _ => emit_meets _).balance fun site => by simp

theorem lowerOptional_meets (expression : Expression) :
    Meets (if expression.isMissing then Pure.pure none else some <$> expression.lower scope)
      (expression.calls scope) (expression.skipped scope) := by
  split
  next gone =>
    obtain rfl := eq_missing gone
    exact .pure _ []
  next =>
    rw [map_eq_pure_bind]
    exact ((lower_meets scope expression).bind fun _ => .pure _ []).balance fun site => by simp

end Expression

namespace Statement

section Collected

variable (value : Expression → List CallSite) (raised : Invocation → List CallSite)

mutual

def collect : Statement → List CallSite
  | expression evaluated => value evaluated
  | declare _ initial => value initial
  | emit none => []
  | emit (some event) => event.arguments.flatMap value
  | revert none => []
  | revert (some error) => error.arguments.flatMap value ++ raised error
  | ret returned => value returned
  | branch condition yes no => value condition ++ collectBody yes ++ collectBody no
  | forLoop start condition step body _ =>
    collectBody start ++ value condition ++ collectBody body ++ collectBody step
  | whileLoop condition body _ => value condition ++ collectBody body
  | doWhile condition body _ => collectBody body ++ value condition
  | block body => collectBody body
  | tryCall call clauses => value call ++ collectClauses clauses
  | other _ => []

def collectBody : List Statement → List CallSite
  | [] => []
  | first :: rest => first.collect ++ collectBody rest

def collectClauses : List (List String × List Statement) → List CallSite
  | [] => []
  | (_, body) :: rest => collectBody body ++ collectClauses rest

end

end Collected

def raise (error : Invocation) : CallSite := ⟨"revert " ++ error.callee, .revert, error.location⟩

variable (scope : Scope)

def calls (statement : Statement) : List CallSite :=
  statement.collect (Expression.calls scope) fun error => [raise error]

def skipped (statement : Statement) : List CallSite :=
  statement.collect (Expression.skipped scope) fun _ => []

def bodyCalls (body : List Statement) : List CallSite :=
  collectBody (Expression.calls scope) (fun error => [raise error]) body

def bodySkipped (body : List Statement) : List CallSite :=
  collectBody (Expression.skipped scope) (fun _ => []) body

open Lower

mutual

theorem lower_meets : ∀ statement : Statement,
    Meets (statement.lower scope) (statement.calls scope) (statement.skipped scope)
  | expression value => by
    rw [lower]
    split
    next gone =>
      obtain rfl := Expression.eq_missing gone
      exact .pure _ []
    next =>
      split
      · exact ((value.lower_meets scope).bind fun _ => .pure _ []).balance
          fun site => by simp [calls, skipped, collect]
      · exact ((value.lower_meets scope).bind fun _ => emit_meets _).balance
          fun site => by simp [calls, skipped, collect]
  | declare targets value => by
    rw [lower, ite_then]
    exact ((value.lowerOptional_meets scope).bind fun _ => bindNames_meets _ _ 0).balance
      fun site => by simp [calls, skipped, collect]
  | emit none => .pure _ _
  | emit (some event) => by
    rw [lower]
    exact ((Expression.lowerList_meets scope event.arguments).bind fun _ =>
      emit_meets _).balance fun site => by
        simp [calls, skipped, collect, Expression.callsList_eq_flatMap,
          Expression.skippedList_eq_flatMap]
  | revert none => .pure _ _
  | revert (some error) => by
    rw [lower]
    exact ((Expression.lowerList_meets scope error.arguments).bind fun _ =>
      (invoke_meets _ _ _ _ _ _).bind fun _ => .pure _ []).balance fun site => by
        simp [calls, skipped, collect, raise, Expression.callsList_eq_flatMap,
          Expression.skippedList_eq_flatMap]
  | ret value => by
    rw [lower]
    split
    next gone =>
      obtain rfl := Expression.eq_missing gone
      exact emit_meets _
    next =>
      refine ((value.lower_meets scope).bind fun lowered => ?_).balance
        fun site => by rw [List.append_nil, List.append_nil]; rfl
      split <;> exact emit_meets _
  | branch condition yes no => by
    rw [lower]
    refine ((condition.lowerCondition_meets scope).bind fun _ => (lowerBody_meets yes).bind fun _ =>
      lowerBody_meets no).balance fun site => ?_
    simp only [calls, skipped, collect, bodyCalls, bodySkipped, List.count_append]
    omega
  | forLoop start condition step body _ => by
    rw [lower]
    refine ((lowerBody_meets start).bind fun _ => (condition.lowerCondition_meets scope).bind
      fun _ => (lowerBody_meets body).bind fun _ => lowerBody_meets step).balance fun site => ?_
    simp only [calls, skipped, collect, bodyCalls, bodySkipped, List.count_append]
    omega
  | whileLoop condition body _ => by
    rw [lower]
    exact (condition.lowerCondition_meets scope).bind fun _ => lowerBody_meets body
  | doWhile condition body _ => by
    rw [lower]
    exact (lowerBody_meets body).bind fun _ => condition.lowerCondition_meets scope
  | block body => by
    rw [lower]
    exact lowerBody_meets body
  | tryCall call clauses => by
    rw [lower, ite_then]
    exact (call.lowerOptional_meets scope).bind fun _ => lowerClauses_meets _ clauses
  | other text => by
    rw [lower]
    split
    · exact .pure _ []
    · exact emit_meets _

theorem lowerBody_meets : ∀ body : List Statement,
    Meets (lowerBody scope body) (bodyCalls scope body) (bodySkipped scope body)
  | [] => .pure _ _
  | first :: rest => by
    rw [lowerBody]
    exact (lower_meets first).bind fun _ => lowerBody_meets rest

theorem lowerClauses_meets (part : Nat → Nat → Value) :
    ∀ clauses : List (List String × List Statement),
      Meets (lowerClauses scope part clauses)
        (collectClauses (Expression.calls scope) (fun error => [raise error]) clauses)
        (collectClauses (Expression.skipped scope) (fun _ => []) clauses)
  | [] => .pure _ _
  | (parameters, body) :: rest => by
    rw [lowerClauses]
    exact (bindNames_meets _ parameters 0).bind fun _ => (lowerBody_meets body).bind fun _ =>
      lowerClauses_meets _ rest

end

end Statement

def Instruction.site? : Instruction → Option CallSite
  | call operation => some operation.site
  | _ => none

theorem Lower.Step.sites {first second : Stage} {emission : Emission}
    (step : Step first emission second) :
    emission.instructions.filterMap Instruction.site? = emission.sites := by
  cases step with
  | read => rfl
  | plain instruction definesNothing =>
    cases instruction with
    | call operation => cases definesNothing
    | _ => rfl
  | assign => rfl
  | call => rfl

theorem Lower.Run.sites {first second : Stage} {emission : Emission}
    (run : Run first emission second) :
    emission.instructions.filterMap Instruction.site? = emission.sites := by
  induction run with
  | nil => rfl
  | cons step _ ih => simp only [Emission.append, List.filterMap_append, step.sites, ih]

namespace Statement

/-- Each call of a statement is skipped or becomes one call instruction with one call site,
so none is lost exactly if no position that lowering passes over holds a call. -/
theorem calls_perm_sites (scope : Scope) (statement : Statement) (versions : Versions) :
    let emission := (statement.lower scope versions).emission
    emission.instructions.filterMap Instruction.site? = emission.sites ∧
      (statement.calls scope).Perm (emission.sites ++ statement.skipped scope) ∧
      ((statement.calls scope).Perm emission.sites ↔ statement.skipped scope = []) := by
  intro emission
  obtain ⟨_, _, _, run⟩ := statement.lower_runs scope [] versions [] (by simp)
  have shared : (statement.calls scope).Perm (emission.sites ++ statement.skipped scope) := by
    refine List.perm_iff_count.mpr fun site => ?_
    rw [List.count_append]
    exact statement.lower_meets scope versions site
  refine ⟨run.sites, shared, ?_, ?_⟩
  · intro complete
    have lengths := (shared.symm.trans complete).length_eq
    rw [List.length_append] at lengths
    exact List.length_eq_zero_iff.mp (by omega)
  · intro nothing
    rwa [nothing, List.append_nil] at shared

/-- In `ds().owner = 1` the call of `ds` is the root of a written location. -/
theorem written_root_skipped :
    let root := Expression.call .plain (.identifier "ds" false) [] [] {}
    let statement := Statement.expression
      (.assign "=" (.member root "" "owner") (.literal { value := some "1" }))
    statement.calls {} = [⟨"ds", .external, {}⟩] ∧
      (statement.lower {} {}).emission.sites = [] := by
  exact ⟨rfl, rfl⟩

end Statement

end Reentrancy
