import Reentrancy.Proofs.Lowering.Laws
import Reentrancy.Proofs.Ssa.Definitions

/-! Lowering looks at current versions only to read them. From version tables that count
alike it emits the same instructions and call sites, up to the versions read. -/
namespace Reentrancy

def Variable.unversioned (read : Variable) : Variable := ⟨read.name, 0⟩

def Value.unversioned (value : Value) : Value :=
  value.substitute fun read => some (.var read.unversioned)

/-- The instruction with the versions that it reads left out; what it defines stays. -/
def Instruction.unversioned (instruction : Instruction) : Instruction :=
  instruction.substitute fun read => some (.var read.unversioned)

namespace Value

theorem substituteList_eq_map (rule : Variable → Option Value) (values : List Value) :
    substituteList rule values = values.map (substitute rule) := by
  induction values with
  | nil => rfl
  | cons first rest ih => rw [substituteList, ih, List.map_cons]

@[simp] theorem unversioned_var (read : Variable) :
    (var read).unversioned = var read.unversioned := rfl

@[simp] theorem unversioned_literal (text : String) : (literal text).unversioned = literal text :=
  rfl

@[simp] theorem unversioned_raw (text : String) : (raw text).unversioned = raw text := rfl

@[simp] theorem unversioned_binary (operator : String) (left right : Value) :
    (binary operator left right).unversioned =
      binary operator left.unversioned right.unversioned := rfl

@[simp] theorem unversioned_unary (operator : String) (operand : Value) :
    (unary operator operand).unversioned = unary operator operand.unversioned := rfl

@[simp] theorem unversioned_choice (condition yes no : Value) :
    (choice condition yes no).unversioned =
      choice condition.unversioned yes.unversioned no.unversioned := rfl

@[simp] theorem unversioned_apply (name : String) (arguments : List Value) :
    (apply name arguments).unversioned = apply name (arguments.map unversioned) :=
  congrArg (apply name) (substituteList_eq_map _ arguments)

@[simp] theorem unversioned_tuple (items : List Value) :
    (tuple items).unversioned = tuple (items.map unversioned) :=
  congrArg tuple (substituteList_eq_map _ items)

theorem unversioned_component (count : Nat) (value : Option Value) (index : Nat) :
    (component count value index).unversioned = component count (value.map unversioned) index := by
  cases value with
  | none => rfl
  | some whole =>
    cases whole with
    | tuple items =>
      simp only [component, Option.map_some, unversioned_tuple, List.length_map]
      split
      · rw [List.getElem?_map]
        cases items[index]? <;> rfl
      · exact unversioned_tuple items
    | var | literal | binary | unary | apply | choice | raw => rfl

end Value

namespace Instruction

theorem unversioned_assign (assignment : Assignment) :
    (assign assignment).unversioned =
      assign { assignment with
        previous := assignment.previous.map Variable.unversioned
        value := assignment.value.unversioned } := rfl

theorem unversioned_call (operation : CallOperation) :
    (call operation).unversioned =
      call { operation with
        receiver := operation.receiver.map Value.unversioned
        options := operation.options.map fun option => (option.1, option.2.unversioned)
        arguments := operation.arguments.map Value.unversioned } := rfl

end Instruction

/-- The tables count alike: the next version of every name and the next result are the same. -/
structure Versions.CountAlike (first second : Versions) : Prop where
  counter : ∀ name, first.counter.version name = second.counter.version name
  calls : first.calls = second.calls

structure Emission.Alike (first second : Emission) : Prop where
  instructions : first.instructions.map Instruction.unversioned =
    second.instructions.map Instruction.unversioned
  sites : first.sites = second.sites

theorem Emission.Alike.append {first second third fourth : Emission} (here : first.Alike second)
    (later : third.Alike fourth) : (first.append third).Alike (second.append fourth) where
  instructions := by
    simp only [Emission.append, List.map_append, here.instructions, later.instructions]
  sites := by simp only [Emission.append, here.sites, later.sites]

namespace Versions.CountAlike

variable {first second : Versions}

theorem define (alike : first.CountAlike second) (name : String) :
    (first.define name).1 = (second.define name).1 ∧
      (first.define name).2.CountAlike (second.define name).2 := by
  refine ⟨?_, ?_, alike.calls⟩
  · simp only [Versions.define, allocate, alike.counter]
  · intro other
    simp only [Versions.define, allocate, setCurrent, Table.version_insert, alike.counter]

theorem nextResult (alike : first.CountAlike second) :
    first.nextResult.1 = second.nextResult.1 ∧
      first.nextResult.2.CountAlike second.nextResult.2 := by
  have counted : CountAlike { first with calls := first.calls + 1 }
      { second with calls := second.calls + 1 } :=
    ⟨alike.counter, congrArg (· + 1) alike.calls⟩
  have defined := counted.define (resultName (second.calls + 1))
  rw [← alike.calls] at defined
  rwa [Versions.nextResult, Versions.nextResult, ← alike.calls]

end Versions.CountAlike

namespace Lower

variable {α β γ δ : Type}

/-- Two steps agree if, from tables that count alike, they emit alike and give values that
are equal after `forget`, and the tables count alike again. -/
def Agree (forget : α → γ) (one two : Lower α) : Prop :=
  ∀ first second : Versions, first.CountAlike second →
    forget (one first).value = forget (two second).value ∧
      (one first).emission.Alike (two second).emission ∧
        (one first).versions.CountAlike (two second).versions

namespace Agree

theorem pure {forget : α → γ} {left right : α} (same : forget left = forget right) :
    Agree forget (Pure.pure left) (Pure.pure right) :=
  fun _ _ alike => ⟨same, ⟨rfl, rfl⟩, alike⟩

theorem bind {forget : α → γ} {last : β → δ} {one two : Lower α} {next other : α → Lower β}
    (values : Agree forget one two)
    (rest : ∀ left right, forget left = forget right → Agree last (next left) (other right)) :
    Agree last (one >>= next) (two >>= other) := by
  intro first second alike
  obtain ⟨same, emitted, counted⟩ := values first second alike
  obtain ⟨sameAfter, emittedAfter, countedAfter⟩ := rest _ _ same _ _ counted
  exact ⟨sameAfter, emitted.append emittedAfter, countedAfter⟩

theorem bindSame {last : β → δ} {one two : Lower α} {next other : α → Lower β}
    (values : Agree id one two) (rest : ∀ value, Agree last (next value) (other value)) :
    Agree last (one >>= next) (two >>= other) := by
  refine values.bind fun left right same => ?_
  obtain rfl : left = right := same
  exact rest left

end Agree

theorem use_agree (name : String) : Agree Variable.unversioned (use name) (use name) :=
  fun _ _ alike => ⟨rfl, ⟨rfl, rfl⟩, alike⟩

theorem emit_agree {left right : Instruction} (same : left.unversioned = right.unversioned) :
    Agree id (emit left) (emit right) :=
  fun _ _ alike => ⟨rfl, ⟨congrArg (fun instruction => [instruction]) same, rfl⟩, alike⟩

theorem define_agree (name : String) : Agree id (define name) (define name) :=
  fun _ _ alike => ⟨(alike.define name).1, ⟨rfl, rfl⟩, (alike.define name).2⟩

theorem nextResult_agree : Agree id nextResult nextResult :=
  fun _ _ alike => ⟨alike.nextResult.1, ⟨rfl, rfl⟩, alike.nextResult.2⟩

theorem note_agree (site : CallSite) : Agree id (note site) (note site) :=
  fun _ _ alike => ⟨rfl, ⟨rfl, rfl⟩, alike⟩

theorem defineAll_agree (names : List String) : Agree id (defineAll names) (defineAll names) := by
  induction names with
  | nil => exact .pure rfl
  | cons name rest ih =>
    rw [defineAll]
    exact (define_agree name).bindSame fun first => ih.bindSame fun others => .pure rfl

theorem store_agree (target : Expression) (operator : String) {left right : Value}
    (same : left.unversioned = right.unversioned) :
    Agree id (store target operator left) (store target operator right) := by
  rw [store, store]
  refine (use_agree _).bind fun previous before read => ?_
  refine (define_agree _).bindSame fun defined => ?_
  refine (defineAll_agree _).bindSame fun implied => ?_
  refine (emit_agree ?_).bindSame fun _ => .pure rfl
  split
  · simp only [Instruction.unversioned_assign, same]
  · simp only [Instruction.unversioned_assign, Option.map_some, read, same]

theorem invoke_agree (callee : String) (type : CallType) {receiver other : Option Value}
    {options labelled : List (String × Value)} {arguments values : List Value}
    (location : Location) (same : receiver.map Value.unversioned = other.map Value.unversioned)
    (sameOptions : options.map (fun option => (option.1, option.2.unversioned)) =
      labelled.map fun option => (option.1, option.2.unversioned))
    (sameArguments : arguments.map Value.unversioned = values.map Value.unversioned) :
    Agree id (invoke callee type receiver options arguments location)
      (invoke callee type other labelled values location) := by
  rw [invoke, invoke]
  refine nextResult_agree.bindSame fun result => ?_
  refine (note_agree _).bindSame fun _ => ?_
  refine (emit_agree ?_).bindSame fun _ => .pure rfl
  simp only [Instruction.unversioned_call, same, sameOptions, sameArguments]

theorem bindNames_agree {part other : Nat → Value}
    (same : ∀ index, (part index).unversioned = (other index).unversioned) (names : List String)
    (index : Nat) : Agree id (bindNames part index names) (bindNames other index names) := by
  induction names generalizing index with
  | nil => exact .pure rfl
  | cons name rest ih =>
    rw [bindNames, bindNames]
    split
    · refine (define_agree name).bindSame fun target => ?_
      refine (emit_agree ?_).bindSame fun _ => ih (index + 1)
      simp only [Instruction.unversioned_assign, same index]
    · exact ih (index + 1)

end Lower

namespace Expression

open Lower

/-- The value of a tuple; a pair of parentheses has the value inside it. -/
def tupleValue (isArray : Bool) (components : List Expression) (items : List Value) : Value :=
  match isArray, components, items with
  | false, [component], [item] => if component.isMissing then .tuple [item] else item
  | _, _, _ => .tuple items

theorem lower_tuple (scope : Scope) (isArray : Bool) (components : List Expression) :
    (tuple isArray components).lower scope =
      lowerComponents scope components >>= fun items =>
        Pure.pure (tupleValue isArray components items) := by
  rw [lower]
  refine congrArg (lowerComponents scope components >>= ·) (funext fun items => ?_)
  match isArray, components, items with
  | false, [_], [_] => rfl
  | true, _, _ => rfl
  | false, [], _ => rfl
  | false, _ :: _ :: _, _ => rfl
  | false, [_], [] => rfl
  | false, [_], _ :: _ :: _ => rfl

theorem unversioned_tupleValue (isArray : Bool) (components : List Expression)
    (items : List Value) :
    (tupleValue isArray components items).unversioned =
      tupleValue isArray components (items.map Value.unversioned) := by
  match isArray, components, items with
  | false, [component], [item] =>
    simp only [tupleValue, List.map_cons, List.map_nil]
    split <;> simp
  | true, _, _ => simp [tupleValue]
  | false, [], _ => simp [tupleValue]
  | false, _ :: _ :: _, _ => simp [tupleValue]
  | false, [_], [] => simp [tupleValue]
  | false, [_], _ :: _ :: _ => simp [tupleValue]

variable (scope : Scope)

theorem unlessMissing_agree {expression : Expression} (text : String)
    (present : Agree Value.unversioned (expression.lower scope) (expression.lower scope)) :
    Agree Value.unversioned
      (if expression.isMissing then Pure.pure (.literal text) else expression.lower scope)
      (if expression.isMissing then Pure.pure (.literal text) else expression.lower scope) := by
  split
  · exact .pure rfl
  · exact present

mutual

theorem lower_agree : ∀ expression : Expression,
    Agree Value.unversioned (expression.lower scope) (expression.lower scope)
  | missing => .pure rfl
  | identifier name _ => (use_agree name).bind fun _ _ read => .pure (congrArg Value.var read)
  | literal _ => .pure rfl
  | member base type name => by
    rw [lower]
    split
    · refine (lowerKeys_agree base).bindSame fun _ => ?_
      exact (use_agree _).bind fun _ _ read => .pure (congrArg Value.var read)
    · exact (lower_agree base).bind fun _ _ _ => .pure rfl
  | index base key lowest highest => by
    rw [lower]
    split
    · refine (lower_agree key).bind fun _ _ _ => ?_
      refine (lowerKeys_agree base).bindSame fun _ => ?_
      exact (use_agree _).bind fun _ _ read => .pure (congrArg Value.var read)
    · refine (lower_agree base).bind fun _ _ _ => ?_
      refine (lower_agree key).bind fun _ _ _ => ?_
      refine (lower_agree lowest).bind fun _ _ _ => ?_
      exact (lower_agree highest).bind fun _ _ _ => .pure rfl
  | slice base key lowest highest => by
    rw [lower]
    refine (lower_agree base).bind fun _ _ _ => ?_
    refine (lower_agree key).bind fun _ _ _ => ?_
    refine (lower_agree lowest).bind fun _ _ _ => ?_
    exact (lower_agree highest).bind fun _ _ _ => .pure rfl
  | binary operator left right => by
    rw [lower]
    refine (lower_agree left).bind fun _ _ first => ?_
    refine (lower_agree right).bind fun _ _ second => ?_
    exact .pure (by simp [first, second])
  | unary operator leading operand => by
    rw [lower]
    split
    · exact .pure rfl
    · split
      -- The old value is read first; only its version can differ.
      · refine (use_agree _).bind fun _ _ before => ?_
        refine (lowerKeys_agree operand).bindSame fun _ => ?_
        refine (store_agree operand _ rfl).bindSame fun after => ?_
        exact .pure (by cases leading <;> simp [before])
      · split
        · refine (lowerKeys_agree operand).bindSame fun _ => ?_
          exact (store_agree operand _ rfl).bindSame fun _ => .pure rfl
        · exact (lower_agree operand).bind fun _ _ inner => .pure (by simp [inner])
  | assign operator target value => by
    have valued := unlessMissing_agree scope "0" (lower_agree value)
    rw [lower, ite_then]
    refine valued.bind fun stored other same => ?_
    dsimp only
    split
    next => exact .pure same
    next components =>
      have parts (index : Nat) :
          (Value.component components.length (some stored) index).unversioned =
            (Value.component components.length (some other) index).unversioned := by
        simp only [Value.unversioned_component, Option.map_some, same]
      exact (storeComponents_agree parts 0 components).bind fun _ _ written =>
        .pure (by simp [written])
    next =>
      refine (lowerKeys_agree target).bindSame fun _ => ?_
      exact (store_agree target _ same).bindSame fun _ => .pure rfl
  | conditional condition yes no => by
    rw [lower]
    refine (lower_agree condition).bind fun _ _ test => ?_
    refine (lower_agree yes).bind fun _ _ first => ?_
    refine (lower_agree no).bind fun _ _ second => ?_
    exact .pure (by simp [test, first, second])
  | tuple isArray components => by
    rw [lower_tuple]
    refine (lowerComponents_agree components).bind fun items others same => ?_
    exact .pure (by rw [unversioned_tupleValue, same, unversioned_tupleValue])
  | call form callee arguments _ location => by
    rw [lower]
    split
    · exact (lowerList_agree arguments).bind fun _ _ values => .pure (by simp [values])
    · refine (lowerReceiver_agree callee).bind fun _ _ receiver => ?_
      refine (lowerOptions_agree callee).bind fun _ _ options => ?_
      refine (lowerList_agree arguments).bind fun _ _ values => ?_
      exact (invoke_agree _ _ location receiver options values).bindSame fun _ => .pure rfl
  | options callee labels values => .pure rfl
  | typeName _ => .pure rfl
  | new _ => .pure rfl
  | other _ => .pure rfl
termination_by expression => sizeOf expression

theorem lowerList_agree : ∀ expressions : List Expression,
    Agree (List.map Value.unversioned) (lowerList scope expressions) (lowerList scope expressions)
  | [] => .pure rfl
  | first :: rest => by
    rw [lowerList]
    refine (lower_agree first).bind fun _ _ value => ?_
    exact (lowerList_agree rest).bind fun _ _ others => .pure (by simp [value, others])
termination_by expressions => sizeOf expressions

theorem lowerComponents_agree : ∀ components : List Expression,
    Agree (List.map Value.unversioned) (lowerComponents scope components)
      (lowerComponents scope components)
  | [] => .pure rfl
  | first :: rest => by
    have taken := unlessMissing_agree scope "" (lower_agree first)
    rw [lowerComponents, ite_then]
    refine taken.bind fun _ _ value => ?_
    exact (lowerComponents_agree rest).bind fun _ _ others => .pure (by simp [value, others])
termination_by components => sizeOf components

theorem lowerKeys_agree : ∀ expression : Expression,
    Agree id (lowerKeys scope expression) (lowerKeys scope expression)
  | index base key _ _ => by
    rw [lowerKeys]
    exact (lower_agree key).bind fun _ _ _ => lowerKeys_agree base
  | member base _ _ => by
    rw [lowerKeys]
    exact lowerKeys_agree base
  | missing | identifier .. | literal .. | slice .. | binary .. | unary .. | assign ..
  | conditional .. | tuple .. | call .. | options .. | typeName .. | new .. | other .. =>
    .pure rfl
termination_by expression => sizeOf expression

theorem storeComponents_agree {part other : Nat → Value}
    (same : ∀ index, (part index).unversioned = (other index).unversioned) (index : Nat) :
    ∀ components : List Expression, Agree (List.map Value.unversioned)
      (storeComponents scope part index components) (storeComponents scope other index components)
  | [] => .pure rfl
  | first :: rest => by
    rw [storeComponents, storeComponents]
    split
    · exact storeComponents_agree same (index + 1) rest
    · refine (lowerKeys_agree first).bindSame fun _ => ?_
      refine (store_agree first _ (same index)).bindSame fun target => ?_
      exact (storeComponents_agree same (index + 1) rest).bind fun _ _ others =>
        .pure (by simp [others])
termination_by components => sizeOf components

theorem lowerReceiver_agree : ∀ callee : Expression,
    Agree (Option.map Value.unversioned) (lowerReceiver scope callee) (lowerReceiver scope callee)
  | options callee _ _ => by
    rw [lowerReceiver]
    exact lowerReceiver_agree callee
  | member base _ _ => by
    rw [lowerReceiver]
    split
    · exact .pure rfl
    · exact (lower_agree base).bind fun _ _ value => .pure (by simp [value])
  | missing | identifier .. | literal .. | index .. | slice .. | binary .. | unary .. | assign ..
  | conditional .. | tuple .. | call .. | typeName .. | new .. | other .. => .pure rfl
termination_by callee => sizeOf callee

theorem lowerOptions_agree : ∀ callee : Expression,
    Agree (List.map fun option : String × Value => (option.1, option.2.unversioned))
      (lowerOptions scope callee) (lowerOptions scope callee)
  | options callee labels values => by
    rw [lowerOptions]
    refine (lowerLabelled_agree labels values).bind fun _ _ here => ?_
    exact (lowerOptions_agree callee).bind fun _ _ inner => .pure (by simp [here, inner])
  | missing | identifier .. | literal .. | member .. | index .. | slice .. | binary .. | unary ..
  | assign .. | conditional .. | tuple .. | call .. | typeName .. | new .. | other .. => .pure rfl
termination_by callee => sizeOf callee

theorem lowerLabelled_agree : ∀ (labels : List (Option String)) (values : List Expression),
    Agree (List.map fun option : String × Value => (option.1, option.2.unversioned))
      (lowerLabelled scope labels values) (lowerLabelled scope labels values)
  | label :: labels, first :: rest => by
    rw [lowerLabelled]
    refine (lower_agree first).bind fun _ _ value => ?_
    exact (lowerLabelled_agree labels rest).bind fun _ _ others => .pure (by simp [value, others])
  | [], [] | [], _ :: _ | _ :: _, [] => .pure rfl
termination_by _ values => sizeOf values

end

theorem lowerCondition_agree (condition : Expression) :
    Agree id (condition.lowerCondition scope) (condition.lowerCondition scope) := by
  have tested := unlessMissing_agree scope "true" (lower_agree scope condition)
  rw [lowerCondition, ite_then]
  exact tested.bind fun _ _ value => emit_agree (congrArg Instruction.condition value)

theorem lowerOptional_agree (expression : Expression) :
    Agree (Option.map Value.unversioned)
      (if expression.isMissing then Pure.pure none else some <$> expression.lower scope)
      (if expression.isMissing then Pure.pure none else some <$> expression.lower scope) := by
  split
  · exact .pure rfl
  · rw [map_eq_pure_bind]
    exact (lower_agree scope expression).bind fun _ _ value => .pure (congrArg some value)

end Expression

namespace Statement

open Lower

def returned : Value → List Value
  | .tuple items => items
  | single => [single]

theorem unversioned_returned (value : Value) :
    (returned value).map Value.unversioned = returned value.unversioned := by
  cases value with
  | tuple items => rw [returned, Value.unversioned_tuple, returned]
  | var | literal | binary | unary | apply | choice | raw => rfl

theorem lower_ret (scope : Scope) (value : Expression) :
    (ret value).lower scope =
      if value.isMissing then Lower.emit (.ret [])
      else value.lower scope >>= fun lowered => Lower.emit (.ret (returned lowered)) := by
  rw [lower]
  refine congrArg (ite _ _) (congrArg (value.lower scope >>= ·) (funext fun lowered => ?_))
  cases lowered <;> rfl

variable (scope : Scope)

mutual

theorem lower_agree : ∀ statement : Statement,
    Agree id (statement.lower scope) (statement.lower scope)
  | expression value => by
    rw [lower]
    split
    · exact .pure rfl
    · split
      · exact (value.lower_agree scope).bind fun _ _ _ => .pure rfl
      · exact (value.lower_agree scope).bind fun _ _ lowered =>
          emit_agree (congrArg Instruction.expression lowered)
  | declare targets value => by
    rw [lower, ite_then]
    refine (value.lowerOptional_agree scope).bind fun _ _ initial => ?_
    exact bindNames_agree (fun index => by simp only [Value.unversioned_component, initial]) _ 0
  | emit none => .pure rfl
  | emit (some event) => by
    rw [lower]
    exact (Expression.lowerList_agree scope event.arguments).bind fun _ _ arguments =>
      emit_agree (congrArg (Instruction.emit event.callee) arguments)
  | revert none => .pure rfl
  | revert (some error) => by
    rw [lower]
    refine (Expression.lowerList_agree scope error.arguments).bind fun _ _ arguments => ?_
    exact (invoke_agree _ _ _ rfl rfl arguments).bindSame fun _ => .pure rfl
  | ret value => by
    rw [lower_ret]
    split
    · exact emit_agree rfl
    · refine (value.lower_agree scope).bind fun left right lowered => emit_agree ?_
      have items : (returned left).map Value.unversioned = (returned right).map Value.unversioned := by
        rw [unversioned_returned, lowered, unversioned_returned]
      exact congrArg Instruction.ret items
  | branch condition yes no => by
    rw [lower]
    refine (condition.lowerCondition_agree scope).bindSame fun _ => ?_
    exact (lowerBody_agree yes).bindSame fun _ => lowerBody_agree no
  | forLoop start condition step body _ => by
    rw [lower]
    refine (lowerBody_agree start).bindSame fun _ => ?_
    refine (condition.lowerCondition_agree scope).bindSame fun _ => ?_
    exact (lowerBody_agree body).bindSame fun _ => lowerBody_agree step
  | whileLoop condition body _ => by
    rw [lower]
    exact (condition.lowerCondition_agree scope).bindSame fun _ => lowerBody_agree body
  | doWhile condition body _ => by
    rw [lower]
    exact (lowerBody_agree body).bindSame fun _ => condition.lowerCondition_agree scope
  | block body => by
    rw [lower]
    exact lowerBody_agree body
  | tryCall call clauses => by
    rw [lower, ite_then]
    refine (call.lowerOptional_agree scope).bind fun _ _ result => ?_
    exact lowerClauses_agree
      (fun count index => by simp only [Value.unversioned_component, result]) clauses
  | other text => by
    rw [lower]
    split
    · exact .pure rfl
    · exact emit_agree rfl

theorem lowerBody_agree : ∀ body : List Statement,
    Agree id (lowerBody scope body) (lowerBody scope body)
  | [] => .pure rfl
  | first :: rest => by
    rw [lowerBody]
    exact (lower_agree first).bindSame fun _ => lowerBody_agree rest

theorem lowerClauses_agree {part other : Nat → Nat → Value}
    (same : ∀ count index, (part count index).unversioned = (other count index).unversioned) :
    ∀ clauses : List (List String × List Statement),
      Agree id (lowerClauses scope part clauses) (lowerClauses scope other clauses)
  | [] => .pure rfl
  | (parameters, body) :: rest => by
    rw [lowerClauses, lowerClauses]
    refine (bindNames_agree (same parameters.length) parameters 0).bindSame fun _ => ?_
    refine (lowerBody_agree body).bindSame fun _ => ?_
    exact lowerClauses_agree (fun _ _ => rfl) rest

end

theorem lowerHead_agree (statement : Statement) :
    Agree id (statement.lowerHead scope) (statement.lowerHead scope) := by
  unfold lowerHead
  split
  · exact Expression.lowerCondition_agree scope _
  · exact Expression.lowerCondition_agree scope _
  · exact Expression.lowerCondition_agree scope _
  · exact lower_agree scope statement

end Statement

end Reentrancy
