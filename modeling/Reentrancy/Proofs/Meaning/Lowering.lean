import Mathlib.Data.List.Forall2
import Reentrancy.Proofs.Lowering.Agreement
import Reentrancy.Proofs.Meaning.Execution
import Reentrancy.Proofs.Ssa.Exits

/-! Lowering keeps the meaning of scalar code. While instructions are executed, the current
version of every name holds what the store holds; an operand was taken at some version, and no
later instruction writes that version again, so it keeps its value until it is used. -/
namespace Reentrancy

variable {D : Type} (meaning : Meaning D)

/-- The current version of every name holds what the store holds. -/
def Agrees (env : Env D) (versions : Versions) (store : Store D) : Prop :=
  ∀ name, env (versions.read name) = store name

/-- The versions counted so far have their values still. -/
def Keeps (counter : Table Nat) (before after : Env D) : Prop :=
  ∀ kept : Variable, kept.version ≤ counter.version kept.name → after kept = before kept

theorem Keeps.trans {first second : Table Nat} {before middle after : Env D}
    (left : Keeps first before middle) (grows : ∀ name, first.version name ≤ second.version name)
    (right : Keeps second middle after) : Keeps first before after := by
  intro kept counted
  rw [right kept (Nat.le_trans counted (grows kept.name)), left kept counted]

def Instruction.isScalar : Instruction → Bool
  | assign assignment => assignment.implied.isEmpty
  | expression _ => true
  | _ => false

section Steps

variable {α β : Type}

/-- What is known after a lowered step was executed from `env` to `last`. Its value satisfies
`holds` from then on, whatever else is executed. -/
structure Simulated (versions : Versions) (env : Env D) (lowered : Lowered α) (last : Env D)
    (after : Store D) (holds : Env D → α → Prop) : Prop where
  scalar : ∀ instruction ∈ lowered.emission.instructions, instruction.isScalar = true
  runs : Instruction.runAll meaning lowered.emission.instructions env = some last
  agrees : Agrees last lowered.versions after
  bounded : lowered.versions.Bounded
  keeps : Keeps versions.counter env last
  grows : ∀ name, versions.counter.version name ≤ lowered.versions.counter.version name
  value : ∀ later, Keeps lowered.versions.counter last later → holds later lowered.value

/-- From an environment that agrees with `store` and satisfies `needs` for good, executing the
step leads to one that agrees with `after`. -/
def Simulates (needs : Env D → Prop) (step : Lower α) (store after : Store D)
    (holds : Env D → α → Prop) : Prop :=
  ∀ versions env, versions.Bounded → Agrees env versions store →
    (∀ later, Keeps versions.counter env later → needs later) →
    ∃ last, Simulated meaning versions env (step versions) last after holds

variable {meaning} {needs : Env D → Prop} {store middle after : Store D}

namespace Simulates

theorem pure {value : α} {holds : Env D → α → Prop} (known : ∀ env, needs env → holds env value) :
    Simulates meaning needs (Pure.pure value) store store holds := by
  intro versions env bounded agrees given
  exact ⟨env, by simp, rfl, agrees, bounded, fun _ _ => rfl, fun _ => Nat.le_refl _,
    fun later keeps => known later (given later keeps)⟩

theorem bind {first : Lower α} {next : α → Lower β} {between : Env D → α → Prop}
    {holds : Env D → β → Prop} (one : Simulates meaning needs first store middle between)
    (two : ∀ value, Simulates meaning (fun env => between env value ∧ needs env) (next value) middle
      after holds) :
    Simulates meaning needs (first >>= next) store after holds := by
  intro versions env bounded agrees given
  obtain ⟨mid, here⟩ := one versions env bounded agrees given
  have known (later : Env D) (keeps : Keeps (first versions).versions.counter mid later) :
      between later (first versions).value ∧ needs later :=
    ⟨here.value later keeps, given later (here.keeps.trans here.grows keeps)⟩
  obtain ⟨last, there⟩ := two (first versions).value (first versions).versions mid here.bounded
    here.agrees known
  refine ⟨last, ?_, ?_, there.agrees, there.bounded, here.keeps.trans here.grows there.keeps,
    fun name => Nat.le_trans (here.grows name) (there.grows name), there.value⟩
  · rw [Lower.bind_apply, Emission.append, List.forall_mem_append]
    exact ⟨here.scalar, there.scalar⟩
  · rw [Lower.bind_apply, Emission.append, Instruction.runAll_append, here.runs]
    exact there.runs

theorem mono {step : Lower α} {wider : Env D → Prop} {holds fewer : Env D → α → Prop}
    (simulates : Simulates meaning wider step store after holds)
    (given : ∀ env, needs env → wider env)
    (known : ∀ env value, holds env value → fewer env value) :
    Simulates meaning needs step store after fewer := by
  intro versions env bounded agrees needed
  obtain ⟨last, done⟩ := simulates versions env bounded agrees fun later keeps =>
    given later (needed later keeps)
  exact ⟨last, done.scalar, done.runs, done.agrees, done.bounded, done.keeps, done.grows,
    fun later keeps => known later _ (done.value later keeps)⟩

end Simulates

theorem use_simulates (name : String) :
    Simulates meaning needs (Lower.use name) store store fun env read => env read = store name := by
  intro versions env bounded agrees _
  refine ⟨env, by simp [Lower.use], rfl, agrees, bounded, fun _ _ => rfl, fun _ => Nat.le_refl _,
    ?_⟩
  intro later keeps
  exact (keeps (versions.read name) (bounded name)).trans (agrees name)

theorem write_simulates {step : Lower α} {name : String} {result : D} {holds : Env D → α → Prop}
    (writes : ∀ versions env, Agrees env versions store → needs env → ∃ assignment : Assignment,
      (step versions).emission.instructions = [.assign assignment] ∧
        assignment.target = (versions.define name).1 ∧ assignment.implied = [] ∧
        assignment.result meaning env = some result)
    (defines : ∀ versions, (step versions).versions = (versions.define name).2)
    (value : ∀ versions env, env (versions.define name).1 = result →
      holds env (step versions).value) :
    Simulates meaning needs step store (Function.update store name result) holds := by
  intro versions env bounded agrees given
  have now := given env fun _ _ => rfl
  obtain ⟨assignment, emits, target, single, computed⟩ := writes versions env agrees now
  have advances := Versions.Advances.define versions name
  let last := Function.update env (versions.define name).1 result
  have apart (kept : Variable) (counted : kept.version ≤ versions.counter.version kept.name) :
      last kept = env kept := by
    apply Function.update_of_ne
    rintro rfl
    exact Nat.not_succ_le_self _ counted
  refine ⟨last, ?_, ?_, ?_, ?_, apart, ?_, ?_⟩
  · rw [emits]
    simp [Instruction.isScalar, single]
  · rw [emits]
    simp [Instruction.runAll, Instruction.run, single, computed, target, last]
  · intro other
    rw [defines]
    by_cases same : other = name
    · subst same
      have read : (versions.define other).2.read other = (versions.define other).1 := by
        simp [Versions.read, Versions.define, Versions.allocate, Versions.setCurrent]
      rw [read]
      simp [last]
    · have read : (versions.define name).2.read other = versions.read other := by
        simp [Versions.read, same]
      rw [read, apart _ (bounded other), agrees other, Function.update_of_ne same]
  · rw [defines]
    exact advances.bounded bounded
  · rw [defines]
    exact advances.counter
  · intro later keeps
    apply value
    have counted : (versions.define name).1.version ≤
        (step versions).versions.counter.version (versions.define name).1.name := by
      rw [defines]
      simp [Versions.define, Versions.allocate, Versions.setCurrent]
    rw [keeps _ counted]
    simp [last]

def Meaning.updated (meaning : Meaning D) (operator : String) (old right : D) : D :=
  if operator = "" then right else meaning.binary operator old right

theorem store_simulates {target : Expression} (named : target.isVariable = true)
    (operator : String) {value : Value} {right : D}
    (computes : ∀ env, needs env → value.eval meaning env = some right) :
    Simulates meaning needs (Lower.store target operator value) store
      (Function.update store target.variableName
        (meaning.updated operator (store target.variableName) right))
      fun env written =>
        env written = meaning.updated operator (store target.variableName) right := by
  cases target with
  | identifier name predefined =>
    apply write_simulates
    · intro versions env agrees now
      refine ⟨Lower.storeAssignment (.identifier name predefined) operator value versions, ?_⟩
      rw [Lower.store_apply]
      refine ⟨rfl, ?_⟩
      have previous : env (versions.read name) = store name := agrees name
      have location : (Expression.identifier name predefined).locationName = name := rfl
      unfold Lower.storeAssignment Meaning.updated
      split
      next => exact ⟨rfl, rfl, computes env now⟩
      next =>
        refine ⟨rfl, rfl, ?_⟩
        simp [Assignment.result, computes env now, location, previous, Expression.variableName]
    · intro versions
      rw [Lower.store_apply, Lower.defineAll_cons]
      rfl
    · intro versions env holds
      rw [Lower.store_apply]
      exact holds
  | _ => cases named

theorem bindNames_simulates {part : Nat → Value} {names : List String} {values : List D}
    (index : Nat) (lengths : values.length = names.length) (named : ∀ name ∈ names, name ≠ "")
    (computes : ∀ offset value, values[offset]? = some value → ∀ env, needs env →
      (part (index + offset)).eval meaning env = some value) :
    Simulates meaning needs (Lower.bindNames part index names) store
      (Store.setAll store names values) fun _ _ => True := by
  induction names generalizing index values store with
  | nil =>
    have none : values = [] := List.length_eq_zero_iff.mp lengths
    subst none
    exact .pure fun _ _ => trivial
  | cons name rest ih =>
    rw [List.forall_mem_cons] at named
    cases values with
    | nil => cases lengths
    | cons value others =>
      rw [Lower.bindNames, if_pos named.1]
      have first : Simulates meaning needs
          (Lower.define name >>= fun target => Lower.emit (.assign { target, value := part index }))
          store (Function.update store name value) fun _ _ => True := by
        apply write_simulates
        · intro versions env _ now
          exact ⟨_, rfl, rfl, rfl, computes 0 value rfl env now⟩
        · exact fun _ => rfl
        · exact fun _ _ _ => trivial
      have shifted (offset : Nat) (found : D) (located : others[offset]? = some found)
          (env : Env D) (now : needs env) :
          (part (index + 1 + offset)).eval meaning env = some found := by
        rw [Nat.add_assoc, Nat.add_comm 1]
        exact computes (offset + 1) found located env now
      have later : Simulates meaning needs (Lower.bindNames part (index + 1) rest)
          (Function.update store name value)
          (Store.setAll (Function.update store name value) rest others) fun _ _ => True :=
        ih (index + 1) (Nat.succ.inj lengths) named.2 shifted
      have joined := first.bind fun _ => later.mono (fun _ given => given.2) fun _ _ known => known
      rw [bind_assoc] at joined
      exact joined

end Steps

theorem stepOperator_eq {operator : String} (updates : operator.toList.getLast? = some '=') :
    Expression.stepOperator operator = String.ofList operator.toList.dropLast := by
  obtain ⟨front, split⟩ := List.getLast?_eq_some_iff.mp updates
  simp [Expression.stepOperator, split]

theorem stepOperator_eq_empty {operator : String} (updates : operator.toList.getLast? = some '=') :
    Expression.stepOperator operator = "" ↔ operator = "=" := by
  obtain ⟨front, split⟩ := List.getLast?_eq_some_iff.mp updates
  rw [stepOperator_eq updates, split, List.dropLast_concat]
  constructor
  · intro empty
    have none : front = [] := by simpa using congrArg String.toList empty
    rw [← String.ofList_toList (s := operator), split, none]
    rfl
  · rintro rfl
    cases front with
    | nil => rfl
    | cons head tail => simp at split

/-- A value that can be evaluated is no tuple, so it goes to a target as a whole. -/
theorem Value.component_eq {env : Env D} {value : Value} {result : D}
    (computed : value.eval meaning env = some result) (count index : Nat) :
    component count (some value) index = value := by
  cases value with
  | tuple items => cases computed
  | _ => rfl

namespace Expression

variable (scope : Scope)

theorem isMissing_of_isScalar {expression : Expression} (scalar : expression.isScalar = true) :
    expression.isMissing = false := by
  cases expression with
  | missing => cases scalar
  | _ => rfl

theorem isMissing_of_isVariable {expression : Expression} (named : expression.isVariable = true) :
    expression.isMissing = false := by
  cases expression with
  | missing => cases named
  | _ => rfl

theorem lowerKeys_variable {expression : Expression} (named : expression.isVariable = true) :
    lowerKeys scope expression = Pure.pure () := by
  cases expression with
  | identifier name _ => rfl
  | _ => cases named

theorem locationName_variable {expression : Expression} (named : expression.isVariable = true) :
    expression.locationName = expression.variableName := by
  cases expression with
  | identifier name _ => rfl
  | _ => cases named

mutual

theorem lower_simulates (needs : Env D → Prop) : ∀ (expression : Expression) (store : Store D),
    expression.isScalar = true →
      Simulates meaning needs (expression.lower scope) store (expression.eval meaning store).2
        fun env value => value.eval meaning env = some (expression.eval meaning store).1
  | identifier name _, store, _ => by
    rw [lower, eval]
    refine (use_simulates name).bind fun read => .pure fun env given => ?_
    rw [Value.eval, given.1]
  | literal value, store, _ => by
    rw [lower, eval]
    exact .pure fun _ _ => rfl
  | binary operator left right, store, scalar => by
    rw [isScalar, Bool.and_eq_true] at scalar
    rw [lower, eval]
    refine (lower_simulates needs left store scalar.1).bind fun first => ?_
    refine (lower_simulates _ right _ scalar.2).bind fun second => .pure fun env given => ?_
    simp [Value.eval, given.1, given.2.1]
  | unary operator leading operand, store, scalar => by
    rw [isScalar] at scalar
    split at scalar
    next writes =>
      rw [lower, if_neg (by simp [isMissing_of_isVariable scalar]), lowerKeys_variable scope scalar]
      by_cases steps : operator = "++" ∨ operator = "--"
      · have notDelete : operator ≠ "delete" := by
          rcases steps with rfl | rfl <;> decide
        rw [if_pos steps, eval, if_neg notDelete, if_pos steps, locationName_variable scalar]
        simp only [pure_bind]
        let sign := if operator = "++" then "+" else "-"
        have signed (old right : D) :
            meaning.updated sign old right = meaning.binary sign old right := by
          unfold Meaning.updated sign
          split <;> rfl
        refine (use_simulates operand.variableName).bind fun before => ?_
        have stored : Simulates meaning
            (fun env => env before = store operand.variableName ∧ needs env)
            (Lower.store operand sign (.literal "1")) store _ _ :=
          store_simulates scalar sign fun _ _ => rfl
        rw [signed] at stored
        refine stored.bind fun after => .pure fun env given => ?_
        cases leading with
        | true => exact congrArg some given.1
        | false => exact congrArg some given.2.1
      · have deletes : operator = "delete" := (writesOperand_iff.mp writes).resolve_left steps
        rw [if_neg steps, if_pos deletes, eval, if_pos deletes, pure_bind]
        have stored : Simulates meaning needs (Lower.store operand "" (.literal "0")) store _ _ :=
          store_simulates scalar "" fun _ _ => rfl
        exact stored.bind fun _ => .pure fun _ _ => rfl
    next reads =>
      have present := isMissing_of_isScalar scalar
      rw [writesOperand_iff] at reads
      have neither := not_or.mp reads
      rw [lower, if_neg (by simp [present]), if_neg neither.1, if_neg neither.2, eval,
        if_neg neither.2, if_neg neither.1]
      refine (lower_simulates needs operand store scalar).bind fun inner =>
        .pure fun env given => ?_
      simp [Value.eval, given.1]
  | assign operator target value, store, scalar => by
    rw [isScalar, Bool.and_eq_true, Bool.and_eq_true] at scalar
    obtain ⟨⟨updates, named⟩, inner⟩ := scalar
    have updates : operator.toList.getLast? = some '=' := by simpa using updates
    have present := isMissing_of_isScalar inner
    have right := lower_simulates needs value store inner
    have result (old new : D) : meaning.updated (stepOperator operator) old new =
        if operator = "=" then new
        else meaning.binary (String.ofList operator.toList.dropLast) old new := by
      unfold Meaning.updated
      by_cases plain : operator = "="
      · rw [if_pos ((stepOperator_eq_empty updates).mpr plain), if_pos plain]
      · rw [if_neg fun empty => plain ((stepOperator_eq_empty updates).mp empty), if_neg plain,
          stepOperator_eq updates]
    cases target with
    | identifier name predefined =>
      rw [lower, if_neg (by simp [present]), eval]
      refine right.bind fun stored => ?_
      have written : Simulates meaning
          (fun env => stored.eval meaning env = some (value.eval meaning store).1 ∧ needs env)
          (Lower.store (.identifier name predefined) (stepOperator operator) stored)
          (value.eval meaning store).2 _ _ :=
        store_simulates rfl (stepOperator operator) fun _ given => given.1
      rw [result] at written
      dsimp only
      rw [lowerKeys_variable scope rfl, pure_bind]
      exact written.bind fun after => .pure fun env given => congrArg some given.1
    | _ => cases named
  | tuple isArray components, store, scalar => by
    rw [isScalar, Bool.and_eq_true, Bool.and_eq_true] at scalar
    obtain ⟨⟨plain, single⟩, inner⟩ := scalar
    have plain : isArray = false := by simpa using plain
    obtain ⟨component, rfl⟩ : ∃ component, components = [component] :=
      List.length_eq_one_iff.mp (by simpa using single)
    have present : component.isMissing = false := by
      rw [areScalar, Bool.and_eq_true] at inner
      exact isMissing_of_isScalar inner.1
    rw [lower_tuple, eval]
    refine (lowerComponents_simulates needs [component] store inner).bind fun items =>
      .pure fun env given => ?_
    obtain ⟨known, _⟩ := given
    simp only [evalAll] at known ⊢
    match items, known with
    | [item], .cons head .nil =>
      rw [plain, tupleValue, if_neg (by simp [present])]
      exact head

theorem lowerComponents_simulates (needs : Env D → Prop) :
    ∀ (components : List Expression) (store : Store D), areScalar components = true →
      Simulates meaning needs (lowerComponents scope components) store
        (evalAll meaning components store).2 fun env values =>
          List.Forall₂ (fun value result => value.eval meaning env = some result) values
            (evalAll meaning components store).1
  | [], store, _ => .pure fun _ _ => .nil
  | first :: rest, store, scalar => by
    rw [areScalar, Bool.and_eq_true] at scalar
    rw [lowerComponents, if_neg (by simp [isMissing_of_isScalar scalar.1]), evalAll]
    refine (lower_simulates needs first store scalar.1).bind fun value => ?_
    refine (lowerComponents_simulates _ rest _ scalar.2).bind fun others =>
      .pure fun env given => ?_
    exact .cons given.2.1 given.1

end

theorem length_evalAll (components : List Expression) (store : Store D) :
    (evalAll meaning components store).1.length = components.length := by
  induction components generalizing store with
  | nil => rfl
  | cons first rest ih => simp [evalAll, ih]

theorem suits_cases {count : Nat} {value : Expression} (fits : value.suits count = true) :
    value = missing ∨
      (∃ components, value = tuple false components ∧ components.length = count ∧
        areScalar components = true) ∨
      (count = 1 ∧ value.isScalar = true ∧ ∀ store : Store D,
        value.evalParts meaning count store =
          ([(value.eval meaning store).1], (value.eval meaning store).2)) := by
  cases value with
  | missing => exact .inl rfl
  | tuple isArray components =>
    rw [suits, Bool.and_eq_true, Bool.and_eq_true] at fits
    obtain ⟨⟨plain, length⟩, scalar⟩ := fits
    have plain : isArray = false := by simpa using plain
    exact .inr (.inl ⟨components, by rw [plain], by simpa using length, scalar⟩)
  | _ =>
    rw [suits, Bool.and_eq_true] at fits
    · exact .inr (.inr ⟨by simpa using fits.1, fits.2, fun _ => rfl⟩)
    all_goals simp

theorem length_evalParts {count : Nat} {value : Expression} (fits : value.suits count = true)
    (store : Store D) : (value.evalParts meaning count store).1.length = count := by
  rcases suits_cases meaning fits with rfl | ⟨components, rfl, length, _⟩ | ⟨single, _, parts⟩
  · exact List.length_replicate
  · exact (length_evalAll meaning components store).trans length
  · rw [parts store, single]
    rfl

theorem getElem?_of_forall₂ {α β : Type} {relation : α → β → Prop} {left : List α} {right : List β}
    (related : List.Forall₂ relation left right) {index : Nat} {second : β}
    (located : right[index]? = some second) :
    ∃ first, left[index]? = some first ∧ relation first second := by
  induction related generalizing index with
  | nil => simp at located
  | @cons first _ _ _ here _ ih =>
    cases index with
    | zero =>
      obtain rfl := Option.some.inj located
      exact ⟨first, rfl, here⟩
    | succ index => exact ih located

theorem component_tupleValue {env : Env D} {components : List Expression} {items : List Value}
    {results : List D} (scalar : areScalar components = true)
    (lengths : components.length = results.length)
    (related :
      List.Forall₂ (fun value result => value.eval meaning env = some result) items results)
    {offset : Nat} {result : D} (located : results[offset]? = some result) :
    (Value.component components.length (some (tupleValue false components items)) offset).eval
      meaning env = some result := by
  obtain ⟨item, here, computed⟩ := getElem?_of_forall₂ related located
  have counted : items.length = components.length := related.length_eq.trans lengths.symm
  match components, items, counted with
  | [component], [single], _ =>
    rw [areScalar, Bool.and_eq_true] at scalar
    have present := isMissing_of_isScalar scalar.1
    cases offset with
    | zero =>
      obtain rfl := Option.some.inj here
      rw [tupleValue, if_neg (by simp [present]), Value.component_eq meaning computed]
      exact computed
    | succ offset => simp at here
  | [], items, counted =>
    simp [List.length_eq_zero_iff.mp counted] at here
  | first :: second :: rest, items, counted =>
    simp [tupleValue, Value.component, counted, here, computed]

theorem lower_suits_simulates (needs : Env D → Prop) {count : Nat} {value : Expression}
    (fits : value.suits count = true) (present : value.isMissing = false) (store : Store D) :
    Simulates meaning needs (value.lower scope) store (value.evalParts meaning count store).2
      fun env stored => ∀ offset result,
        (value.evalParts meaning count store).1[offset]? = some result →
          (Value.component count (some stored) offset).eval meaning env = some result := by
  rcases suits_cases meaning fits with rfl | ⟨components, rfl, rfl, scalar⟩ | ⟨rfl, scalar, parts⟩
  · cases present
  · rw [lower_tuple, evalParts]
    refine (lowerComponents_simulates meaning scope needs components store scalar).bind fun items =>
      .pure fun env given offset result located => ?_
    exact component_tupleValue meaning scalar (length_evalAll meaning components store).symm
      given.1 located
  · rw [parts store]
    refine (lower_simulates meaning scope needs value store scalar).mono (fun _ given => given) ?_
    intro env stored computed offset result located
    cases offset with
    | zero =>
      obtain rfl := Option.some.inj located
      rw [Value.component_eq meaning computed]
      exact computed
    | succ offset => simp at located

theorem storeComponents_simulates {needs : Env D → Prop} {part : Nat → Value}
    {targets : List Expression} {values : List D} (index : Nat)
    (lengths : values.length = targets.length)
    (named : ∀ target ∈ targets, target.isVariable = true)
    (computes : ∀ offset value, values[offset]? = some value → ∀ env, needs env →
      (part (index + offset)).eval meaning env = some value) (store : Store D) :
    Simulates meaning needs (storeComponents scope part index targets) store
      (store.setAll (targets.map variableName) values) fun _ _ => True := by
  induction targets generalizing needs index values store with
  | nil => exact .pure fun _ _ => trivial
  | cons target rest ih =>
    rw [List.forall_mem_cons] at named
    cases values with
    | nil => cases lengths
    | cons value others =>
      have present := isMissing_of_isVariable named.1
      have stored : Simulates meaning needs (Lower.store target "" (part index)) store
          (Function.update store target.variableName value) fun _ _ => True :=
        (store_simulates named.1 "" fun env now => computes 0 value rfl env now).mono
          (fun _ given => given) fun _ _ _ => trivial
      have shifted (offset : Nat) (found : D) (located : others[offset]? = some found)
          (env : Env D) (now : True ∧ needs env) :
          (part (index + 1 + offset)).eval meaning env = some found := by
        rw [Nat.add_assoc, Nat.add_comm 1]
        exact computes (offset + 1) found located env now.2
      rw [storeComponents, if_neg (by simp [present]), lowerKeys_variable scope named.1, pure_bind]
      refine stored.bind fun _ => ?_
      refine (ih (index + 1) (Nat.succ.inj lengths) named.2 shifted _).bind fun _ => ?_
      exact .pure fun _ _ => trivial

end Expression

namespace Statement

variable (scope : Scope)

theorem lower_expression_simulates {value : Expression} (scalar : value.isScalar = true)
    (needs : Env D → Prop) (store : Store D) :
    Simulates meaning needs ((expression value).lower scope) store (value.eval meaning store).2
      fun _ _ => True := by
  have computes := value.lower_simulates meaning scope needs store scalar
  rw [lower, if_neg (by simp [Expression.isMissing_of_isScalar scalar])]
  split
  · exact computes.bind fun _ => .pure fun _ _ => trivial
  · refine computes.bind fun lowered versions env bounded agrees given => ?_
    have known := (given env fun _ _ => rfl).1
    refine ⟨env, ?_, ?_, agrees, bounded, fun _ _ => rfl, fun _ => Nat.le_refl _,
      fun _ _ => trivial⟩
    · simp [Lower.emit, Instruction.isScalar]
    · simp [Lower.emit, Instruction.runAll, Instruction.run, known]

theorem lower_tuple_simulates {operator : String} {isArray : Bool} {targets : List Expression}
    {value : Expression} (named : ∀ target ∈ targets, target.isVariable = true)
    (present : value.isMissing = false) (fits : value.suits targets.length = true)
    (needs : Env D → Prop) (store : Store D) :
    Simulates meaning needs
      ((expression (.assign operator (.tuple isArray targets) value)).lower scope) store
      ((value.evalParts meaning targets.length store).2.setAll
        (targets.map Expression.variableName) (value.evalParts meaning targets.length store).1)
      fun _ _ => True := by
  have computes := Expression.lower_suits_simulates meaning scope needs fits present store
  have lengths := Expression.length_evalParts meaning fits store
  rw [lower, if_neg (by simp [Expression.isMissing]),
    if_pos (by simp [Expression.leavesInstruction]), Expression.lower, if_neg (by simp [present])]
  rw [bind_assoc]
  refine computes.bind fun stored => ?_
  dsimp only
  rw [bind_assoc]
  refine (Expression.storeComponents_simulates meaning scope 0 lengths named ?_ _).bind fun _ => ?_
  case refine_2 =>
    rw [pure_bind]
    exact .pure fun _ _ => trivial
  intro offset result located env now
  rw [Nat.zero_add]
  exact now.1 offset result located

theorem lower_declare_simulates {targets : List (Option Declaration)} {value : Expression}
    (named : ∀ target ∈ targets, (target.any fun declared => declared.name != "") = true)
    (fits : value.suits targets.length = true) (needs : Env D → Prop) (store : Store D) :
    Simulates meaning needs ((declare targets value).lower scope) store
      ((declare targets value).exec meaning store) fun _ _ => True := by
  let names := targets.map fun target => (target.map (·.name)).getD ""
  have lengths : (value.evalParts meaning targets.length store).1.length = names.length := by
    rw [Expression.length_evalParts meaning fits, List.length_map]
  have filled : ∀ name ∈ names, name ≠ "" := by
    intro name member
    obtain ⟨target, inside, rfl⟩ := List.mem_map.mp member
    have given := named target inside
    cases target with
    | none => cases given
    | some declared => simpa using given
  rw [lower, exec]
  cases present : value.isMissing with
  | true =>
    obtain rfl : value = .missing := by
      cases value with
      | missing => rfl
      | _ => cases present
    rw [if_pos rfl, pure_bind]
    refine bindNames_simulates 0 lengths filled fun offset result located env _ => ?_
    have zero : result = meaning.literal "0" :=
      List.eq_of_mem_replicate (List.mem_of_getElem? located)
    rw [zero]
    rfl
  | false =>
    have computes := Expression.lower_suits_simulates meaning scope needs fits present store
    rw [if_neg (by simp), map_eq_pure_bind, bind_assoc]
    refine computes.bind fun stored => ?_
    rw [pure_bind]
    refine bindNames_simulates 0 lengths filled fun offset result located env now => ?_
    rw [Nat.zero_add]
    exact now.1 offset result located

theorem lower_simulates {statement : Statement} (scalar : statement.isScalar = true)
    (needs : Env D → Prop) (store : Store D) :
    Simulates meaning needs (statement.lower scope) store (statement.exec meaning store)
      fun _ _ => True := by
  cases statement with
  | expression value =>
    cases value with
    | assign operator target right =>
      cases target with
      | tuple isArray targets =>
        simp only [isScalar, Bool.and_eq_true, List.all_eq_true, Bool.not_eq_true'] at scalar
        obtain ⟨⟨⟨_, named⟩, present⟩, fits⟩ := scalar
        exact lower_tuple_simulates meaning scope named present fits needs store
      | _ => exact lower_expression_simulates meaning scope scalar needs store
    | _ => exact lower_expression_simulates meaning scope scalar needs store
  | declare targets value =>
    rw [isScalar, Bool.and_eq_true, List.all_eq_true] at scalar
    exact lower_declare_simulates meaning scope scalar.1 scalar.2 needs store
  | _ => cases scalar

theorem lowerBody_simulates {statements : List Statement}
    (scalar : ∀ statement ∈ statements, statement.isScalar = true) (needs : Env D → Prop)
    (store : Store D) :
    Simulates meaning needs (lowerBody scope statements) store (execAll meaning statements store)
      fun _ _ => True := by
  induction statements generalizing needs store with
  | nil => exact .pure fun _ _ => trivial
  | cons first rest ih =>
    rw [List.forall_mem_cons] at scalar
    rw [lowerBody]
    exact (lower_simulates meaning scope scalar.1 needs store).bind fun _ => ih scalar.2 _ _

end Statement
end Reentrancy
