import Mathlib.Data.List.Basic
import Reentrancy.Proofs.Meaning.Lowering
import Reentrancy.Proofs.Table

/-! Straight-line programs with calls. A caller is made of scalar statements and of calls `f();`
to functions whose bodies are scalar; in the source language a call runs the body in its place.
What a program does depends on the variables that it names, and on no others. -/
namespace Reentrancy

namespace Expression

mutual

def names : Expression → List String
  | identifier name _ => [name]
  | binary _ left right => left.names ++ right.names
  | unary _ _ operand => operand.names
  | assign _ target value => target.names ++ value.names
  | tuple _ components => namesAll components
  | _ => []

def namesAll : List Expression → List String
  | [] => []
  | first :: rest => first.names ++ namesAll rest

end

end Expression

def Statement.names : Statement → List String
  | expression value => value.names
  | declare targets value =>
    targets.map (fun target => (target.map (·.name)).getD "") ++ value.names
  | _ => []

def Store.AgreesOn {D : Type} (names : String → Prop) (one two : Store D) : Prop :=
  ∀ name, names name → one name = two name

namespace Store.AgreesOn

variable {D : Type} {names : String → Prop} {one two : Store D}

theorem update (agrees : AgreesOn names one two) (name : String) (value : D) :
    AgreesOn names (Function.update one name value) (Function.update two name value) := by
  intro other inside
  by_cases same : other = name
  · rw [same, Function.update_self, Function.update_self]
  · rw [Function.update_of_ne same, Function.update_of_ne same]
    exact agrees other inside

theorem setAll (agrees : AgreesOn names one two) (targets : List String) (values : List D) :
    AgreesOn names (one.setAll targets values) (two.setAll targets values) := by
  induction targets generalizing one two values with
  | nil => exact agrees
  | cons target rest ih =>
    cases values with
    | nil => exact agrees
    | cons value others => exact ih (agrees.update target value) others

end Store.AgreesOn

section Names

variable {D : Type} (meaning : Meaning D) {among : String → Prop}

namespace Expression

theorem variableName_mem {target : Expression} (named : target.isVariable = true) :
    target.variableName ∈ target.names := by
  cases target with
  | identifier name _ => exact List.mem_singleton_self name
  | _ => cases named

mutual

theorem eval_agrees : ∀ {expression : Expression} {one two : Store D},
    expression.isScalar = true → (∀ name ∈ expression.names, among name) →
    Store.AgreesOn among one two →
    (expression.eval meaning one).1 = (expression.eval meaning two).1 ∧
      Store.AgreesOn among (expression.eval meaning one).2 (expression.eval meaning two).2
  | identifier name _, _, _, _, inside, agrees =>
    ⟨agrees name (inside name (List.mem_singleton_self name)), agrees⟩
  | literal _, _, _, _, _, agrees => ⟨rfl, agrees⟩
  | binary operator left right, one, two, scalar, inside, agrees => by
    rw [isScalar, Bool.and_eq_true] at scalar
    rw [Expression.names, List.forall_mem_append] at inside
    obtain ⟨first, middle⟩ := eval_agrees scalar.1 inside.1 agrees
    obtain ⟨second, after⟩ := eval_agrees scalar.2 inside.2 middle
    simp only [eval]
    exact ⟨by rw [first, second], after⟩
  | unary operator leading operand, one, two, scalar, inside, agrees => by
    rw [isScalar] at scalar
    rw [Expression.names] at inside
    simp only [eval]
    split
    next => exact ⟨rfl, agrees.update _ _⟩
    next other =>
      split
      next steps =>
        have named : operand.isVariable = true := by
          rcases steps with rfl | rfl <;> simpa [writesOperand] using scalar
        rw [agrees _ (inside _ (variableName_mem named))]
        exact ⟨rfl, agrees.update _ _⟩
      next none =>
        rw [not_or] at none
        have plain : operand.isScalar = true := by
          simpa [writesOperand, other, none.1, none.2] using scalar
        obtain ⟨inner, after⟩ := eval_agrees plain inside agrees
        exact ⟨by rw [inner], after⟩
  | assign operator target value, one, two, scalar, inside, agrees => by
    rw [isScalar, Bool.and_eq_true, Bool.and_eq_true] at scalar
    rw [Expression.names, List.forall_mem_append] at inside
    obtain ⟨right, after⟩ := eval_agrees scalar.2 inside.2 agrees
    have before := after _ (inside.1 _ (variableName_mem scalar.1.2))
    simp only [eval]
    rw [right, before]
    exact ⟨rfl, after.update _ _⟩
  | tuple isArray components, one, two, scalar, inside, agrees => by
    rw [isScalar, Bool.and_eq_true] at scalar
    obtain ⟨values, after⟩ := evalAll_agrees scalar.2 inside agrees
    simp only [eval]
    exact ⟨by rw [values], after⟩

theorem evalAll_agrees : ∀ {components : List Expression} {one two : Store D},
    areScalar components = true → (∀ name ∈ namesAll components, among name) →
    Store.AgreesOn among one two →
    (evalAll meaning components one).1 = (evalAll meaning components two).1 ∧
      Store.AgreesOn among (evalAll meaning components one).2 (evalAll meaning components two).2
  | [], _, _, _, _, agrees => ⟨rfl, agrees⟩
  | first :: rest, one, two, scalar, inside, agrees => by
    rw [areScalar, Bool.and_eq_true] at scalar
    rw [namesAll, List.forall_mem_append] at inside
    obtain ⟨value, middle⟩ := eval_agrees scalar.1 inside.1 agrees
    obtain ⟨others, after⟩ := evalAll_agrees scalar.2 inside.2 middle
    simp only [evalAll]
    exact ⟨by rw [value, others], after⟩

end

theorem evalParts_agrees {count : Nat} {value : Expression} (fits : value.suits count = true)
    {one two : Store D} (inside : ∀ name ∈ value.names, among name)
    (agrees : Store.AgreesOn among one two) :
    (value.evalParts meaning count one).1 = (value.evalParts meaning count two).1 ∧
      Store.AgreesOn among (value.evalParts meaning count one).2
        (value.evalParts meaning count two).2 := by
  rcases suits_cases meaning fits with rfl | ⟨components, rfl, _, scalar⟩ | ⟨_, scalar, parts⟩
  · exact ⟨rfl, agrees⟩
  · exact evalAll_agrees meaning scalar inside agrees
  · obtain ⟨single, after⟩ := eval_agrees meaning scalar inside agrees
    rw [parts one, parts two]
    exact ⟨congrArg (fun value => [value]) single, after⟩

end Expression

namespace Statement

theorem exec_agrees {statement : Statement} (scalar : statement.isScalar = true)
    (inside : ∀ name ∈ statement.names, among name) {one two : Store D}
    (agrees : Store.AgreesOn among one two) :
    Store.AgreesOn among (statement.exec meaning one) (statement.exec meaning two) := by
  cases statement with
  | expression value =>
    have single (scalar : value.isScalar = true) :
        Store.AgreesOn among (value.eval meaning one).2 (value.eval meaning two).2 :=
      (value.eval_agrees meaning scalar inside agrees).2
    cases value with
    | assign operator target right =>
      cases target with
      | tuple isArray targets =>
        simp only [isScalar, Bool.and_eq_true] at scalar
        rw [Statement.names, Expression.names, List.forall_mem_append] at inside
        obtain ⟨values, after⟩ :=
          Expression.evalParts_agrees meaning scalar.2 inside.2 agrees
        simp only [exec]
        rw [values]
        exact after.setAll _ _
      | _ => exact single scalar
    | _ => exact single scalar
  | declare targets value =>
    rw [isScalar, Bool.and_eq_true] at scalar
    rw [Statement.names, List.forall_mem_append] at inside
    obtain ⟨values, after⟩ := Expression.evalParts_agrees meaning scalar.2 inside.2 agrees
    simp only [exec]
    rw [values]
    exact after.setAll _ _
  | _ => cases scalar

theorem execAll_agrees {statements : List Statement}
    (scalar : ∀ statement ∈ statements, statement.isScalar = true)
    (inside : ∀ statement ∈ statements, ∀ name ∈ statement.names, among name) {one two : Store D}
    (agrees : Store.AgreesOn among one two) :
    Store.AgreesOn among (execAll meaning statements one) (execAll meaning statements two) := by
  induction statements generalizing one two with
  | nil => exact agrees
  | cons first rest ih =>
    rw [List.forall_mem_cons] at scalar inside
    exact ih scalar.2 inside.2 (exec_agrees meaning scalar.1 inside.1 agrees)

end Statement
end Names

/-- The function that a call statement `f();` goes to. -/
def Statement.callee? : Statement → Option String
  | expression (.call form (.identifier name _) [] _ _) =>
    if form = .plain ∨ form = .unmarked then some name else none
  | _ => none

/-- No name of a call result. -/
def IsOrdinary (name : String) : Prop := ∀ call, name ≠ Versions.resultName call

/-- A straight-line function and the functions that it calls; of several with one name the last
one counts. -/
structure Program where
  scope : Scope
  root : String
  caller : List Statement
  functions : List (String × List Statement)
  scalar : ∀ function ∈ functions, ∀ statement ∈ function.2, statement.isScalar = true
  formed : ∀ statement ∈ caller, statement.isScalar = true ∨ ∃ name body,
    statement.callee? = some name ∧ (Table.ofList functions).get? name = some body ∧
      scope.classifyName name false = .internal ∧ '.' ∉ name.toList ∧ name ≠ root
  ordinary : ∀ statement ∈ caller ++ functions.flatMap (·.2), ∀ name ∈ statement.names,
    IsOrdinary name

namespace Program

variable (program : Program) {D : Type} (meaning : Meaning D)

/-- A call runs the body of its function in place. -/
def exec (statement : Statement) (store : Store D) : Store D :=
  match statement.callee?.bind (Table.ofList program.functions).get? with
  | some body => Statement.execAll meaning body store
  | none => statement.exec meaning store

def execAll (statements : List Statement) (store : Store D) : Store D :=
  statements.foldl (fun store statement => program.exec meaning statement store) store

def templates : Table Template :=
  Table.ofList (program.functions.map fun function =>
    (function.1, Template.ofBlocks [] (Body.build program.scope function.2).blocks))

def inlined (depth : Nat) : Body :=
  (Body.build program.scope program.caller).inline program.templates depth program.root

end Program
end Reentrancy
