import Reentrancy.Proofs.Inline.Names
import Reentrancy.Proofs.Lowering.Run

/-! What calls carry. An internal call names a function of the contract, and the text of an
argument does not start with an operator that reads as a name. -/
namespace Reentrancy

/-- Neither the text of the value nor that of its leftmost operand starts with an operator that
reads as a name. -/
def Value.Clear : Value → Prop
  | binary _ left _ => left.Clear
  | choice condition _ _ => condition.Clear
  | unary operator _ => Token.isName operator.toList = false
  | _ => True

/-- An internal call goes to one of the functions, by its name alone or after `super`, and its
arguments are clear. -/
def Instruction.Formed (functions : Names) : Instruction → Prop
  | call operation =>
    (∀ argument ∈ operation.arguments, argument.Clear) ∧
      (operation.type = .internal → ∃ name, functions.contains name = true ∧
        (operation.callee = name ∨ operation.callee = "super." ++ name))
  | _ => True

namespace Expression

mutual

def unaries : Expression → List String
  | missing | identifier .. | literal _ | typeName _ | new _ | other _ => []
  | member base _ _ => base.unaries
  | index base key lower upper => base.unaries ++ key.unaries ++ lower.unaries ++ upper.unaries
  | slice base key lower upper => base.unaries ++ key.unaries ++ lower.unaries ++ upper.unaries
  | binary _ left right => left.unaries ++ right.unaries
  | unary operator _ operand => operator :: operand.unaries
  | assign _ target value => target.unaries ++ value.unaries
  | conditional condition yes no => condition.unaries ++ yes.unaries ++ no.unaries
  | tuple _ components => unariesList components
  | call _ callee arguments _ _ => callee.unaries ++ unariesList arguments
  | options callee _ values => callee.unaries ++ unariesList values

def unariesList : List Expression → List String
  | [] => []
  | first :: rest => first.unaries ++ unariesList rest

end

end Expression

/-- An operator that cannot be taken for the start of a name; `delete` never gets into a text. -/
def isOperator (operator : String) : Bool :=
  operator == "delete" || !Token.isName operator.toList

namespace Lower

variable {α β : Type} {good : Instruction → Prop}

def Forms (good : Instruction → Prop) (step : Lower α) (result : α → Prop) : Prop :=
  ∀ versions, (∀ instruction ∈ (step versions).emission.instructions, good instruction) ∧
    result (step versions).value

namespace Forms

theorem pure {result : α → Prop} {value : α} (holds : result value) :
    Forms good (Pure.pure value) result :=
  fun _ => ⟨by simp, holds⟩

theorem bind {first : Lower α} {next : α → Lower β} {middle : α → Prop} {result : β → Prop}
    (here : Forms good first middle)
    (later : ∀ value, middle value → Forms good (next value) result) :
    Forms good (first >>= next) result := by
  intro versions
  obtain ⟨emitted, holds⟩ := here versions
  obtain ⟨others, ended⟩ := later _ holds (first versions).versions
  refine ⟨fun instruction member => ?_, ended⟩
  exact (List.mem_append.mp member).elim (emitted instruction) (others instruction)

theorem quiet {step : Lower α} (none : ∀ versions, (step versions).emission.instructions = []) :
    Forms good step fun _ => True :=
  fun versions => ⟨by simp [none], trivial⟩

end Forms

theorem use_forms (name : String) : Forms good (use name) fun _ => True :=
  .quiet fun _ => rfl

theorem emit_forms {instruction : Instruction} (holds : good instruction) :
    Forms good (emit instruction) fun _ => True :=
  fun _ => ⟨by simpa [emit] using holds, trivial⟩

theorem store_forms (functions : Names) (target : Expression) (operator : String) (value : Value) :
    Forms (Instruction.Formed functions) (store target operator value) fun _ => True := by
  intro versions
  rw [store_apply]
  exact ⟨by simp [Instruction.Formed], trivial⟩

theorem bindNames_forms (functions : Names) (part : Nat → Value) (names : List String)
    (index : Nat) :
    Forms (Instruction.Formed functions) (bindNames part index names) fun _ => True := by
  induction names generalizing index with
  | nil => exact .pure trivial
  | cons name rest ih =>
    have defined : Forms (Instruction.Formed functions) (define name) fun _ => True :=
      .quiet fun _ => rfl
    have bound (target : Variable) : Forms (Instruction.Formed functions)
        (emit (.assign { target, value := part index })) fun _ => True := emit_forms trivial
    rw [bindNames]
    split
    · exact defined.bind fun target _ => (bound target).bind fun _ _ => ih (index + 1)
    · exact ih (index + 1)

theorem invoke_forms {functions : Names} {callee : String} {type : CallType}
    {arguments : List Value} (clear : ∀ argument ∈ arguments, argument.Clear)
    (named : type = .internal → ∃ name, functions.contains name = true ∧
      (callee = name ∨ callee = "super." ++ name))
    (receiver : Option Value) (options : List (String × Value)) (location : Location) :
    Forms (Instruction.Formed functions) (invoke callee type receiver options arguments location)
      fun _ => True := by
  intro versions
  refine ⟨fun instruction member => ?_, trivial⟩
  obtain rfl := List.mem_singleton.mp member
  exact ⟨clear, named⟩

end Lower

namespace Scope

variable {scope : Scope}

theorem super_of_internal {resolved name : String} {receiver : Expression}
    (internal : scope.classifyReceiver resolved name receiver = .internal) :
    receiver.text = "super" ∧ scope.functions.contains name = true := by
  have parent : (receiver.isSuper && scope.functions.contains name) = true := by
    unfold classifyReceiver at internal
    dsimp only at internal
    grind
  rw [Bool.and_eq_true] at parent
  refine ⟨?_, parent.2⟩
  cases receiver with
  | identifier root _ => simpa [Expression.isSuper, Expression.text] using parent.1
  | _ => cases parent.1

theorem callee_of_internal {callee : Expression} (internal : scope.classify callee = .internal) :
    ∃ name, scope.functions.contains name = true ∧
      (callee.peeled.text = name ∨ callee.peeled.text = "super." ++ name) := by
  unfold classify at internal
  split at internal
  next name predefined peeled =>
    rw [peeled]
    have known : scope.functions.contains name = true := by
      unfold classifyName at internal
      grind
    exact ⟨name, known, .inl rfl⟩
  next receiver resolved name peeled =>
    rw [peeled]
    have inherited : scope.classifyReceiver resolved name receiver = .internal := by
      unfold classifyMember at internal
      grind
    obtain ⟨parent, known⟩ := super_of_internal inherited
    refine ⟨name, known, .inr ?_⟩
    rw [Expression.text, parent]
    rfl
  next => cases internal

end Scope

namespace Expression

open Lower

variable (scope : Scope)

def Fine (expression : Expression) : Prop :=
  ∀ operator ∈ expression.unaries, isOperator operator = true

def ListFine (expressions : List Expression) : Prop :=
  ∀ operator ∈ unariesList expressions, isOperator operator = true

theorem listFine_cons {first : Expression} {rest : List Expression} :
    ListFine (first :: rest) ↔ first.Fine ∧ ListFine rest := List.forall_mem_append

theorem unlessMissing_forms {expression : Expression} (text : String)
    (present : Forms (Instruction.Formed scope.functions) (expression.lower scope) Value.Clear) :
    Forms (Instruction.Formed scope.functions)
      (if expression.isMissing then Pure.pure (.literal text) else expression.lower scope)
      Value.Clear := by
  split
  · exact .pure trivial
  · exact present

mutual

theorem lower_forms : ∀ expression : Expression, expression.Fine →
    Forms (Instruction.Formed scope.functions) (expression.lower scope) Value.Clear
  | missing, _ => .pure trivial
  | identifier name _, _ => (use_forms name).bind fun _ _ => .pure trivial
  | literal _, _ => .pure trivial
  | member base type name, fine => by
    rw [lower]
    split
    · exact (lowerKeys_forms base fine).bind fun _ _ => (use_forms _).bind fun _ _ => .pure trivial
    · exact (lower_forms base fine).bind fun _ _ => .pure trivial
  | index base key lowest highest, fine => by
    simp only [Fine, unaries, List.forall_mem_append, and_assoc] at fine
    obtain ⟨baseFine, keyFine, lowestFine, highestFine⟩ := fine
    rw [lower]
    split
    · exact (lower_forms key keyFine).bind fun _ _ => (lowerKeys_forms base baseFine).bind
        fun _ _ => (use_forms _).bind fun _ _ => .pure trivial
    · exact (lower_forms base baseFine).bind fun _ _ => (lower_forms key keyFine).bind fun _ _ =>
        (lower_forms lowest lowestFine).bind fun _ _ =>
          (lower_forms highest highestFine).bind fun _ _ => .pure trivial
  | slice base key lowest highest, fine => by
    simp only [Fine, unaries, List.forall_mem_append, and_assoc] at fine
    obtain ⟨baseFine, keyFine, lowestFine, highestFine⟩ := fine
    rw [lower]
    exact (lower_forms base baseFine).bind fun _ _ => (lower_forms key keyFine).bind fun _ _ =>
      (lower_forms lowest lowestFine).bind fun _ _ =>
        (lower_forms highest highestFine).bind fun _ _ => .pure trivial
  | binary operator left right, fine => by
    simp only [Fine, unaries, List.forall_mem_append] at fine
    rw [lower]
    exact (lower_forms left fine.1).bind fun _ clear => (lower_forms right fine.2).bind
      fun _ _ => .pure clear
  | unary operator leading operand, fine => by
    simp only [Fine, unaries, List.forall_mem_cons] at fine
    obtain ⟨here, inside⟩ := fine
    rw [lower]
    split
    · exact .pure trivial
    · split
      · exact (use_forms _).bind fun _ _ => (lowerKeys_forms operand inside).bind fun _ _ =>
          (store_forms _ operand _ _).bind fun _ _ => .pure trivial
      · split
        · exact (lowerKeys_forms operand inside).bind fun _ _ =>
            (store_forms _ operand _ _).bind fun _ _ => .pure trivial
        next kept =>
          have plain : Token.isName operator.toList = false := by
            simpa [isOperator, kept] using here
          exact (lower_forms operand inside).bind fun _ _ => .pure plain
  | assign operator target value, fine => by
    simp only [Fine, unaries, List.forall_mem_append] at fine
    have valued := unlessMissing_forms scope "0" (lower_forms value fine.2)
    rw [lower, ite_then]
    refine valued.bind fun stored clear => ?_
    dsimp only
    split
    next => exact .pure clear
    next components =>
      exact (storeComponents_forms _ 0 components fine.1).bind fun _ _ => .pure trivial
    next =>
      exact (lowerKeys_forms target fine.1).bind fun _ _ => (store_forms _ target _ _).bind
        fun _ _ => .pure trivial
  | conditional condition yes no, fine => by
    simp only [Fine, unaries, List.forall_mem_append, and_assoc] at fine
    obtain ⟨conditionFine, yesFine, noFine⟩ := fine
    rw [lower]
    exact (lower_forms condition conditionFine).bind fun _ clear =>
      (lower_forms yes yesFine).bind fun _ _ => (lower_forms no noFine).bind fun _ _ => .pure clear
  | tuple isArray components, fine => by
    rw [lower]
    refine (lowerComponents_forms components fine).bind fun items clear => ?_
    split
    · split
      · exact .pure trivial
      · exact .pure (clear _ List.mem_cons_self)
    · exact .pure trivial
  | call form callee arguments _ location, fine => by
    simp only [Fine, unaries, List.forall_mem_append] at fine
    rw [lower]
    split
    · exact (lowerList_forms arguments fine.2).bind fun _ _ => .pure trivial
    · exact (lowerReceiver_forms callee fine.1).bind fun _ _ =>
        (lowerOptions_forms callee fine.1).bind fun _ _ =>
          (lowerList_forms arguments fine.2).bind fun _ clear =>
            (invoke_forms clear Scope.callee_of_internal _ _ location).bind fun _ _ => .pure trivial
  | options callee labels values, _ => .pure trivial
  | typeName _, _ => .pure trivial
  | new _, _ => .pure trivial
  | other _, _ => .pure trivial
termination_by expression => sizeOf expression

theorem lowerList_forms : ∀ expressions : List Expression, ListFine expressions →
    Forms (Instruction.Formed scope.functions) (lowerList scope expressions)
      fun values => ∀ value ∈ values, value.Clear
  | [], _ => .pure (by simp)
  | first :: rest, fine => by
    rw [listFine_cons] at fine
    rw [lowerList]
    exact (lower_forms first fine.1).bind fun _ clear => (lowerList_forms rest fine.2).bind
      fun _ others => .pure (List.forall_mem_cons.mpr ⟨clear, others⟩)
termination_by expressions => sizeOf expressions

theorem lowerComponents_forms : ∀ components : List Expression, ListFine components →
    Forms (Instruction.Formed scope.functions) (lowerComponents scope components)
      fun values => ∀ value ∈ values, value.Clear
  | [], _ => .pure (by simp)
  | first :: rest, fine => by
    rw [listFine_cons] at fine
    have taken := unlessMissing_forms scope "" (lower_forms first fine.1)
    rw [lowerComponents, ite_then]
    exact taken.bind fun _ clear => (lowerComponents_forms rest fine.2).bind
      fun _ others => .pure (List.forall_mem_cons.mpr ⟨clear, others⟩)
termination_by components => sizeOf components

theorem lowerKeys_forms : ∀ expression : Expression, expression.Fine →
    Forms (Instruction.Formed scope.functions) (lowerKeys scope expression) fun _ => True
  | index base key _ _, fine => by
    simp only [Fine, unaries, List.forall_mem_append, and_assoc] at fine
    rw [lowerKeys]
    exact (lower_forms key fine.2.1).bind fun _ _ => lowerKeys_forms base fine.1
  | member base _ _, fine => by
    rw [lowerKeys]
    exact lowerKeys_forms base fine
  | missing, _ | identifier .., _ | literal .., _ | slice .., _ | binary .., _ | unary .., _
  | assign .., _ | conditional .., _ | tuple .., _ | call .., _ | options .., _ | typeName .., _
  | new .., _ | other .., _ => .pure trivial
termination_by expression => sizeOf expression

theorem storeComponents_forms (part : Nat → Value) (index : Nat) :
    ∀ components : List Expression, ListFine components →
      Forms (Instruction.Formed scope.functions) (storeComponents scope part index components)
        fun _ => True
  | [], _ => .pure trivial
  | first :: rest, fine => by
    rw [listFine_cons] at fine
    rw [storeComponents]
    split
    · exact storeComponents_forms part (index + 1) rest fine.2
    · exact (lowerKeys_forms first fine.1).bind fun _ _ => (store_forms _ first _ _).bind fun _ _ =>
        (storeComponents_forms part (index + 1) rest fine.2).bind fun _ _ => .pure trivial
termination_by components => sizeOf components

theorem lowerReceiver_forms : ∀ callee : Expression, callee.Fine →
    Forms (Instruction.Formed scope.functions) (lowerReceiver scope callee) fun _ => True
  | options callee _ _, fine => by
    simp only [Fine, unaries, List.forall_mem_append] at fine
    rw [lowerReceiver]
    exact lowerReceiver_forms callee fine.1
  | member base _ _, fine => by
    rw [lowerReceiver]
    split
    · exact .pure trivial
    · exact (lower_forms base fine).bind fun _ _ => .pure trivial
  | missing, _ | identifier .., _ | literal .., _ | index .., _ | slice .., _ | binary .., _
  | unary .., _ | assign .., _ | conditional .., _ | tuple .., _ | call .., _ | typeName .., _
  | new .., _ | other .., _ => .pure trivial
termination_by callee => sizeOf callee

theorem lowerOptions_forms : ∀ callee : Expression, callee.Fine →
    Forms (Instruction.Formed scope.functions) (lowerOptions scope callee) fun _ => True
  | options callee labels values, fine => by
    simp only [Fine, unaries, List.forall_mem_append] at fine
    rw [lowerOptions]
    exact (lowerLabelled_forms labels values fine.2).bind fun _ _ =>
      (lowerOptions_forms callee fine.1).bind fun _ _ => .pure trivial
  | missing, _ | identifier .., _ | literal .., _ | member .., _ | index .., _ | slice .., _
  | binary .., _ | unary .., _ | assign .., _ | conditional .., _ | tuple .., _ | call .., _
  | typeName .., _ | new .., _ | other .., _ => .pure trivial
termination_by callee => sizeOf callee

theorem lowerLabelled_forms : ∀ (labels : List (Option String)) (values : List Expression),
    ListFine values →
      Forms (Instruction.Formed scope.functions) (lowerLabelled scope labels values) fun _ => True
  | label :: labels, first :: rest, fine => by
    rw [listFine_cons] at fine
    rw [lowerLabelled]
    exact (lower_forms first fine.1).bind fun _ _ =>
      (lowerLabelled_forms labels rest fine.2).bind fun _ _ => .pure trivial
  | [], [], _ | [], _ :: _, _ | _ :: _, [], _ => .pure trivial
termination_by _ values => sizeOf values

end

theorem listFine_iff {expressions : List Expression} :
    ListFine expressions ↔ ∀ expression ∈ expressions, expression.Fine := by
  induction expressions with
  | nil => simp [ListFine, unariesList]
  | cons first rest ih => rw [listFine_cons, ih, List.forall_mem_cons]

theorem lowerCondition_forms {condition : Expression} (fine : condition.Fine) :
    Forms (Instruction.Formed scope.functions) (condition.lowerCondition scope) fun _ => True := by
  have tested := unlessMissing_forms scope "true" (lower_forms scope condition fine)
  rw [lowerCondition, ite_then]
  exact tested.bind fun _ _ => emit_forms trivial

theorem lowerOptional_forms {expression : Expression} (fine : expression.Fine) :
    Forms (Instruction.Formed scope.functions)
      (if expression.isMissing then Pure.pure none else some <$> expression.lower scope)
      fun _ => True := by
  split
  · exact .pure trivial
  · rw [map_eq_pure_bind]
    exact (lower_forms scope expression fine).bind fun _ _ => .pure trivial

end Expression

namespace Statement

mutual

def expressions : Statement → List Expression
  | expression value => [value]
  | declare _ value => [value]
  | emit event => (event.map (·.arguments)).getD []
  | revert error => (error.map (·.arguments)).getD []
  | ret value => [value]
  | branch condition yes no => condition :: bodyExpressions yes ++ bodyExpressions no
  | forLoop start condition step body _ =>
    condition :: bodyExpressions start ++ bodyExpressions step ++ bodyExpressions body
  | whileLoop condition body _ => condition :: bodyExpressions body
  | doWhile condition body _ => condition :: bodyExpressions body
  | block body => bodyExpressions body
  | tryCall call clauses => call :: clauseExpressions clauses
  | other _ => []

def bodyExpressions : List Statement → List Expression
  | [] => []
  | first :: rest => first.expressions ++ bodyExpressions rest

def clauseExpressions : List (List String × List Statement) → List Expression
  | [] => []
  | (_, body) :: rest => bodyExpressions body ++ clauseExpressions rest

end

open Lower

variable (scope : Scope)

mutual

theorem lower_forms : ∀ statement : Statement,
    (∀ expression ∈ statement.expressions, expression.Fine) →
      Forms (Instruction.Formed scope.functions) (statement.lower scope) fun _ => True
  | expression value, fine => by
    simp only [expressions, List.forall_mem_singleton] at fine
    rw [lower]
    split
    · exact .pure trivial
    · split
      · exact (value.lower_forms scope fine).bind fun _ _ => .pure trivial
      · exact (value.lower_forms scope fine).bind fun _ _ => emit_forms trivial
  | declare targets value, fine => by
    simp only [expressions, List.forall_mem_singleton] at fine
    rw [lower, ite_then]
    exact (Expression.lowerOptional_forms scope fine).bind fun _ _ => bindNames_forms _ _ _ 0
  | emit none, _ => .pure trivial
  | emit (some event), fine => by
    rw [lower]
    exact (Expression.lowerList_forms scope _ (Expression.listFine_iff.mpr fine)).bind fun _ _ =>
      emit_forms trivial
  | revert none, _ => .pure trivial
  | revert (some error), fine => by
    rw [lower]
    refine (Expression.lowerList_forms scope _ (Expression.listFine_iff.mpr fine)).bind
      fun _ clear => ?_
    exact (invoke_forms clear (fun internal => by cases internal) _ _ _).bind fun _ _ =>
      .pure trivial
  | ret value, fine => by
    simp only [expressions, List.forall_mem_singleton] at fine
    rw [lower]
    split
    · exact emit_forms trivial
    · refine (value.lower_forms scope fine).bind fun lowered _ => ?_
      split <;> exact emit_forms trivial
  | branch condition yes no, fine => by
    simp only [expressions, List.cons_append, List.forall_mem_cons, List.forall_mem_append] at fine
    rw [lower]
    exact (Expression.lowerCondition_forms scope fine.1).bind fun _ _ =>
      (lowerBody_forms yes fine.2.1).bind fun _ _ => lowerBody_forms no fine.2.2
  | forLoop start condition step body _, fine => by
    simp only [expressions, List.cons_append, List.forall_mem_cons, List.forall_mem_append,
      and_assoc] at fine
    obtain ⟨conditionFine, startFine, stepFine, bodyFine⟩ := fine
    rw [lower]
    exact (lowerBody_forms start startFine).bind fun _ _ =>
      (Expression.lowerCondition_forms scope conditionFine).bind fun _ _ =>
        (lowerBody_forms body bodyFine).bind fun _ _ => lowerBody_forms step stepFine
  | whileLoop condition body _, fine => by
    simp only [expressions, List.forall_mem_cons] at fine
    rw [lower]
    exact (Expression.lowerCondition_forms scope fine.1).bind fun _ _ =>
      lowerBody_forms body fine.2
  | doWhile condition body _, fine => by
    simp only [expressions, List.forall_mem_cons] at fine
    rw [lower]
    exact (lowerBody_forms body fine.2).bind fun _ _ =>
      Expression.lowerCondition_forms scope fine.1
  | block body, fine => by
    rw [lower]
    exact lowerBody_forms body fine
  | tryCall call clauses, fine => by
    simp only [expressions, List.forall_mem_cons] at fine
    rw [lower, ite_then]
    exact (Expression.lowerOptional_forms scope fine.1).bind fun _ _ =>
      lowerClauses_forms _ clauses fine.2
  | other text, _ => by
    rw [lower]
    split
    · exact .pure trivial
    · exact emit_forms trivial

theorem lowerBody_forms : ∀ body : List Statement,
    (∀ expression ∈ bodyExpressions body, expression.Fine) →
      Forms (Instruction.Formed scope.functions) (lowerBody scope body) fun _ => True
  | [], _ => .pure trivial
  | first :: rest, fine => by
    simp only [bodyExpressions, List.forall_mem_append] at fine
    rw [lowerBody]
    exact (lower_forms first fine.1).bind fun _ _ => lowerBody_forms rest fine.2

theorem lowerClauses_forms (part : Nat → Nat → Value) :
    ∀ clauses : List (List String × List Statement),
      (∀ expression ∈ clauseExpressions clauses, expression.Fine) →
        Forms (Instruction.Formed scope.functions) (lowerClauses scope part clauses) fun _ => True
  | [], _ => .pure trivial
  | (parameters, body) :: rest, fine => by
    simp only [clauseExpressions, List.forall_mem_append] at fine
    rw [lowerClauses]
    exact (bindNames_forms _ _ parameters 0).bind fun _ _ =>
      (lowerBody_forms body fine.1).bind fun _ _ => lowerClauses_forms _ rest fine.2

end

end Statement
end Reentrancy
