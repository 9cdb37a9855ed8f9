import Reentrancy.Proofs.Lowering.Arguments
import Reentrancy.Proofs.Lowering.Tracking

/-! The names that a statement defines. Lowering a regular statement defines what the statement
writes and the results of its calls, and nothing else, as far as no position is detached. -/
namespace Reentrancy

open Expression (lostNames storedTexts)

theorem Invocation.transferReads_written (arguments : List Expression) :
    writtenNames (transferReads arguments) = [] := by
  unfold transferReads
  split
  · split
    · rfl
    · split <;> rfl
  · rfl

namespace Statement

def headExpressions : Statement → List Expression
  | branch condition _ _ | forLoop _ condition _ _ _ | whileLoop condition _ _ => [condition]
  | statement => statement.expressions

theorem written_targets (targets : List (Option Declaration)) {name : String} :
    name ∈ writtenNames (targets.filterMap (·.map fun target => Access.write target.name)) ↔
      name ∈ writtenNames ((targets.map fun target => (target.map (·.name)).getD "").map
        Access.write) := by
  rw [mem_writtenNames_write]
  induction targets with
  | nil => simp
  | cons first rest ih => cases first <;> grind [writtenNames, Access.written?]

variable (scope : Scope)

open Lower

mutual

theorem lower_tracks : ∀ statement : Statement,
    (∀ value ∈ statement.expressions, value.isRegular = true) →
      Tracks (statement.lower scope) statement.accesses
        (statement.expressions.flatMap Expression.detached)
  | expression value, regular => by
    rw [expressions, List.forall_mem_singleton] at regular
    rw [lower, accesses, expressions, List.flatMap_singleton]
    have lowered := value.lower_tracks scope regular
    split
    next gone =>
      obtain rfl := Expression.eq_missing gone
      exact .pure _
    next =>
      split
      · exact lowered.before fun _ => .pure _
      · exact lowered.before fun _ => emit_tracks rfl
  | declare targets value, regular => by
    rw [expressions, List.forall_mem_singleton] at regular
    rw [lower, accesses, expressions, List.flatMap_singleton, ite_then]
    refine ((value.lowerOptional_tracks scope regular).bind fun _ =>
      bindNames_tracks _ _ 0).congr (fun name => ?_) (by simp)
    rw [mem_writtenNames_append, mem_writtenNames_append, written_targets, or_comm]
  | emit none, _ => .pure _
  | emit (some event), regular => by
    have given : ∀ value ∈ event.arguments, value.isRegular = true := regular
    rw [lower]
    refine ((Expression.lowerAll_tracks scope given).before fun _ => emit_tracks rfl).congr
      (fun name => ?_) fun _ => Iff.rfl
    rw [accesses, Option.map_some, Option.getD_some, Invocation.eventAccesses,
      mem_writtenNames_append]
    split <;> simp [Invocation.transferReads_written]
  | revert none, _ => .pure _
  | revert (some error), regular => by
    rw [lower]
    exact (Expression.lowerAll_tracks scope regular).before fun _ =>
      (invoke_tracks _ _ _ _ _ _).before fun _ => .pure _
  | ret value, regular => by
    rw [expressions, List.forall_mem_singleton] at regular
    rw [lower, accesses, expressions, List.flatMap_singleton]
    split
    next gone =>
      obtain rfl := Expression.eq_missing gone
      exact emit_tracks rfl
    next =>
      refine (value.lower_tracks scope regular).before fun lowered => ?_
      split <;> exact emit_tracks rfl
  | branch condition yes no, regular => by
    rw [expressions, List.cons_append, List.forall_mem_cons, List.forall_mem_append] at regular
    obtain ⟨test, first, second⟩ := regular
    rw [lower, accesses, expressions, List.cons_append, List.flatMap_cons, List.flatMap_append,
      List.append_assoc]
    exact (condition.lowerCondition_tracks scope test).bind fun _ =>
      (lowerBody_tracks yes first).bind fun _ => lowerBody_tracks no second
  | forLoop start condition step body _, regular => by
    simp only [expressions, List.cons_append, List.forall_mem_cons, List.forall_mem_append]
      at regular
    obtain ⟨test, ⟨first, onward⟩, inside⟩ := regular
    rw [lower]
    refine ((lowerBody_tracks start first).bind fun _ =>
      (condition.lowerCondition_tracks scope test).bind fun _ =>
        (lowerBody_tracks body inside).bind fun _ => lowerBody_tracks step onward).congr
          (fun name => ?_) fun item => ?_
    · simp only [accesses, mem_writtenNames_append]
      tauto
    · simp only [expressions, List.cons_append, List.flatMap_cons, List.flatMap_append,
        List.mem_append]
      tauto
  | whileLoop condition body _, regular => by
    rw [expressions, List.forall_mem_cons] at regular
    rw [lower, accesses, expressions, List.flatMap_cons]
    exact (condition.lowerCondition_tracks scope regular.1).bind fun _ =>
      lowerBody_tracks body regular.2
  | doWhile condition body _, regular => by
    rw [expressions, List.forall_mem_cons] at regular
    rw [lower, accesses, expressions, List.flatMap_cons]
    refine ((lowerBody_tracks body regular.2).bind fun _ =>
      condition.lowerCondition_tracks scope regular.1).congr (fun name => ?_) fun item => ?_
    · rw [mem_writtenNames_append, mem_writtenNames_append, or_comm]
    · rw [List.mem_append, List.mem_append, or_comm]
  | block body, regular => by
    rw [expressions] at regular
    rw [lower, accesses, expressions]
    exact lowerBody_tracks body regular
  | tryCall call clauses, regular => by
    rw [expressions, List.forall_mem_cons] at regular
    rw [lower, accesses, expressions, List.flatMap_cons, ite_then]
    exact (call.lowerOptional_tracks scope regular.1).bind fun _ =>
      lowerClauses_tracks _ clauses regular.2
  | other text, _ => by
    rw [lower]
    split
    · exact .pure _
    · exact emit_tracks rfl

theorem lowerBody_tracks : ∀ body : List Statement,
    (∀ value ∈ bodyExpressions body, value.isRegular = true) →
      Tracks (lowerBody scope body) (bodyAccesses body)
        ((bodyExpressions body).flatMap Expression.detached)
  | [], _ => .pure _
  | first :: rest, regular => by
    rw [bodyExpressions, List.forall_mem_append] at regular
    rw [lowerBody, bodyAccesses, bodyExpressions, List.flatMap_append]
    exact (lower_tracks first regular.1).bind fun _ => lowerBody_tracks rest regular.2

theorem lowerClauses_tracks (part : Nat → Nat → Value) :
    ∀ clauses : List (List String × List Statement),
      (∀ value ∈ clauseExpressions clauses, value.isRegular = true) →
        Tracks (lowerClauses scope part clauses) (clauseAccesses clauses)
          ((clauseExpressions clauses).flatMap Expression.detached)
  | [], _ => .pure _
  | (parameters, body) :: rest, regular => by
    rw [clauseExpressions, List.forall_mem_append] at regular
    rw [lowerClauses, clauseAccesses, clauseExpressions, List.flatMap_append, List.append_assoc]
    exact (bindNames_tracks _ parameters 0).bind fun _ =>
      (lowerBody_tracks body regular.1).bind fun _ => lowerClauses_tracks _ rest regular.2

end

def lowerOf (statement : Statement) (headOnly : Bool) : Lower Unit :=
  if headOnly then statement.lowerHead scope else statement.lower scope

def expressionsOf (statement : Statement) (headOnly : Bool) : List Expression :=
  if headOnly then statement.headExpressions else statement.expressions

theorem lowerHead_tracks {statement : Statement} (headed : statement.kind.isStructured = true)
    (regular : ∀ value ∈ statement.headExpressions, value.isRegular = true) :
    Tracks (statement.lowerHead scope) statement.headAccesses
      (statement.headExpressions.flatMap Expression.detached) := by
  have counted (condition : Expression) (counters : List String) {name : String} :
      name ∈ writtenNames (condition.accesses .value ++ counters.map Access.read) ↔
        name ∈ writtenNames (condition.accesses .value) := by
    simp [mem_writtenNames_append]
  cases statement with
  | branch condition =>
    rw [headExpressions, List.forall_mem_singleton] at regular
    rw [headExpressions, List.flatMap_singleton]
    exact condition.lowerCondition_tracks scope regular
  | forLoop _ condition | whileLoop condition =>
    rw [headExpressions, List.forall_mem_singleton] at regular
    rw [headExpressions, List.flatMap_singleton]
    exact (condition.lowerCondition_tracks scope regular).congr (fun _ => counted condition _)
      fun _ => Iff.rfl
  | expression value => cases value <;> cases headed
  | _ => cases headed

/-- Where a regular statement has detached positions, what it writes there is lost and the text of
a stepped tuple is defined instead; all else is written and defined alike. So it defines exactly
what it writes and the results of its calls if and only if both happen to be so there, too. -/
theorem defined_iff_written {statement : Statement} {headOnly : Bool}
    (headed : headOnly = true → statement.kind.isStructured = true)
    (regular : ∀ value ∈ statement.expressionsOf headOnly, value.isRegular = true)
    (versions : Versions) :
    let emission := (statement.lowerOf scope headOnly versions).emission
    let writes := (statement.accessesOf headOnly).writes
    let results := resultNames emission.instructions
    let detached := (statement.expressionsOf headOnly).flatMap Expression.detached
    (∃ kept : List String,
        (∀ name, writes.contains name = true ↔ name ∈ kept ∨ name ∈ lostNames detached) ∧
        ∀ name, name ∈ emission.defined ↔
          name ∈ kept ∨ name ∈ results ∨ name ∈ storedTexts detached) ∧
      ((∀ name, name ∈ emission.defined ↔ writes.contains name = true ∨ name ∈ results) ↔
        (∀ name ∈ lostNames detached, name ∈ emission.defined) ∧
          ∀ name ∈ storedTexts detached, writes.contains name = true ∨ name ∈ results) := by
  intro emission writes results detached
  have tracks : Tracks (statement.lowerOf scope headOnly)
      (if headOnly then statement.headAccesses else statement.accesses) detached := by
    cases headOnly with
    | true => exact lowerHead_tracks scope (headed rfl) regular
    | false => exact lower_tracks scope statement regular
  obtain ⟨kept, written, defined⟩ := tracks versions
  have shared (name : String) :
      writes.contains name = true ↔ name ∈ kept ∨ name ∈ lostNames detached :=
    (Accesses.contains_writes _ name).trans (written name)
  refine ⟨⟨kept, shared, defined⟩, ?_, ?_⟩
  · intro same
    constructor
    · intro name lost
      exact (same name).mpr (.inl ((shared name).mpr (.inr lost)))
    · intro name text
      exact (same name).mp ((defined name).mpr (.inr (.inr text)))
  · rintro ⟨lost, texts⟩ name
    constructor
    · intro member
      rcases (defined name).mp member with both | result | text
      · exact .inl ((shared name).mpr (.inl both))
      · exact .inr result
      · exact texts name text
    · rintro (member | result)
      · rcases (shared name).mp member with both | gone
        · exact (defined name).mpr (.inl both)
        · exact lost name gone
      · exact (defined name).mpr (.inr (.inl result))

/-- `m[i++] += f()` defines what it writes, `m`, `m[i++]` and `i`, and the result of `f`. -/
theorem counted_key_defined :
    let name (text : String) := Expression.identifier text false
    let target := Expression.index (name "m") (.unary "++" false (name "i")) .missing .missing
    let statement := Statement.expression (.assign "+=" target (.call .plain (name "f") [] [] {}))
    let emission := (statement.lowerOf {} false {}).emission
    (∀ value ∈ statement.expressionsOf false, value.isRegular = true) ∧
      emission.defined = ["ret1", "i", "m[i++]", "m"] ∧
      ∀ name, name ∈ emission.defined ↔
        (statement.accessesOf false).writes.contains name = true ∨
          name ∈ resultNames emission.instructions := by
  intro name target statement emission
  have regular : ∀ value ∈ statement.expressionsOf false, value.isRegular = true := by decide
  obtain ⟨_, alike⟩ := defined_iff_written {} (fun head => by cases head) regular {}
  exact ⟨regular, by decide, alike.mpr ⟨by decide, by decide⟩⟩

/-- `(a)++` writes `a` and defines `(a)`. The construction `S{b: c = 1}()` writes `c` and defines
nothing. -/
theorem stepped_tuple_defines_text :
    let name (text : String) := Expression.identifier text false
    let steps := Statement.expression (.unary "++" false (.tuple false [name "a"]))
    let value := Expression.assign "=" (name "c") (.literal { value := some "1" })
    let constructs := Statement.expression
      (.call .construction (.options (name "S") [some "b"] [value]) [] [] {})
    let told := fun (statement : Statement) =>
      ((statement.expressionsOf false).all Expression.isRegular,
        (statement.lowerOf {} false {}).emission.defined,
        (statement.accessesOf false).writes.toList)
    told steps = (true, ["(a)"], ["a"]) ∧ told constructs = (true, [], ["c"]) := by
  decide

end Statement
end Reentrancy
