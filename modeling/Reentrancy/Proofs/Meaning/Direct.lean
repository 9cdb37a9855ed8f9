import Reentrancy.Proofs.Lowering.Agreement
import Reentrancy.Proofs.Meaning.Inline

/-! Direct statements. They write one variable at most, and the values that they use write nothing,
so each becomes one instruction and reads current versions only. A current version is never lost:
a program of direct statements and calls means the same when it is expanded. -/
namespace Reentrancy

namespace Expression

def isDirect : Expression → Bool
  | identifier .. => true
  | literal _ => true
  | binary _ left right => left.isDirect && right.isDirect
  | unary operator _ operand => !writesOperand operator && operand.isDirect
  | tuple false [component] => component.isDirect
  | _ => false

theorem isMissing_of_isDirect {expression : Expression} (direct : expression.isDirect = true) :
    expression.isMissing = false := by
  cases expression with
  | missing => cases direct
  | _ => rfl

end Expression

def Statement.isDirect : Statement → Bool
  | expression (.assign _ target value) => target.isVariable && value.isDirect
  | expression (.unary operator leading operand) =>
    if Expression.writesOperand operator then operand.isVariable
    else (Expression.unary operator leading operand).isDirect
  | expression value => value.isDirect
  | declare [some declared] value => declared.name != "" && (value.isMissing || value.isDirect)
  | _ => false

def Lowered.still {α : Type} (versions : Versions) (value : α) : Lowered α := ⟨value, {}, versions⟩

theorem Lower.bind_still {α β : Type} {first : Lower α} {versions : Versions} {value : α}
    (here : first versions = .still versions value) (next : α → Lower β) :
    (first >>= next) versions = next value versions := by
  change Lower.bind first next versions = next value versions
  rw [Lower.bind, here]
  rfl

def Value.Current (versions : Versions) (value : Value) : Prop :=
  ∀ read ∈ value.reads, read = versions.read read.name

namespace Expression

variable (scope : Scope) (versions : Versions)

theorem lower_direct : ∀ {expression : Expression}, expression.isDirect = true →
    ∃ value, expression.lower scope versions = .still versions value ∧ value.Current versions
  | identifier name _, _ => by
    refine ⟨.var (versions.read name), ?_, ?_⟩
    · rw [lower]
      rfl
    · intro read member
      rw [List.mem_singleton.mp member]
      rfl
  | literal value, _ => by
    refine ⟨.literal value.text, ?_, ?_⟩
    · rw [lower]
      rfl
    · intro read member
      cases member
  | binary operator left right, direct => by
    rw [isDirect, Bool.and_eq_true] at direct
    obtain ⟨first, one, here⟩ := lower_direct direct.1
    obtain ⟨second, two, there⟩ := lower_direct direct.2
    refine ⟨.binary operator first second, ?_, ?_⟩
    · rw [lower, Lower.bind_still one, Lower.bind_still two]
      rfl
    · intro read member
      rcases List.mem_append.mp member with inside | inside
      · exact here read inside
      · exact there read inside
  | unary operator leading operand, direct => by
    rw [isDirect, Bool.and_eq_true, Bool.not_eq_true', ← Bool.not_eq_true, writesOperand_iff,
      not_or] at direct
    obtain ⟨neither, direct⟩ := direct
    obtain ⟨inner, one, here⟩ := lower_direct direct
    refine ⟨.unary operator inner, ?_, here⟩
    rw [lower, if_neg (by simp [isMissing_of_isDirect direct]), if_neg neither.1,
      if_neg neither.2, Lower.bind_still one]
    rfl
  | tuple false [component], direct => by
    rw [isDirect] at direct
    obtain ⟨item, one, here⟩ := lower_direct direct
    have present := isMissing_of_isDirect direct
    refine ⟨item, ?_, here⟩
    rw [lower_tuple, lowerComponents, if_neg (by simp [present]), bind_assoc, Lower.bind_still one]
    have single : tupleValue false [component] [item] = item := if_neg (by simp [present])
    exact congrArg (Lowered.still versions) single
  | tuple true _, direct | tuple false [], direct | tuple false (_ :: _ :: _), direct => by
    cases direct
  | missing, direct | member .., direct | index .., direct | slice .., direct | assign .., direct
  | conditional .., direct | call .., direct | options .., direct | typeName .., direct
  | new .., direct | other .., direct => by cases direct

end Expression

/-- An instruction that reads current versions and defines one variable at most. -/
structure Instruction.Prompt (old : Versions) (instruction : Instruction) (new : Versions) :
    Prop where
  current : ∀ read ∈ instruction.uses, read = old.read read.name
  defines : instruction.defs = [] ∧ new = old ∨ ∃ calls name,
    instruction.defs = [({ old with calls }.define name).1] ∧
      new = ({ old with calls }.define name).2

namespace Ledger

variable {ledger : Ledger} {old new : Versions} {instruction : Instruction}

theorem Fits.reads (fits : ledger.Fits old) (prompt : instruction.Prompt old new) :
    ∀ read ∈ instruction.uses, read ∉ ledger.lost := by
  intro read member lost
  have passed := fits.passed read lost
  rw [prompt.current read member] at passed
  exact Nat.lt_irrefl _ passed

theorem Fits.pass (fits : ledger.Fits old) (prompt : instruction.Prompt old new)
    (put : Instruction → List String) : (ledger.pass put instruction).Fits new := by
  rcases prompt.defines with ⟨none, rfl⟩ | ⟨calls, name, single, rfl⟩
  · rw [Ledger.pass, none]
    exact fits.shadow _
  · rw [Ledger.pass, single]
    exact ((fits.recount calls).define name).shadow _

end Ledger

def Lower.EmitsPrompt {α : Type} (step : Lower α) (versions : Versions) : Prop :=
  ∃ instruction, (step versions).emission.instructions = [instruction] ∧
    instruction.Prompt versions (step versions).versions

namespace Lower

variable {versions : Versions}

theorem EmitsPrompt.after {α β : Type} {first : Lower α} {next : α → Lower β} {value : α}
    (here : first versions = .still versions value) (prompt : (next value).EmitsPrompt versions) :
    EmitsPrompt (first >>= next) versions := by
  rw [EmitsPrompt, bind_still here]
  exact prompt

theorem EmitsPrompt.bind_pure {α β : Type} {step : Lower α} (prompt : step.EmitsPrompt versions)
    (result : α → β) : EmitsPrompt (step >>= fun value => Pure.pure (result value)) versions := by
  obtain ⟨instruction, emitted, prompt⟩ := prompt
  refine ⟨instruction, ?_, prompt⟩
  have unchanged : (step >>= fun value => (Pure.pure (result value) : Lower β)) versions =
      ⟨result (step versions).value, (step versions).emission.append {},
        (step versions).versions⟩ := rfl
  rw [unchanged, ← emitted]
  exact List.append_nil _

theorem store_prompt {target : Expression} (named : target.isVariable = true) (operator : String)
    {value : Value} (current : value.Current versions) :
    EmitsPrompt (store target operator value) versions := by
  cases target with
  | identifier name predefined =>
    refine ⟨.assign (storeAssignment (.identifier name predefined) operator value versions), ?_⟩
    rw [store_apply]
    refine ⟨rfl, ?_, .inr ⟨versions.calls, name, ?_, ?_⟩⟩
    · intro read member
      unfold storeAssignment at member
      split at member
      · exact current read member
      · rcases List.mem_cons.mp member with rfl | inside
        · rfl
        · exact current read inside
    · unfold storeAssignment
      split <;> rfl
    · rw [defineAll_cons]
      rfl
  | _ => cases named

end Lower

namespace Statement

variable {scope : Scope} {versions : Versions}

theorem lower_value_prompt {value : Expression} (direct : value.isDirect = true)
    (stays : value.leavesInstruction = false) :
    ((expression value).lower scope).EmitsPrompt versions := by
  obtain ⟨lowered, still, current⟩ := value.lower_direct scope versions direct
  rw [lower, if_neg (by simp [Expression.isMissing_of_isDirect direct]), if_neg (by simp [stays])]
  exact .after still ⟨.expression lowered, rfl, current, .inl ⟨rfl, rfl⟩⟩

theorem lower_assign_prompt {operator : String} {target value : Expression}
    (named : target.isVariable = true) (direct : value.isDirect = true) :
    ((expression (.assign operator target value)).lower scope).EmitsPrompt versions := by
  obtain ⟨stored, still, current⟩ := value.lower_direct scope versions direct
  cases target with
  | identifier name predefined =>
    rw [lower, if_neg (by simp [Expression.isMissing]),
      if_pos (by simp [Expression.leavesInstruction]), Expression.lower,
      if_neg (by simp [Expression.isMissing_of_isDirect direct])]
    refine .bind_pure (.after still ?_) fun _ => ()
    dsimp only
    rw [Expression.lowerKeys_variable scope named, pure_bind]
    exact .bind_pure (Lower.store_prompt named _ current) _
  | _ => cases named

theorem lower_unary_prompt {operator : String} {leading : Bool} {operand : Expression}
    (writes : Expression.writesOperand operator = true) (named : operand.isVariable = true) :
    ((expression (.unary operator leading operand)).lower scope).EmitsPrompt versions := by
  have constant (text : String) : (Value.literal text).Current versions := by
    intro read member
    cases member
  have leaves : (Expression.unary operator leading operand).leavesInstruction = true := writes
  rw [lower, if_neg (by simp [Expression.isMissing]), if_pos leaves, Expression.lower,
    if_neg (by simp [Expression.isMissing_of_isVariable named])]
  refine .bind_pure ?_ fun _ => ()
  rw [Expression.lowerKeys_variable scope named]
  split
  · refine .after rfl ?_
    rw [pure_bind]
    exact .bind_pure (Lower.store_prompt named _ (constant "1")) _
  next steps =>
    have deletes := (Expression.writesOperand_iff.mp writes).resolve_left steps
    rw [if_pos deletes, pure_bind]
    exact .bind_pure (Lower.store_prompt named _ (constant "0")) _

theorem bindNames_prompt {name : String} (named : name ≠ "") {part : Nat → Value}
    (current : (part 0).Current versions) :
    (Lower.bindNames part 0 [name]).EmitsPrompt versions := by
  refine ⟨.assign { target := (versions.define name).1, value := part 0 }, ?_, current,
    .inr ⟨versions.calls, name, rfl, ?_⟩⟩
  all_goals
    rw [Lower.bindNames, if_pos named]
    rfl

theorem lower_declare_prompt {declared : Declaration} {value : Expression}
    (named : declared.name ≠ "") (direct : (value.isMissing || value.isDirect) = true) :
    ((declare [some declared] value).lower scope).EmitsPrompt versions := by
  rw [lower]
  split
  · rw [pure_bind]
    exact bindNames_prompt named fun read member => by cases member
  next present =>
    rw [Bool.or_eq_true, or_iff_right present] at direct
    obtain ⟨initial, still, current⟩ := value.lower_direct scope versions direct
    rw [map_eq_pure_bind, bind_assoc]
    refine .after still ?_
    rw [pure_bind]
    apply bindNames_prompt named
    intro read member
    exact current read (Value.component_reads _ _ _ member)

theorem lower_prompt {statement : Statement} (direct : statement.isDirect = true) :
    (statement.lower scope).EmitsPrompt versions := by
  cases statement with
  | expression value =>
    cases value with
    | assign operator target right =>
      rw [isDirect, Bool.and_eq_true] at direct
      exact lower_assign_prompt direct.1 direct.2
    | unary operator leading operand =>
      rw [isDirect] at direct
      split at direct
      next writes => exact lower_unary_prompt writes direct
      next quiet => exact lower_value_prompt direct (Bool.eq_false_iff.mpr quiet)
    | call => cases direct
    | _ => exact lower_value_prompt direct rfl
  | declare targets value =>
    match targets, direct with
    | [some declared], direct =>
      rw [isDirect, Bool.and_eq_true, bne_iff_ne] at direct
      exact lower_declare_prompt direct.1 direct.2
  | _ => cases direct

theorem lower_callee_prompt {statement : Statement} {name : String}
    (calls : statement.callee? = some name)
    (internal : scope.classifyName name false = .internal) :
    (statement.lower scope).EmitsPrompt versions := by
  obtain ⟨location, instructions, new⟩ := lower_callee calls internal versions
  refine ⟨_, instructions, ?_, .inr ⟨versions.calls + 1, _, rfl, new⟩⟩
  intro read member
  cases member

theorem lowerBody_readsKept {statements : List Statement}
    (prompt : ∀ statement ∈ statements, ∀ versions, (statement.lower scope).EmitsPrompt versions)
    (put : Instruction → List String) {ledger : Ledger} (fits : ledger.Fits versions) :
    ledger.readsKept put (lowerBody scope statements versions).emission.instructions = true := by
  induction statements generalizing versions ledger with
  | nil => rfl
  | cons first rest ih =>
    rw [List.forall_mem_cons] at prompt
    obtain ⟨instruction, emitted, here⟩ := prompt.1 versions
    have split : (lowerBody scope (first :: rest) versions).emission.instructions =
        instruction :: (lowerBody scope rest
          (first.lower scope versions).versions).emission.instructions :=
      congrArg (· ++ _) emitted
    rw [split, Ledger.readsKept_cons]
    exact ⟨fits.reads here, ih prompt.2 (fits.pass here put)⟩

end Statement

structure Program.IsDirect (program : Program) : Prop where
  caller : ∀ statement ∈ program.caller, statement.isScalar = true → statement.isDirect = true
  functions : ∀ function ∈ program.functions, ∀ statement ∈ function.2, statement.isDirect = true

namespace Program.IsDirect

variable {program : Program} (direct : program.IsDirect)

include direct

theorem readsKept : program.ReadsKept := by
  constructor
  · obtain ⟨seeded, current, counter, _, instructions, _⟩ :=
      build_straight program.scope program.unstructured
    rw [instructions]
    apply Statement.lowerBody_readsKept _ _ (.start current counter _)
    intro statement member versions
    rcases program.formed statement member with scalar | ⟨name, _, calls, _, internal, _⟩
    · exact Statement.lower_prompt (direct.caller statement member scalar)
    · exact Statement.lower_callee_prompt calls internal
  · intro function member
    obtain ⟨seeded, current, counter, _, instructions, _⟩ := build_straight program.scope
      fun statement inside =>
        (Statement.plain_of_isScalar (program.scalar function member statement inside)).1
    rw [instructions]
    apply Statement.lowerBody_readsKept _ _ (.start current counter _)
    intro statement inside versions
    exact Statement.lower_prompt (direct.functions function member statement inside)

/-- No condition on versions is left: whether a program is direct can be read off its source. -/
theorem inlined_keepsMeaning {D : Type} (meaning : Meaning D) (depth : Nat) (env : Env D) :
    let body := program.inlined (depth + 1)
    ∃ last, execute meaning body.finish.1 env = some last ∧ ∀ name, IsOrdinary name →
      last ⟨name, body.versions.current.version name⟩ =
        program.execAll meaning program.caller (fun name => env ⟨name, 0⟩) name := by
  obtain ⟨last, ran, agrees⟩ := program.inlined_runs meaning direct.readsKept depth env
  exact ⟨last, program.execute_inlined meaning (depth + 1) ran, agrees⟩

end Program.IsDirect
end Reentrancy
