import Mathlib.Tactic.Tauto
import Reentrancy.Proofs.Lowering.Regular

/-! Lowering tracks the writes of an expression: the names that both walks over the expression find
are kept, and what they do not share is detached or holds the result of a call. -/
namespace Reentrancy

def Instruction.result? : Instruction → Option String
  | call operation => some operation.result.name
  | _ => none

def resultNames (instructions : List Instruction) : List String :=
  instructions.filterMap Instruction.result?

theorem mem_resultNames_append {name : String} {first second : List Instruction} :
    name ∈ resultNames (first ++ second) ↔
      name ∈ resultNames first ∨ name ∈ resultNames second := by
  rw [resultNames, List.filterMap_append, List.mem_append]
  rfl

open Expression (Detached lostNames storedTexts)

/-- The names `kept` are written and defined. All else that is written is detached, and all else
that is defined is the result of a call or the text of a detached position. -/
structure Emission.Shares (emission : Emission) (accesses : List Access)
    (detached : List Detached) (kept : List String) : Prop where
  written : ∀ name, name ∈ writtenNames accesses ↔
    name ∈ kept ∨ name ∈ lostNames detached
  defined : ∀ name, name ∈ emission.defined ↔
    name ∈ kept ∨ name ∈ resultNames emission.instructions ∨ name ∈ storedTexts detached

namespace Lower

variable {α β : Type}

def Tracks (step : Lower α) (accesses : List Access) (detached : List Detached) : Prop :=
  ∀ versions, ∃ kept, (step versions).emission.Shares accesses detached kept

namespace Tracks

theorem quiet {step : Lower α} (nothing : ∀ versions, (step versions).emission.defined = [])
    (noCall : ∀ versions, resultNames (step versions).emission.instructions = []) :
    Tracks step [] [] := by
  intro versions
  refine ⟨[], by simp [lostNames], fun name => ?_⟩
  simp [nothing, noCall, storedTexts]

theorem pure (value : α) : Tracks (Pure.pure value) [] [] :=
  quiet (fun _ => rfl) (fun _ => rfl)

theorem bind {first : Lower α} {next : α → Lower β} {accesses more : List Access}
    {detached others : List Detached} (here : Tracks first accesses detached)
    (later : ∀ value, Tracks (next value) more others) :
    Tracks (first >>= next) (accesses ++ more) (detached ++ others) := by
  intro versions
  obtain ⟨kept, written, defined⟩ := here versions
  obtain ⟨rest, writes, defines⟩ := later (first versions).value (first versions).versions
  refine ⟨kept ++ rest, fun name => ?_, fun name => ?_⟩
  · simp only [mem_writtenNames_append, written, writes, List.mem_append, lostNames,
      List.flatMap_append]
    tauto
  · simp only [bind_apply, Emission.append, List.mem_append, defined, defines,
      mem_resultNames_append, storedTexts, List.filterMap_append]
    tauto

theorem congr {step : Lower α} {accesses others : List Access} {detached items : List Detached}
    (tracks : Tracks step accesses detached)
    (same : ∀ name, name ∈ writtenNames others ↔ name ∈ writtenNames accesses)
    (positions : ∀ item, item ∈ items ↔ item ∈ detached) : Tracks step others items := by
  intro versions
  obtain ⟨kept, written, defined⟩ := tracks versions
  refine ⟨kept, fun name => ?_, fun name => ?_⟩
  · simp only [same, written, lostNames, List.mem_flatMap, positions]
  · simp only [defined, storedTexts, List.mem_filterMap, positions]

theorem before {first : Lower α} {next : α → Lower β} {accesses : List Access}
    {detached : List Detached} (tracks : Tracks first accesses detached)
    (quiet : ∀ value, Tracks (next value) [] []) : Tracks (first >>= next) accesses detached :=
  (tracks.bind quiet).congr (by simp) (by simp)

theorem after {first : Lower α} {next : α → Lower β} {accesses : List Access}
    {detached : List Detached} (quiet : Tracks first [] [])
    (tracks : ∀ value, Tracks (next value) accesses detached) :
    Tracks (first >>= next) accesses detached :=
  (quiet.bind tracks).congr (by simp) (by simp)

theorem detach {step : Lower α} {accesses more : List Access} {detached items : List Detached}
    (tracks : Tracks step accesses detached)
    (lost : ∀ name, name ∈ writtenNames more ↔ name ∈ lostNames items)
    (silent : storedTexts items = []) : Tracks step (more ++ accesses) (items ++ detached) := by
  intro versions
  obtain ⟨kept, written, defined⟩ := tracks versions
  refine ⟨kept, fun name => ?_, fun name => ?_⟩
  · simp only [mem_writtenNames_append, lost, written, lostNames, List.flatMap_append,
      List.mem_append]
    tauto
  · unfold storedTexts at silent defined ⊢
    rw [defined, List.filterMap_append, silent, List.nil_append]

end Tracks

theorem use_tracks (name : String) : Tracks (use name) [] [] :=
  .quiet (fun _ => rfl) (fun _ => rfl)

theorem emit_tracks {instruction : Instruction} (noCall : instruction.result? = none) :
    Tracks (emit instruction) [] [] :=
  .quiet (fun _ => rfl) (fun _ => by simp [emit, resultNames, noCall])

theorem invoke_tracks (callee : String) (type : CallType) (receiver : Option Value)
    (options : List (String × Value)) (arguments : List Value) (location : Location) :
    Tracks (invoke callee type receiver options arguments location) [] [] := by
  intro versions
  exact ⟨[], by simp [lostNames], by simp [invoke, nextResult, note, emit, Emission.append,
    resultNames, Instruction.result?, storedTexts]⟩

theorem store_tracks {target : Expression} (location : target.isLocation = true)
    (regular : target.isRegular = true) (operator : String) (value : Value) :
    Tracks (store target operator value) (target.path.map Access.write) [] := by
  intro versions
  have named := Expression.path_named location regular
  refine ⟨target.path, fun name => ?_, fun name => ?_⟩
  · rw [mem_writtenNames_write]
    simpa [lostNames] using named name
  · rw [store_apply]
    simpa [resultNames, Instruction.result?, storedTexts] using Expression.mem_stored location

theorem store_tuple_tracks {target : Expression} (tuple : target.isTuple = true)
    (operator : String) (value : Value) (accesses : List Access) :
    Tracks (store target operator value) accesses [⟨accesses, some target.text⟩] := by
  intro versions
  cases target with
  | tuple isArray components =>
    refine ⟨[], by simp [lostNames], fun name => ?_⟩
    rw [store_apply]
    simp [resultNames, Instruction.result?, Expression.locationName, Expression.path, storedTexts]
  | _ => cases tuple

theorem bindNames_tracks (part : Nat → Value) (names : List String) (index : Nat) :
    Tracks (bindNames part index names) (names.map Access.write) [] := by
  induction names generalizing index with
  | nil => exact .pure ()
  | cons name rest ih =>
    rw [bindNames]
    split
    next filled =>
      have defined : Tracks (define name) [.write name] [] := by
        intro versions
        exact ⟨[name], by simp [writtenNames, Access.written?, filled, lostNames],
          by simp [define, resultNames, storedTexts]⟩
      exact defined.bind fun _ => (emit_tracks rfl).after fun _ => ih (index + 1)
    next gone =>
      have empty : name = "" := by simpa using gone
      refine (ih (index + 1)).congr (fun other => ?_) fun _ => Iff.rfl
      simp only [empty, mem_writtenNames_write, List.mem_cons]
      tauto

end Lower

namespace Expression

open Lower

variable (scope : Scope)

theorem unlessMissing_tracks {expression : Expression} (text : String)
    (present : Tracks (expression.lower scope) (expression.accesses .value) expression.detached) :
    Tracks (if expression.isMissing then Pure.pure (.literal text) else expression.lower scope)
      (expression.accesses .value) expression.detached := by
  split
  next gone =>
    obtain rfl := eq_missing gone
    exact .pure _
  next => exact present

section Targets

variable {operand : Expression} (regular : operand.isRegular = true)

include regular

theorem write_tracks (location : operand.isLocation = true)
    (keys : Tracks (lowerKeys scope operand) operand.keyReads operand.detached)
    (operator : String) (value : Value) :
    Tracks (lowerKeys scope operand >>= fun _ => Lower.store operand operator value)
      (operand.accesses .target) operand.detached := by
  refine (keys.bind fun _ => store_tracks location regular operator value).congr
    (fun name => ?_) (by simp)
  rw [written_target location regular, mem_writtenNames_append, mem_writtenNames_write]
  have named := path_named location regular name
  tauto

/-- A tuple is stepped as a whole, and nothing in it is evaluated. -/
theorem step_tracks (target : operand.isTarget = true) (present : operand.isMissing = false)
    (keys : operand.isLocation = true →
      Tracks (lowerKeys scope operand) operand.keyReads operand.detached)
    (operator : String) (value : Value) :
    Tracks (lowerKeys scope operand >>= fun _ => Lower.store operand operator value)
      (operand.accesses .target)
      (if operand.isTuple then [⟨operand.accesses .target, some operand.text⟩]
        else operand.detached) := by
  split
  next tuple =>
    have idle : lowerKeys scope operand = Pure.pure () := by
      cases operand with
      | tuple => rfl
      | _ => cases tuple
    rw [idle]
    exact (Tracks.pure ()).after fun _ => store_tuple_tracks tuple operator value _
  next plain =>
    have location : operand.isLocation = true := by
      cases operand with
      | missing => cases present
      | tuple => exact absurd rfl plain
      | _ => exact target
    exact write_tracks scope regular location (keys location) operator value

theorem unary_tracks {operator : String}
    (target : writesOperand operator = false ∨ operand.isTarget = true)
    (keys : operand.isLocation = true →
      Tracks (lowerKeys scope operand) operand.keyReads operand.detached)
    (read : Tracks (operand.lower scope) (operand.accesses .value) operand.detached)
    (leading : Bool) :
    Tracks ((unary operator leading operand).lower scope)
      ((unary operator leading operand).accesses .value)
      (unary operator leading operand).detached := by
  rw [lower]
  split
  next gone =>
    obtain rfl := eq_missing gone
    have nothing : (unary operator leading missing).accesses .value = [] := by
      rw [accesses]
      split
      · rfl
      · split <;> rfl
    have single : missing.isTuple = false := rfl
    rw [nothing, detached, single, Bool.and_false]
    exact .pure _
  next present =>
    have there : operand.isMissing = false := by simpa using present
    split
    next counted =>
      have writes : writesOperand operator = true := writesOperand_iff.mpr (.inl counted)
      have written := target.resolve_left (by simp [writes])
      rw [detached, writes, Bool.true_and]
      refine ((use_tracks _).after fun _ => ?_).congr
        (fun name => written_step writes leading written) fun _ => Iff.rfl
      rw [← bind_assoc]
      exact (step_tracks scope regular written there keys _ _).before fun _ => .pure _
    next uncounted =>
      split
      next erased =>
        have writes : writesOperand operator = true := writesOperand_iff.mpr (.inr erased)
        have written := target.resolve_left (by simp [writes])
        rw [detached, writes, Bool.true_and, ← bind_assoc]
        exact ((step_tracks scope regular written there keys _ _).before fun _ => .pure _).congr
          (fun name => written_step writes leading written) fun _ => Iff.rfl
      next kept =>
        have reads : writesOperand operator = false := by
          rw [← Bool.not_eq_true, writesOperand_iff]
          exact not_or.mpr ⟨uncounted, kept⟩
        rw [accesses, if_neg uncounted, if_neg kept, detached, reads, Bool.false_and]
        exact read.before fun _ => .pure _

theorem assign_tracks (target : operand.isTarget = true)
    (keys : operand.isLocation = true →
      Tracks (lowerKeys scope operand) operand.keyReads operand.detached)
    (parts : ∀ isArray components, operand = tuple isArray components → ∀ part,
      Tracks (storeComponents scope part 0 components) (listAccesses .target components)
        (listDetached components))
    {value : Expression}
    (read : Tracks (value.lower scope) (value.accesses .value) value.detached)
    (operator : String) :
    Tracks ((assign operator operand value).lower scope)
      ((assign operator operand value).accesses .value)
      (assign operator operand value).detached := by
  suffices lowered : Tracks ((assign operator operand value).lower scope)
      (value.accesses .value ++ operand.accesses .target) (value.detached ++ operand.detached) by
    refine lowered.congr (fun name => ?_) fun item => ?_
    · rw [written_assign operator target, mem_writtenNames_append]
    · rw [detached, List.mem_append, List.mem_append, or_comm]
  have valued := unlessMissing_tracks scope "0" read
  have located (location : operand.isLocation = true) (stored : Value) :=
    write_tracks scope regular location (keys location) (stepOperator operator) stored
  rw [lower, ite_then]
  cases operand with
  | missing => exact valued.bind fun _ => .pure _
  | tuple isArray components =>
    exact valued.bind fun _ => (parts isArray components rfl _).before fun _ => .pure _
  | identifier | member | index =>
    refine valued.bind fun stored => ?_
    dsimp only
    rw [← bind_assoc]
    exact (located target stored).before fun _ => .pure _
  | _ => cases target

end Targets

mutual

theorem lower_tracks : ∀ expression : Expression, expression.isRegular = true →
    Tracks (expression.lower scope) (expression.accesses .value) expression.detached
  | missing, _ => .pure _
  | identifier name _, _ =>
    ((use_tracks name).before fun _ => .pure _).congr (fun _ => Iff.rfl) fun _ => Iff.rfl
  | literal _, _ => .pure _
  | member base type name, regular => by
    rw [isRegular] at regular
    rw [lower]
    split
    next location =>
      have whole : (member base type name).isLocation = true := location
      refine ((lowerKeys_tracks base regular location).before fun _ =>
        (use_tracks _).before fun _ => .pure _).congr (fun other => ?_) fun _ => Iff.rfl
      rw [written_value whole, keyReads]
    next apart =>
      have read : (member base type name).accesses .value = base.accesses .value := by
        simp [accesses, apart]
      rw [read]
      exact (lower_tracks base regular).before fun _ => .pure _
  | index base key lowest highest, regular => by
    simp only [isRegular, Bool.and_eq_true] at regular
    obtain ⟨⟨⟨regularBase, regularKey⟩, noLowest⟩, noHighest⟩ := regular
    obtain rfl := eq_missing noLowest
    obtain rfl := eq_missing noHighest
    rw [lower]
    split
    next location =>
      have whole : (index base key missing missing).isLocation = true := location
      refine ((lower_tracks key regularKey).bind fun _ =>
        (lowerKeys_tracks base regularBase location).before fun _ =>
          (use_tracks _).before fun _ => .pure _).congr (fun other => ?_) fun item => ?_
      · rw [written_value whole, keyReads]
      · rw [detached, List.mem_append, List.mem_append, or_comm]
    next apart =>
      have read : (index base key missing missing).accesses .value =
          base.accesses .value ++ key.accesses .value := by simp [accesses, apart]
      rw [read]
      exact (lower_tracks base regularBase).bind fun _ =>
        (lower_tracks key regularKey).before fun _ =>
          (Tracks.pure _).before fun _ => (Tracks.pure _).before fun _ => .pure _
  | slice base key lowest highest, regular => by
    simp only [isRegular, Bool.and_eq_true] at regular
    obtain ⟨⟨⟨regularBase, noKey⟩, regularLowest⟩, regularHighest⟩ := regular
    obtain rfl := eq_missing noKey
    rw [lower, accesses, detached, List.append_assoc, List.append_assoc]
    exact (lower_tracks base regularBase).bind fun _ => (Tracks.pure _).after fun _ =>
      (lower_tracks lowest regularLowest).bind fun _ =>
        (lower_tracks highest regularHighest).before fun _ => .pure _
  | binary operator left right, regular => by
    simp only [isRegular, Bool.and_eq_true] at regular
    rw [lower, accesses, detached]
    exact (lower_tracks left regular.1).bind fun _ =>
      (lower_tracks right regular.2).before fun _ => .pure _
  | unary operator leading operand, regular => by
    simp only [isRegular, Bool.and_eq_true, Bool.or_eq_true, Bool.not_eq_true'] at regular
    obtain ⟨target, regular⟩ := regular
    exact unary_tracks scope regular target (lowerKeys_tracks operand regular)
      (lower_tracks operand regular) leading
  | assign operator target value, regular => by
    simp only [isRegular, Bool.and_eq_true] at regular
    obtain ⟨⟨isTarget, regularTarget⟩, regularValue⟩ := regular
    refine assign_tracks scope regularTarget isTarget (lowerKeys_tracks target regularTarget) ?_
      (lower_tracks value regularValue) operator
    rintro isArray components rfl part
    rw [isRegular] at regularTarget
    rw [Expression.isTarget, List.all_eq_true] at isTarget
    exact storeComponents_tracks part 0 components regularTarget isTarget
  | conditional condition yes no, regular => by
    simp only [isRegular, Bool.and_eq_true] at regular
    rw [lower, accesses, detached, List.append_assoc, List.append_assoc]
    exact (lower_tracks condition regular.1.1).bind fun _ =>
      (lower_tracks yes regular.1.2).bind fun _ =>
        (lower_tracks no regular.2).before fun _ => .pure _
  | tuple isArray components, regular => by
    rw [isRegular] at regular
    rw [lower, accesses, detached]
    refine (lowerComponents_tracks components regular).before fun items => ?_
    split
    · split <;> exact .pure _
    · exact .pure _
    all_goals simp
  | call form callee arguments _ location, regular => by
    simp only [isRegular, Bool.and_eq_true] at regular
    rw [lower, accesses, detached]
    by_cases conversion : converts form callee = true
    · have apart : (isConversion form callee || form == .construction) = true := conversion
      rw [if_pos apart, if_pos conversion]
      rw [if_pos conversion] at regular
      exact ((lowerList_tracks arguments regular.2).before fun _ => .pure _).detach
        (fun name => written_conversion regular.1) (storedTexts_detachedOptions callee)
    · have plain : ¬ (isConversion form callee || form == .construction) = true := conversion
      rw [if_neg plain, if_neg conversion]
      rw [if_neg conversion] at regular
      -- receiver and options are lowered by two walks over the same callee
      refine ((lowerReceiver_tracks callee regular.1).bind fun _ =>
        (lowerOptions_tracks callee regular.1).bind fun _ =>
          (lowerList_tracks arguments regular.2).before fun _ =>
            (invoke_tracks _ _ _ _ _ location).before fun _ => .pure _).congr
              (fun name => ?_) fun item => ?_
      · simp only [mem_writtenNames_append, written_callee callee]
        tauto
      · simp only [List.mem_append, mem_detached_callee callee]
        tauto
  | options .., regular => by cases regular
  | typeName _, _ => .pure _
  | new _, _ => .pure _
  | other _, _ => .pure _
termination_by expression => sizeOf expression

theorem lowerList_tracks : ∀ expressions : List Expression, areRegular expressions = true →
    Tracks (lowerList scope expressions) (listAccesses .value expressions)
      (listDetached expressions)
  | [], _ => .pure _
  | first :: rest, regular => by
    simp only [areRegular, Bool.and_eq_true] at regular
    rw [lowerList, listAccesses, listDetached]
    exact (lower_tracks first regular.1).bind fun _ =>
      (lowerList_tracks rest regular.2).before fun _ => .pure _
termination_by expressions => sizeOf expressions

theorem lowerComponents_tracks : ∀ components : List Expression, areRegular components = true →
    Tracks (lowerComponents scope components) (listAccesses .value components)
      (listDetached components)
  | [], _ => .pure _
  | first :: rest, regular => by
    simp only [areRegular, Bool.and_eq_true] at regular
    have taken := unlessMissing_tracks scope "" (lower_tracks first regular.1)
    rw [lowerComponents, ite_then, listAccesses, listDetached]
    exact taken.bind fun _ => (lowerComponents_tracks rest regular.2).before fun _ => .pure _
termination_by components => sizeOf components

theorem lowerKeys_tracks : ∀ expression : Expression, expression.isRegular = true →
    expression.isLocation = true →
    Tracks (lowerKeys scope expression) expression.keyReads expression.detached
  | identifier .., _, _ => .pure _
  | index base key lowest highest, regular, location => by
    simp only [isRegular, Bool.and_eq_true] at regular
    rw [isLocation] at location
    rw [lowerKeys, keyReads, detached]
    refine ((lower_tracks key regular.1.1.2).bind fun _ =>
      lowerKeys_tracks base regular.1.1.1 location).congr (fun _ => Iff.rfl) fun item => ?_
    rw [List.mem_append, List.mem_append, or_comm]
  | member base _ _, regular, location => by
    rw [isRegular] at regular
    rw [isLocation] at location
    rw [lowerKeys, keyReads, detached]
    exact lowerKeys_tracks base regular location
  | missing, _, location | literal .., _, location | slice .., _, location
  | binary .., _, location | unary .., _, location | assign .., _, location
  | conditional .., _, location | tuple .., _, location | call .., _, location
  | options .., _, location | typeName .., _, location | new .., _, location
  | other .., _, location => by cases location
termination_by expression => sizeOf expression

theorem storeComponents_tracks (part : Nat → Value) (index : Nat) :
    ∀ components : List Expression, areRegular components = true →
      (∀ component ∈ components, (component.isMissing || component.isLocation) = true) →
      Tracks (storeComponents scope part index components) (listAccesses .target components)
        (listDetached components)
  | [], _, _ => .pure _
  | first :: rest, regular, targets => by
    simp only [areRegular, Bool.and_eq_true] at regular
    rw [List.forall_mem_cons, Bool.or_eq_true] at targets
    rw [storeComponents, listAccesses, listDetached]
    have others := storeComponents_tracks part (index + 1) rest regular.2 targets.2
    split
    next gone =>
      obtain rfl := eq_missing gone
      exact others
    next present =>
      have location := targets.1.resolve_left present
      have keys := lowerKeys_tracks first regular.1 location
      rw [← bind_assoc]
      exact (write_tracks scope regular.1 location keys _ _).bind fun _ =>
        others.before fun _ => .pure _
termination_by components => sizeOf components

theorem lowerReceiver_tracks : ∀ callee : Expression, callee.isRegularCallee = true →
    Tracks (lowerReceiver scope callee) (callee.peeled.accesses .callee) callee.peeled.detached
  | options callee _ _, regular => by
    simp only [isRegularCallee, Bool.and_eq_true] at regular
    rw [lowerReceiver, peeled]
    exact lowerReceiver_tracks callee regular.2
  | member base type name, regular => by
    rw [isRegularCallee] at regular
    have whole : (member base type name).peeled = member base type name := rfl
    rw [lowerReceiver, whole, accesses, detached]
    split
    next idle =>
      cases base with
      | missing => exact .pure _
      | identifier =>
        exact (Tracks.pure _).congr (fun _ => Iff.rfl) fun _ => Iff.rfl
      | _ => cases idle
    next => exact (lower_tracks base regular).before fun _ => .pure _
  | missing, _ | identifier .., _ | typeName .., _ | new .., _ => .pure _
  | literal .., regular | index .., regular | slice .., regular | binary .., regular
  | unary .., regular | assign .., regular | conditional .., regular | tuple .., regular
  | call .., regular | other .., regular => by cases regular
termination_by callee => sizeOf callee

theorem lowerOptions_tracks : ∀ callee : Expression, callee.isRegularCallee = true →
    Tracks (lowerOptions scope callee) callee.optionAccesses callee.optionDetached
  | options callee labels values, regular => by
    simp only [isRegularCallee, Bool.and_eq_true, beq_iff_eq] at regular
    rw [lowerOptions, optionAccesses, optionDetached]
    exact (lowerLabelled_tracks labels values regular.1.1 regular.1.2).bind fun _ =>
      (lowerOptions_tracks callee regular.2).before fun _ => .pure _
  | missing, _ | identifier .., _ | literal .., _ | member .., _ | index .., _ | slice .., _
  | binary .., _ | unary .., _ | assign .., _ | conditional .., _ | tuple .., _ | call .., _
  | typeName .., _ | new .., _ | other .., _ => .pure _
termination_by callee => sizeOf callee

theorem lowerLabelled_tracks : ∀ (labels : List (Option String)) (values : List Expression),
    labels.length = values.length → areRegular values = true →
    Tracks (lowerLabelled scope labels values) (listAccesses .value values) (listDetached values)
  | label :: labels, first :: rest, lengths, regular => by
    simp only [areRegular, Bool.and_eq_true] at regular
    rw [lowerLabelled, listAccesses, listDetached]
    exact (lower_tracks first regular.1).bind fun _ =>
      (lowerLabelled_tracks labels rest (by simpa using lengths) regular.2).before fun _ =>
        .pure _
  | [], [], _, _ => .pure _
  | [], _ :: _, lengths, _ | _ :: _, [], lengths, _ => by cases lengths
termination_by _ values => sizeOf values

end

theorem lowerCondition_tracks {condition : Expression} (regular : condition.isRegular = true) :
    Tracks (condition.lowerCondition scope) (condition.accesses .value) condition.detached := by
  rw [lowerCondition, ite_then]
  exact (unlessMissing_tracks scope "true" (lower_tracks scope condition regular)).before
    fun _ => emit_tracks rfl

theorem lowerOptional_tracks {expression : Expression} (regular : expression.isRegular = true) :
    Tracks (if expression.isMissing then Pure.pure none else some <$> expression.lower scope)
      (expression.accesses .value) expression.detached := by
  split
  next gone =>
    obtain rfl := eq_missing gone
    exact .pure _
  next =>
    rw [map_eq_pure_bind]
    exact (lower_tracks scope expression regular).before fun _ => .pure _

theorem areRegular_iff (expressions : List Expression) :
    areRegular expressions = true ↔ ∀ expression ∈ expressions, expression.isRegular = true := by
  induction expressions with
  | nil => simp [areRegular]
  | cons first rest ih => rw [areRegular, Bool.and_eq_true, ih, List.forall_mem_cons]

theorem listDetached_eq_flatMap (expressions : List Expression) :
    listDetached expressions = expressions.flatMap detached := by
  induction expressions with
  | nil => rfl
  | cons first rest ih => rw [listDetached, ih, List.flatMap_cons]

theorem lowerAll_tracks {expressions : List Expression}
    (regular : ∀ expression ∈ expressions, expression.isRegular = true) :
    Tracks (lowerList scope expressions) (listAccesses .value expressions)
      (expressions.flatMap detached) := by
  rw [← listDetached_eq_flatMap]
  exact lowerList_tracks scope expressions ((areRegular_iff expressions).mpr regular)

end Expression

end Reentrancy
