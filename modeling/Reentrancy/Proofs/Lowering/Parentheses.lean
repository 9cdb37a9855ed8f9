import Reentrancy.Proofs.Lowering.Run

/-! Parentheses around the target of a write. They read as a tuple of one component, and only
an assignment takes a tuple apart: one level of it, and without its operator. In every other
place the tuple is itself the target and goes by its text. -/
namespace Reentrancy

namespace Expression

def parenthesized : Nat → Expression → Expression
  | 0, expression => expression
  | depth + 1, expression => tuple false [expression.parenthesized depth]

theorem parenthesized_isMissing {target : Expression} (present : target.isMissing = false)
    (depth : Nat) : (target.parenthesized depth).isMissing = false := by
  cases depth with
  | zero => exact present
  | succ => rfl

theorem length_text_parenthesized (depth : Nat) (expression : Expression) :
    (expression.parenthesized depth).text.length = expression.text.length + 2 * depth := by
  induction depth with
  | zero => rfl
  | succ depth ih =>
    have around : (expression.parenthesized (depth + 1)).text =
        "(" ++ (expression.parenthesized depth).text ++ ")" := rfl
    have opening : "(".length = 1 := rfl
    have closing : ")".length = 1 := rfl
    rw [around, String.length_append, String.length_append, ih, opening, closing]
    omega

theorem locationName_eq_text (target : Expression) : target.locationName = target.text := by
  cases target with
  | member base type name =>
    by_cases inner : base.isLocation = true <;> simp [locationName, path, inner]
  | index base key lower upper =>
    by_cases inner : base.isLocation = true <;> simp [locationName, path, inner]
  | _ => rfl

theorem locationName_parenthesized_ne (target : Expression) (depth : Nat) :
    (target.parenthesized (depth + 1)).locationName ≠ target.locationName := by
  -- a target goes by its text, and each pair of parentheses makes that longer
  intro same
  rw [locationName_eq_text, locationName_eq_text] at same
  have lengths := congrArg String.length same
  rw [length_text_parenthesized] at lengths
  omega

theorem isMissing_of_isLocation {target : Expression} (location : target.isLocation = true) :
    target.isMissing = false := by
  cases target with
  | missing => cases location
  | _ => rfl

def stored (scope : Scope) (value : Expression) : Lower Value :=
  if value.isMissing then pure (.literal "0") else value.lower scope

def write (scope : Scope) (target : Expression) (operator : String) (value : Value) :
    Lower Unit := do
  lowerKeys scope target
  let _ ← Lower.store target operator value

end Expression

inductive Update where
  | assign (operator : String) (value : Expression)
  | increment (leading : Bool)
  | decrement (leading : Bool)
  | delete (leading : Bool)

namespace Update

open Expression

def on (target : Expression) : Update → Statement
  | assign operator value => .expression (.assign operator target value)
  | increment leading => .expression (.unary "++" leading target)
  | decrement leading => .expression (.unary "--" leading target)
  | delete leading => .expression (.unary "delete" leading target)

variable (scope : Scope)

theorem lower_expression {value : Expression} (present : value.isMissing = false)
    (leaves : value.leavesInstruction = true) :
    (Statement.expression value).lower scope = value.lower scope >>= fun _ => pure () := by
  rw [Statement.lower, present, leaves]
  rfl

theorem lower_assign {target : Expression} (location : target.isLocation = true)
    (operator : String) (value : Expression) :
    ((assign operator value).on target).lower scope =
      value.stored scope >>= target.write scope (stepOperator operator) := by
  rw [on, lower_expression scope rfl rfl, lower, Lower.ite_then]
  unfold stored write
  rw [bind_assoc]
  congr 1
  funext value
  cases target with
  | identifier | member | index => simp only [bind_assoc, pure_bind]
  | _ => cases location

theorem lower_assign_parenthesized {target : Expression} (present : target.isMissing = false)
    (operator : String) (value : Expression) :
    ((assign operator value).on (tuple false [target])).lower scope =
      value.stored scope >>= fun stored =>
        target.write scope "" (Value.component 1 (some stored) 0) := by
  rw [on, lower_expression scope rfl rfl, lower, Lower.ite_then]
  unfold stored write
  rw [bind_assoc]
  congr 1
  funext value
  simp [storeComponents, present]

def change : Update → Option (String × Value)
  | assign .. => none
  | increment _ => some ("+", .literal "1")
  | decrement _ => some ("-", .literal "1")
  | delete _ => some ("", .literal "0")

theorem lower_change {update : Update} {operator : String} {value : Value}
    (changes : update.change = some (operator, value)) {target : Expression}
    (present : target.isMissing = false) :
    (update.on target).lower scope = target.write scope operator value := by
  cases update with
  | assign => cases changes
  | increment | decrement | delete =>
    obtain ⟨rfl, rfl⟩ := Prod.mk.inj (Option.some.inj changes)
    rw [on, lower_expression scope rfl rfl]
    funext versions
    simp [lower, present, write, Lower.use, Emission.empty_append, Emission.append_empty]

theorem write_instructions (target : Expression) (operator : String) (value : Value)
    (versions : Versions) :
    (target.write scope operator value versions).emission.instructions =
      (lowerKeys scope target versions).emission.instructions ++
        [.assign (Lower.storeAssignment target operator value
          (lowerKeys scope target versions).versions)] := by
  simp [write, Lower.store_apply, Emission.append]

theorem component_one (value : Value) :
    Value.component 1 (some value) 0 = value ↔ ∀ item, value ≠ .tuple [item] := by
  cases value with
  | tuple items =>
    match items with
    | [] => simp [Value.component]
    | [item] =>
      have smaller : item ≠ .tuple [item] := by
        intro same
        have sizes := congrArg sizeOf same
        simp at sizes
        omega
      simp [Value.component, smaller]
    | first :: second :: rest => simp [Value.component]
  | _ => simp [Value.component]

theorem target_storeAssignment (target : Expression) (operator : String) (value : Value)
    (versions : Versions) :
    (Lower.storeAssignment target operator value versions).target.name = target.locationName := by
  unfold Lower.storeAssignment
  split <;> rfl

theorem storeAssignment_plain_iff (target : Expression) (operator : String) (value other : Value)
    (versions : Versions) :
    Lower.storeAssignment target "" value versions =
        Lower.storeAssignment target operator other versions ↔ operator = "" ∧ value = other := by
  unfold Lower.storeAssignment
  by_cases plain : operator = "" <;> simp [plain]

theorem write_name {target other : Expression} {operator sign : String} {value given : Value}
    {versions : Versions}
    (same : (target.write scope operator value versions).emission.instructions =
      (other.write scope sign given versions).emission.instructions) :
    target.locationName = other.locationName := by
  -- what is written last tells the targets apart
  rw [write_instructions, write_instructions] at same
  obtain ⟨_, last⟩ := List.append_inj' same rfl
  have assigned := Instruction.assign.inj (List.cons.inj last).1
  rw [← target_storeAssignment target operator value (lowerKeys scope target versions).versions,
    assigned, target_storeAssignment]

def StoresWhole (versions : Versions) : Update → Prop
  | assign operator value =>
    stepOperator operator = "" ∧ ∀ item, (value.stored scope versions).value ≠ .tuple [item]
  | increment _ | decrement _ | delete _ => False

variable {target : Expression} (location : target.isLocation = true) (depth : Nat)
  (versions : Versions)

include location

theorem change_parenthesized {update : Update} {operator : String} {value : Value}
    (changes : update.change = some (operator, value)) :
    ((update.on (target.parenthesized (depth + 1))).lower scope versions).emission.instructions ≠
      ((update.on target).lower scope versions).emission.instructions := by
  have present := isMissing_of_isLocation location
  rw [lower_change scope changes present,
    lower_change scope changes (parenthesized_isMissing present _)]
  intro same
  exact locationName_parenthesized_ne target depth (write_name scope same)

theorem assign_parenthesized_iff (operator : String) (value : Expression) :
    (((assign operator value).on (target.parenthesized (depth + 1))).lower scope
        versions).emission.instructions =
        (((assign operator value).on target).lower scope versions).emission.instructions ↔
      depth = 0 ∧ (assign operator value).StoresWhole scope versions := by
  have present := parenthesized_isMissing (isMissing_of_isLocation location) depth
  rw [lower_assign scope location, parenthesized, lower_assign_parenthesized scope present]
  simp only [Lower.bind_apply, Emission.append, List.append_cancel_left_eq, StoresWhole]
  cases depth with
  | succ depth =>
    constructor
    · intro same
      exact absurd (write_name scope same) (locationName_parenthesized_ne target depth)
    · rintro ⟨none, _⟩
      cases none
  | zero =>
    simp [parenthesized, write_instructions, storeAssignment_plain_iff, component_one]

/-- Parentheses around a target make no difference exactly if there is one pair of them around
the target of a plain assignment of anything but a tuple of one item. Wherever they make one,
it shows in the instructions. -/
theorem lower_parenthesized_iff (update : Update) :
    let enclosed := (update.on (target.parenthesized (depth + 1))).lower scope versions
    let plain := (update.on target).lower scope versions
    (enclosed = plain ↔ depth = 0 ∧ update.StoresWhole scope versions) ∧
      (enclosed.emission.instructions = plain.emission.instructions ↔
        depth = 0 ∧ update.StoresWhole scope versions) := by
  intro enclosed plain
  have shown : enclosed.emission.instructions = plain.emission.instructions ↔
      depth = 0 ∧ update.StoresWhole scope versions := by
    cases update with
    | assign operator value => exact assign_parenthesized_iff scope location depth versions ..
    | increment | decrement | delete =>
      constructor
      · intro same
        exact absurd same (change_parenthesized scope location depth versions rfl)
      · rintro ⟨_, whole⟩
        exact whole.elim
  refine ⟨⟨fun same => shown.mp (congrArg (·.emission.instructions) same), ?_⟩, shown⟩
  rintro ⟨rfl, whole⟩
  cases update with
  | assign operator value =>
    obtain ⟨noOperator, noTuple⟩ := whole
    have present := isMissing_of_isLocation location
    have kept := (component_one (value.stored scope versions).value).mpr noTuple
    unfold enclosed plain
    rw [lower_assign scope location, noOperator, parenthesized,
      lower_assign_parenthesized scope (parenthesized_isMissing present 0)]
    simp only [Lower.bind_apply, kept, parenthesized]
  | increment | decrement | delete => exact whole.elim

omit location

/-- One pair of parentheses in `(x) = 1` makes no difference, and two do. -/
theorem plain_assignment_parenthesized :
    let update := Update.assign "=" (.literal { value := some "1" })
    let target := Expression.identifier "x" false
    target.isLocation = true ∧
      (update.on (target.parenthesized 1)).lower {} {} = (update.on target).lower {} {} ∧
      (update.on (target.parenthesized 2)).lower {} {} ≠ (update.on target).lower {} {} := by
  intro update target
  have location : target.isLocation = true := rfl
  have one := lower_parenthesized_iff {} location 0 {} update
  have two := lower_parenthesized_iff {} location 1 {} update
  have whole : update.StoresWhole {} {} := ⟨rfl, fun item same => by cases same⟩
  exact ⟨location, one.1.mpr ⟨rfl, whole⟩, fun same => by cases (two.1.mp same).1⟩

/-- In `(x)++` it is not `x` that is counted up, and `(x) += 1` stores what `x = 1` does. -/
theorem parenthesized_counter_renamed :
    let lowered (update : Update) (target : Expression) := (update.on target).lower {} {}
    let target := Expression.identifier "x" false
    let one := Expression.literal { value := some "1" }
    (lowered (.increment false) target).emission.defined = ["x"] ∧
      (lowered (.increment false) (target.parenthesized 1)).emission.defined = ["(x)"] ∧
      lowered (.assign "+=" one) (target.parenthesized 1) = lowered (.assign "=" one) target := by
  exact ⟨rfl, rfl, rfl⟩

end Update
end Reentrancy
