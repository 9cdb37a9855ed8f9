import Reentrancy.Proofs.Access
import Reentrancy.Proofs.Lowering.Calls

/-! The writes of a tree. Two walks look for them: one collects the names that an expression
accesses, the other lowers it. In a regular tree they meet the same positions, except for two: a
tuple that `++`, `--` or `delete` steps as a whole, and the options of a conversion. What stands
there is detached from the lowered code. -/
namespace Reentrancy

def Access.written? : Access → Option String
  | .read _ => none
  | .write name => if name = "" then none else some name

def writtenNames (accesses : List Access) : List String := accesses.filterMap Access.written?

@[simp] theorem writtenNames_nil : writtenNames [] = [] := rfl

theorem mem_writtenNames_append {name : String} {first second : List Access} :
    name ∈ writtenNames (first ++ second) ↔
      name ∈ writtenNames first ∨ name ∈ writtenNames second := by
  rw [writtenNames, List.filterMap_append, List.mem_append]
  rfl

@[simp] theorem writtenNames_read (names : List String) :
    writtenNames (names.map Access.read) = [] := by
  simp [writtenNames, Access.written?]

theorem mem_writtenNames {name : String} {accesses : List Access} :
    name ∈ writtenNames accesses ↔ .write name ∈ accesses ∧ name ≠ "" := by
  rw [writtenNames, List.mem_filterMap]
  constructor
  · rintro ⟨access, member, written⟩
    cases access with
    | read other => cases written
    | write other =>
      rw [Access.written?] at written
      split at written
      · cases written
      next filled =>
        obtain rfl := Option.some.inj written
        exact ⟨member, filled⟩
  · rintro ⟨member, filled⟩
    exact ⟨.write name, member, if_neg filled⟩

theorem mem_writtenNames_write {name : String} {names : List String} :
    name ∈ writtenNames (names.map Access.write) ↔ name ≠ "" ∧ name ∈ names := by
  simp [mem_writtenNames, and_comm]

theorem Accesses.contains_writes (accesses : List Access) (name : String) :
    (ofList accesses).writes.contains name = true ↔ name ∈ writtenNames accesses :=
  (holds_ofList accesses (.write name)).trans mem_writtenNames.symm

namespace Expression

def isTarget : Expression → Bool
  | missing => true
  | tuple _ components => components.all fun component =>
    component.isMissing || component.isLocation
  | target => target.isLocation

def isTypePath : Expression → Bool
  | identifier .. | typeName _ => true
  | member base _ _ => base.isTypePath
  | _ => false

def isTuple : Expression → Bool
  | tuple .. => true
  | _ => false

def converts (form : CallForm) (callee : Expression) : Bool :=
  isConversion form callee || form == .construction

mutual

/-- A tree that has names, write targets, callees and keys where they belong. -/
def isRegular : Expression → Bool
  | missing | literal _ | typeName _ | new _ | other _ => true
  | identifier name _ => name != ""
  | member base _ _ => base.isRegular
  | index base key lower upper =>
    base.isRegular && key.isRegular && lower.isMissing && upper.isMissing
  | slice base key lower upper =>
    base.isRegular && key.isMissing && lower.isRegular && upper.isRegular
  | binary _ left right => left.isRegular && right.isRegular
  | unary operator _ operand => (!writesOperand operator || operand.isTarget) && operand.isRegular
  | assign _ target value => target.isTarget && target.isRegular && value.isRegular
  | conditional condition yes no => condition.isRegular && yes.isRegular && no.isRegular
  | tuple _ components => areRegular components
  | call form callee arguments _ _ =>
    (if converts form callee then callee.peeled.isTypePath else callee.isRegularCallee) &&
      areRegular arguments
  | options .. => false

def areRegular : List Expression → Bool
  | [] => true
  | first :: rest => first.isRegular && areRegular rest

def isRegularCallee : Expression → Bool
  | options callee labels values =>
    labels.length == values.length && areRegular values && callee.isRegularCallee
  | missing | typeName _ | new _ => true
  | identifier name _ => name != ""
  | member base _ _ => base.isRegular
  | _ => false

end

def optionAccesses : Expression → List Access
  | options callee _ values => listAccesses .value values ++ callee.optionAccesses
  | _ => []

/-- A position of which lowering does not meet the accesses. Where something is stored there
nevertheless, it goes by the text. -/
structure Detached where
  accesses : List Access
  text : Option String := none

def lostNames (positions : List Detached) : List String :=
  positions.flatMap fun position => writtenNames position.accesses

def storedTexts (positions : List Detached) : List String := positions.filterMap Detached.text

def detachedOptions : Expression → List Detached
  | options callee labels values => [{ accesses := (options callee labels values).optionAccesses }]
  | _ => []

mutual

def detached : Expression → List Detached
  | missing | identifier .. | literal _ | typeName _ | new _ | other _ => []
  | member base _ _ => base.detached
  | index base key _ _ => base.detached ++ key.detached
  | slice base _ lower upper => base.detached ++ lower.detached ++ upper.detached
  | binary _ left right => left.detached ++ right.detached
  | unary operator _ operand =>
    if writesOperand operator && operand.isTuple then
      [⟨operand.accesses .target, some operand.text⟩]
    else operand.detached
  | assign _ target value => target.detached ++ value.detached
  | conditional condition yes no => condition.detached ++ yes.detached ++ no.detached
  | tuple _ components => listDetached components
  | call form callee arguments _ _ =>
    (if converts form callee then callee.detachedOptions else callee.detached) ++
      listDetached arguments
  | options callee _ values => listDetached values ++ callee.detached

def listDetached : List Expression → List Detached
  | [] => []
  | first :: rest => first.detached ++ listDetached rest

end

section Locations

variable {target : Expression}

theorem accesses_location (location : target.isLocation = true) {role : Role}
    (evaluated : role ≠ .callee) :
    target.accesses role = (target.path.map fun part =>
      if role = .target then Access.write part else .read part) ++ target.keyReads := by
  cases role with
  | callee => exact absurd rfl evaluated
  | value | target =>
    cases target with
    | identifier | member | index =>
      simp_all [isLocation, accesses, path, keyReads]
    | _ => cases location

theorem written_value (location : target.isLocation = true) {name : String} :
    name ∈ writtenNames (target.accesses .value) ↔ name ∈ writtenNames target.keyReads := by
  rw [accesses_location location (by decide), mem_writtenNames_append]
  simp

theorem path_named (location : target.isLocation = true) (regular : target.isRegular = true) :
    ∀ name ∈ target.path, name ≠ "" := by
  fun_induction path target with
  | case1 name => simpa [isRegular] using regular
  | case2 base type name inner ih =>
    rw [isRegular] at regular
    rw [List.forall_mem_append, List.forall_mem_singleton, text]
    exact ⟨ih inner regular, by simp⟩
  | case4 base key lower upper inner ih =>
    simp only [isRegular, Bool.and_eq_true] at regular
    rw [List.forall_mem_append, List.forall_mem_singleton, text]
    exact ⟨ih inner regular.1.1.1, by simp⟩
  | _ => simp

theorem written_target (location : target.isLocation = true) (regular : target.isRegular = true)
    {name : String} : name ∈ writtenNames (target.accesses .target) ↔
      name ∈ target.path ∨ name ∈ writtenNames target.keyReads := by
  have named := path_named location regular
  rw [accesses_location location (by decide), mem_writtenNames_append]
  simp only [if_true, mem_writtenNames_write]
  grind

theorem mem_stored (location : target.isLocation = true) {name : String} :
    name ∈ target.locationName :: target.path.dropLast ↔ name ∈ target.path := by
  have rooted : target.path ≠ [] := by
    cases target with
    | identifier | member | index => simp_all [isLocation, path]
    | _ => cases location
  have last : target.locationName = target.path.getLast rooted := by
    rw [locationName, List.getLast?_eq_some_getLast rooted, Option.getD_some]
  conv => rhs; rw [← List.dropLast_concat_getLast rooted]
  rw [last, List.mem_cons, List.mem_append, List.mem_singleton, or_comm]

theorem written_of_value (isTarget : target.isTarget = true) {name : String}
    (written : name ∈ writtenNames (target.accesses .value)) :
    name ∈ writtenNames (target.accesses .target) := by
  have located {part : Expression} (location : part.isLocation = true)
      (inside : name ∈ writtenNames (part.accesses .value)) :
      name ∈ writtenNames (part.accesses .target) := by
    rw [written_value location] at inside
    rw [accesses_location location (by decide), mem_writtenNames_append]
    exact .inr inside
  cases target with
  | missing => exact written
  | identifier | member | index => exact located isTarget written
  | tuple isArray components =>
    simp only [accesses] at written ⊢
    simp only [Expression.isTarget, List.all_eq_true, Bool.or_eq_true] at isTarget
    induction components with
    | nil => exact written
    | cons first rest ih =>
      rw [List.forall_mem_cons] at isTarget
      simp only [listAccesses, mem_writtenNames_append] at written ⊢
      refine written.imp (fun here => ?_) (fun later => ih later isTarget.2)
      rcases isTarget.1 with gone | location
      · obtain rfl := eq_missing gone
        exact here
      · exact located location here
  | _ => cases isTarget

theorem written_step {operator : String} (writes : writesOperand operator = true) (leading : Bool)
    (isTarget : target.isTarget = true) {name : String} :
    name ∈ writtenNames ((unary operator leading target).accesses .value) ↔
      name ∈ writtenNames (target.accesses .target) := by
  have read := @written_of_value _ isTarget name
  rw [accesses]
  split
  next =>
    rw [mem_writtenNames_append]
    exact ⟨fun either => either.elim read id, .inr⟩
  next counted =>
    rw [if_pos ((writesOperand_iff.mp writes).resolve_left counted)]

theorem written_assign (operator : String) (isTarget : target.isTarget = true)
    (value : Expression) {name : String} :
    name ∈ writtenNames ((assign operator target value).accesses .value) ↔
      name ∈ writtenNames (value.accesses .value) ∨
        name ∈ writtenNames (target.accesses .target) := by
  have read := @written_of_value _ isTarget name
  rw [accesses, mem_writtenNames_append, mem_writtenNames_append]
  split
  · simp [or_comm]
  · constructor
    · rintro ((written | value) | stored)
      · exact .inr written
      · exact .inr (read value)
      · exact .inl stored
    · rintro (stored | written)
      · exact .inr stored
      · exact .inl (.inl written)

end Locations

section Callees

def optionDetached : Expression → List Detached
  | options callee _ values => listDetached values ++ callee.optionDetached
  | _ => []

theorem peeled_of_plain {callee : Expression}
    (plain : ∀ inner labels values, callee = options inner labels values → False) :
    callee.peeled = callee := by
  cases callee with
  | options inner labels values => exact (plain inner labels values rfl).elim
  | _ => rfl

theorem written_callee (callee : Expression) {name : String} :
    name ∈ writtenNames (callee.accesses .callee) ↔
      name ∈ writtenNames callee.optionAccesses ∨
        name ∈ writtenNames (callee.peeled.accesses .callee) := by
  fun_induction optionAccesses callee with
  | case1 callee labels values ih =>
    simp only [accesses, peeled, mem_writtenNames_append, ih, or_assoc]
  | case2 callee plain =>
    simp [peeled_of_plain plain]

theorem mem_detached_callee (callee : Expression) {item : Detached} :
    item ∈ callee.detached ↔ item ∈ callee.optionDetached ∨ item ∈ callee.peeled.detached := by
  fun_induction optionDetached callee with
  | case1 callee labels values ih =>
    simp only [detached, peeled, List.mem_append, ih, or_assoc]
  | case2 callee plain =>
    simp [peeled_of_plain plain]

theorem typePath_reads : ∀ type : Expression, type.isTypePath = true →
    writtenNames (type.accesses .value) = [] ∧ type.keyReads = []
  | identifier .., _ | typeName _, _ => ⟨rfl, rfl⟩
  | member base _ _, path => by
    obtain ⟨none, keys⟩ := typePath_reads base path
    rw [keyReads]
    simp only [accesses, keys]
    refine ⟨?_, trivial⟩
    split
    · simp
    · exact none

theorem typePath_written {type : Expression} (path : type.isTypePath = true) :
    writtenNames (type.accesses .callee) = [] := by
  cases type with
  | identifier | typeName => rfl
  | member base _ _ => exact (typePath_reads base path).1
  | _ => cases path

theorem storedTexts_detachedOptions (callee : Expression) :
    storedTexts callee.detachedOptions = [] := by
  cases callee <;> rfl

theorem written_conversion {callee : Expression} (path : callee.peeled.isTypePath = true)
    {name : String} : name ∈ writtenNames (callee.accesses .callee) ↔
      name ∈ lostNames callee.detachedOptions := by
  rw [written_callee, typePath_written path]
  cases callee with
  | options => simp [lostNames, detachedOptions]
  | _ => simp [lostNames, detachedOptions, optionAccesses]

end Callees

end Expression
end Reentrancy
