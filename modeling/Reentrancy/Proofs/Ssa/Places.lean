import Reentrancy.Proofs.Lowering.Agreement
import Reentrancy.Proofs.Lowering.Run

/-! The places of operands. A path leads into a value, part by part; where a substitution puts
something in, the paths go on inside it. What an instruction reads is what stands at a place of one
of its operands, and the previous value of an assignment. -/
namespace Reentrancy

namespace Value

def parts : Value → List Value
  | var _ | literal _ | raw _ => []
  | binary _ left right => [left, right]
  | unary _ operand => [operand]
  | apply _ arguments => arguments
  | tuple items => items
  | choice condition yes no => [condition, yes, no]

/-- What stands at a path; the path says which part to take at every level. -/
def place : Value → List Nat → Option Value
  | value, [] => some value
  | value, index :: rest => value.parts[index]?.bind fun part => part.place rest

@[simp] theorem place_nil (value : Value) : value.place [] = some value := by
  cases value <;> rfl

theorem place_cons (value : Value) (index : Nat) (rest : List Nat) :
    value.place (index :: rest) = value.parts[index]?.bind fun part => part.place rest := by
  cases value <;> rfl

theorem place_append (value : Value) (front back : List Nat) :
    value.place (front ++ back) = (value.place front).bind fun part => part.place back := by
  induction front generalizing value with
  | nil => simp
  | cons index rest ih =>
    rw [List.cons_append, place_cons, place_cons, Option.bind_assoc]
    congr 1
    funext part
    exact ih part

theorem place_var_eq_some {read : Variable} {path : List Nat} {value : Value} :
    (var read).place path = some value ↔ path = [] ∧ var read = value := by
  cases path with
  | nil => simp
  | cons index rest => simp [place_cons, parts]

section Substitution

variable {rule : Variable → Option Value}

theorem parts_substitute {value : Value} (noVar : ∀ read, value ≠ var read) :
    (value.substitute rule).parts = value.parts.map (substitute rule) := by
  cases value with
  | var read => exact absurd rfl (noVar read)
  | apply | tuple => simp [substitute, parts, substituteList_eq_map]
  | _ => simp [substitute, parts]

theorem place_substitute {value part : Value} {path : List Nat}
    (found : value.place path = some part) :
    (value.substitute rule).place path = some (part.substitute rule) := by
  induction path generalizing value with
  | nil =>
    rw [place_nil] at found ⊢
    exact congrArg (fun value => some (value.substitute rule)) (Option.some.inj found)
  | cons index rest ih =>
    rw [place_cons] at found ⊢
    obtain ⟨child, stands, below⟩ := Option.bind_eq_some_iff.mp found
    have noVar (read : Variable) : value ≠ var read := by
      rintro rfl
      simp [parts] at stands
    rw [parts_substitute noVar, List.getElem?_map, stands]
    exact ih below

end Substitution

theorem place_substitute_eq_var {rule : Variable → Value} {value : Value} {path : List Nat}
    {target : Variable} :
    (value.substitute fun read => some (rule read)).place path = some (var target) ↔
      ∃ front back read, path = front ++ back ∧ value.place front = some (var read) ∧
        (rule read).place back = some (var target) := by
  constructor
  · intro found
    induction path generalizing value with
    | nil =>
      cases value with
      | var read => exact ⟨[], [], read, rfl, rfl, found⟩
      | _ => simp [substitute] at found
    | cons index rest ih =>
      by_cases reads : ∃ read, value = var read
      · obtain ⟨read, rfl⟩ := reads
        exact ⟨[], index :: rest, read, rfl, rfl, found⟩
      · rw [place_cons, parts_substitute (by simpa using reads), List.getElem?_map] at found
        obtain ⟨part, stands, below⟩ := Option.bind_eq_some_iff.mp found
        obtain ⟨child, there, rfl⟩ := Option.map_eq_some_iff.mp stands
        obtain ⟨front, back, read, rfl, place, put⟩ := ih below
        refine ⟨index :: front, back, read, rfl, ?_, put⟩
        rw [place_cons, there]
        exact place
  · rintro ⟨front, back, read, rfl, place, put⟩
    rw [place_append, place_substitute place]
    exact put

theorem sizeOf_lt_of_mem_parts {value part : Value} (member : part ∈ value.parts) :
    sizeOf part < sizeOf value := by
  cases value with
  | var | literal | raw => cases member
  | apply | tuple =>
    have smaller := List.sizeOf_lt_of_mem member
    simp only [parts] at smaller
    simp
    omega
  | binary | unary | choice =>
    simp only [parts, List.mem_cons, List.not_mem_nil, or_false] at member
    rcases member with rfl | rfl | rfl <;> simp <;> omega

theorem reads_eq_parts {value : Value} (noVar : ∀ read, value ≠ var read) :
    value.reads = value.parts.flatMap reads := by
  cases value with
  | var read => exact absurd rfl (noVar read)
  | apply | tuple => exact listReads_eq_flatMap _
  | _ => simp [reads, parts]

theorem mem_reads_iff {read : Variable} (value : Value) :
    read ∈ value.reads ↔ ∃ path, value.place path = some (var read) := by
  by_cases whole : ∃ read, value = var read
  · obtain ⟨other, rfl⟩ := whole
    simp [reads, place_var_eq_some, eq_comm (a := read)]
  · have noVar : ∀ read, value ≠ var read := by simpa using whole
    rw [reads_eq_parts noVar, List.mem_flatMap]
    constructor
    · rintro ⟨part, member, inside⟩
      obtain ⟨index, stands⟩ := List.mem_iff_getElem?.mp member
      obtain ⟨path, found⟩ := (mem_reads_iff part).mp inside
      refine ⟨index :: path, ?_⟩
      rw [place_cons, stands]
      exact found
    · rintro ⟨path, found⟩
      cases path with
      | nil => exact absurd (Option.some.inj found) (noVar read)
      | cons index rest =>
        rw [place_cons] at found
        obtain ⟨part, stands, below⟩ := Option.bind_eq_some_iff.mp found
        have member := List.mem_of_getElem? stands
        exact ⟨part, member, (mem_reads_iff part).mpr ⟨rest, below⟩⟩
termination_by sizeOf value
decreasing_by all_goals exact sizeOf_lt_of_mem_parts member

def asPrevious (kept : Variable) : Value → Variable
  | var read => read
  | _ => kept

theorem substitutePrevious_eq (rule : Variable → Value) (previous : Variable) :
    Assignment.substitutePrevious (fun read => some (rule read)) previous =
      (rule previous).asPrevious previous := by
  cases found : rule previous <;> simp [Assignment.substitutePrevious, asPrevious, found]

end Value

namespace Instruction

/-- The operands that are values; the previous value of an assignment is a variable. -/
def operands : Instruction → List Value
  | assign assignment => [assignment.value]
  | call operation =>
    operation.receiver.toList ++ operation.options.map (·.2) ++ operation.arguments
  | condition value | expression value => [value]
  | ret values | emit _ values => values
  | phi _ _ | raw _ => []

def previous? : Instruction → Option Variable
  | assign assignment => assignment.previous
  | _ => none

def operandAt (instruction : Instruction) (index : Nat) (path : List Nat) : Option Value :=
  instruction.operands[index]?.bind fun operand => operand.place path

theorem uses_eq_operands {instruction : Instruction} (noPhi : instruction.isPhi = false) :
    instruction.uses =
      instruction.previous?.toList ++ instruction.operands.flatMap Value.reads := by
  cases instruction with
  | phi => cases noPhi
  | call operation =>
    cases receiver : operation.receiver <;>
      simp [uses, previous?, operands, CallOperation.reads, receiver, List.flatMap_map]
  | _ => simp [uses, previous?, operands]

theorem mem_uses_iff {instruction : Instruction} (noPhi : instruction.isPhi = false)
    (read : Variable) :
    read ∈ instruction.uses ↔ instruction.previous? = some read ∨
      ∃ index path, instruction.operandAt index path = some (.var read) := by
  rw [uses_eq_operands noPhi, List.mem_append, Option.mem_toList, List.mem_flatMap]
  apply or_congr_right
  constructor
  · rintro ⟨operand, member, inside⟩
    obtain ⟨index, stands⟩ := List.mem_iff_getElem?.mp member
    obtain ⟨path, found⟩ := operand.mem_reads_iff.mp inside
    exact ⟨index, path, by rw [operandAt, stands]; exact found⟩
  · rintro ⟨index, path, found⟩
    obtain ⟨operand, stands, below⟩ := Option.bind_eq_some_iff.mp found
    exact ⟨operand, List.mem_of_getElem? stands, operand.mem_reads_iff.mpr ⟨path, below⟩⟩

section Rewriting

variable (rule : Variable → Option Value) (instruction : Instruction)

theorem operands_substitute :
    (instruction.substitute rule).operands = instruction.operands.map (Value.substitute rule) := by
  cases instruction with
  | call operation =>
    cases receiver : operation.receiver <;>
      simp [substitute, operands, CallOperation.substitute, receiver]
  | _ => simp [substitute, operands, Assignment.substitute]

theorem previous?_substitute :
    (instruction.substitute rule).previous? =
      instruction.previous?.map (Assignment.substitutePrevious rule) := by
  cases instruction <;> rfl

end Rewriting

end Instruction
end Reentrancy
