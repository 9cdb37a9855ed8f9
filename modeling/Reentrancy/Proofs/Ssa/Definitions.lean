import Reentrancy.Inline.Template
import Reentrancy.Ssa.Versions

/-! What instructions define and read, and how definitions are counted. The definitions of a list of
instructions continue a table of counters if the versions of every name follow one another
from its counter on and the counters end at the last of them. -/
namespace Reentrancy

@[simp] theorem Table.version_empty (name : String) : (Table.empty : Table Nat).version name = 0 :=
  rfl

@[simp] theorem Table.version_insert (table : Table Nat) (name other : String) (version : Nat) :
    (table.insert name version).version other =
      if other = name then version else table.version other := by
  unfold Table.version
  rw [get?_insert]
  split <;> rfl

def versionsOf (name : String) (defined : List Variable) : List Nat :=
  (defined.filter fun definition => definition.name == name).map (·.version)

theorem versionsOf_append (name : String) (first second : List Variable) :
    versionsOf name (first ++ second) = versionsOf name first ++ versionsOf name second := by
  simp [versionsOf]

theorem mem_versionsOf {definition : Variable} {defined : List Variable}
    (member : definition ∈ defined) : definition.version ∈ versionsOf definition.name defined :=
  List.mem_map.mpr ⟨definition, List.mem_filter.mpr ⟨member, by simp⟩, rfl⟩

theorem mem_of_versionsOf {name : String} {version : Nat} {defined : List Variable}
    (member : version ∈ versionsOf name defined) : ⟨name, version⟩ ∈ defined := by
  obtain ⟨found, inside, rfl⟩ := List.mem_map.mp member
  obtain ⟨listed, named⟩ := List.mem_filter.mp inside
  rw [beq_iff_eq] at named
  exact named ▸ listed

theorem versionsOf_eq_nil {name : String} {defined : List Variable}
    (absent : name ∉ defined.map Variable.name) : versionsOf name defined = [] := by
  rw [versionsOf, List.map_eq_nil_iff, List.filter_eq_nil_iff]
  intro member inside same
  exact absent (List.mem_map.mpr ⟨member, inside, by simpa using same⟩)

theorem nodup_of_versionsOf {defined : List Variable}
    (distinct : ∀ name, (versionsOf name defined).Nodup) : defined.Nodup := by
  induction defined with
  | nil => exact List.nodup_nil
  | cons first rest ih =>
    have split (name : String) :
        versionsOf name (first :: rest) = versionsOf name [first] ++ versionsOf name rest :=
      versionsOf_append name [first] rest
    refine List.nodup_cons.mpr ⟨fun member => ?_, ih fun name => ?_⟩
    · have here := distinct first.name
      rw [split] at here
      exact (List.nodup_append.mp here).2.2 _ (mem_versionsOf (List.mem_singleton_self first)) _
        (mem_versionsOf member) rfl
    · have here := distinct name
      rw [split] at here
      exact (List.nodup_append.mp here).2.1

def Continues (before : Table Nat) (defined : List Variable) (after : Table Nat) : Prop :=
  ∀ name, ∃ count, after.version name = before.version name + count ∧
    versionsOf name defined = List.range' (before.version name + 1) count

namespace Continues

variable {before middle after : Table Nat}

theorem nil (table : Table Nat) : Continues table [] table := fun _ => ⟨0, rfl, rfl⟩

theorem append {first second : List Variable} (left : Continues before first middle)
    (right : Continues middle second after) : Continues before (first ++ second) after := by
  intro name
  obtain ⟨earlier, reached, firstVersions⟩ := left name
  obtain ⟨later, ended, secondVersions⟩ := right name
  refine ⟨earlier + later, by omega, ?_⟩
  rw [versionsOf_append, firstVersions, secondVersions, reached, Nat.add_right_comm,
    List.range'_append_1]

theorem single {defined : Variable} (fresh : defined.version = before.version defined.name + 1)
    (counted : ∀ name, after.version name =
      if name = defined.name then defined.version else before.version name) :
    Continues before [defined] after := by
  intro name
  rw [counted]
  by_cases same : name = defined.name
  · subst same
    exact ⟨1, by simp [fresh], by simp [versionsOf, fresh]⟩
  · exact ⟨0, by simp [same], by simp [versionsOf, Ne.symm same]⟩

theorem congr_left {other : Table Nat} {defined : List Variable}
    (same : ∀ name, other.version name = before.version name)
    (continues : Continues before defined after) : Continues other defined after := by
  intro name
  rw [same]
  exact continues name

theorem allocate (versions : Versions) (name : String) :
    Continues versions.counter [(versions.allocate name).1] (versions.allocate name).2.counter :=
  single rfl fun other => Table.version_insert versions.counter name other _

theorem define (versions : Versions) (name : String) :
    Continues versions.counter [(versions.define name).1] (versions.define name).2.counter :=
  allocate versions name

theorem nodup {defined : List Variable} (continues : Continues before defined after) :
    defined.Nodup := by
  refine nodup_of_versionsOf fun name => ?_
  obtain ⟨count, _, versions⟩ := continues name
  rw [versions]
  exact List.nodup_range'

end Continues

namespace Instruction

@[simp] theorem isPhi_substitute (rule : Variable → Option Value) (instruction : Instruction) :
    (instruction.substitute rule).isPhi = instruction.isPhi := by
  cases instruction <;> rfl

@[simp] theorem defs_substitute (rule : Variable → Option Value) (instruction : Instruction) :
    (instruction.substitute rule).defs = instruction.defs := by
  cases instruction <;> rfl

@[simp] theorem isPhi_bindNames (bindings : Table Value) (instruction : Instruction) :
    (instruction.bindNames bindings).isPhi = instruction.isPhi := by
  cases instruction <;> rfl

end Instruction

section Substitution

variable (rule : Variable → Option Value)

mutual

theorem Value.reads_substitute : ∀ value : Value,
    (value.substitute rule).reads = value.reads.flatMap fun read =>
      ((rule read).getD (.var read)).reads
  | .var read => by simp [substitute, reads]
  | .literal _ | .raw _ => rfl
  | .binary _ left right => by
    simp [substitute, reads, reads_substitute left, reads_substitute right]
  | .unary _ operand => by simp [substitute, reads, reads_substitute operand]
  | .apply _ arguments => by simp [substitute, reads, listReads_substitute arguments]
  | .tuple items => by simp [substitute, reads, listReads_substitute items]
  | .choice condition yes no => by
    simp [substitute, reads, reads_substitute condition, reads_substitute yes, reads_substitute no]

theorem Value.listReads_substitute : ∀ values : List Value,
    listReads (substituteList rule values) = (listReads values).flatMap fun read =>
      ((rule read).getD (.var read)).reads
  | [] => rfl
  | first :: rest => by
    simp [substituteList, listReads, reads_substitute first, listReads_substitute rest]

end

variable {rule}

theorem Instruction.mem_uses_substitute {instruction : Instruction} {read : Variable}
    (noPhi : instruction.isPhi = false) (member : read ∈ (instruction.substitute rule).uses) :
    ∃ old ∈ instruction.uses, read ∈ ((rule old).getD (.var old)).reads ∨
      read = Assignment.substitutePrevious rule old := by
  cases instruction with
  | assign assignment =>
    rcases List.mem_append.mp member with previous | value
    · obtain ⟨old, kept, rfl⟩ : ∃ old, assignment.previous = some old ∧
          Assignment.substitutePrevious rule old = read := by
        simpa [Assignment.substitute] using previous
      exact ⟨old, by simp [uses, kept], .inr rfl⟩
    · obtain ⟨old, inside, found⟩ : ∃ old ∈ assignment.value.reads,
          read ∈ ((rule old).getD (.var old)).reads := by
        simpa [Assignment.substitute, Value.reads_substitute] using value
      exact ⟨old, List.mem_append_right _ inside, .inl found⟩
  | phi => cases noPhi
  | raw => cases member
  | call operation =>
    have found : ∃ old ∈ operation.reads, read ∈ ((rule old).getD (.var old)).reads := by
      cases receiver : operation.receiver <;>
        simp [substitute, uses, CallOperation.substitute, CallOperation.reads, receiver,
          Value.reads_substitute, List.flatMap_map] at member ⊢ <;> grind
    obtain ⟨old, inside, reads⟩ := found
    exact ⟨old, inside, .inl reads⟩
  | _ =>
    simp only [substitute, uses, Value.reads_substitute, List.flatMap_map, List.mem_flatMap]
      at member ⊢
    grind

end Substitution

structure Extends (before : Table Nat) (instructions : List Instruction) (after : Table Nat) :
    Prop where
  noPhi : ∀ instruction ∈ instructions, instruction.isPhi = false
  counted : Continues before (instructions.flatMap Instruction.defs) after

namespace Extends

variable {before middle after : Table Nat}

theorem nil (table : Table Nat) : Extends table [] table := ⟨by simp, .nil table⟩

theorem append {first second : List Instruction} (left : Extends before first middle)
    (right : Extends middle second after) : Extends before (first ++ second) after where
  noPhi := by
    intro instruction member
    rcases List.mem_append.mp member with inFirst | inSecond
    · exact left.noPhi instruction inFirst
    · exact right.noPhi instruction inSecond
  counted := by
    rw [List.flatMap_append]
    exact left.counted.append right.counted

theorem single {instruction : Instruction} (noPhi : instruction.isPhi = false)
    (counted : Continues before instruction.defs after) : Extends before [instruction] after :=
  ⟨by simpa using noPhi, by simpa using counted⟩

end Extends
end Reentrancy
