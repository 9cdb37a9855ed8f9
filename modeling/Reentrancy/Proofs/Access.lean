import Reentrancy.Access
import Reentrancy.Proofs.Table

/-! Sets of accesses. A set is known by the accesses that it holds, reads and writes alike: those
of a list are its accesses with a name, and those of a union are the accesses of its parts. -/
namespace Reentrancy

def Access.name : Access → String
  | read name | write name => name

namespace Accesses

def holds (accesses : Accesses) : Access → Bool
  | .read name => accesses.reads.contains name
  | .write name => accesses.writes.contains name

def unionAll (sets : List Accesses) : Accesses := sets.foldl union {}

theorem holds_record (accesses : Accesses) (event access : Access) :
    (accesses.record event).holds access = true ↔
      access = event ∧ access.name ≠ "" ∨ accesses.holds access = true := by
  have added (names : Names) {one other : String} (filled : other ≠ "") :
      (names.add other).contains one = true ↔
        one = other ∧ one ≠ "" ∨ names.contains one = true := by
    have found := Names.contains_addAll names [other] one
    rw [List.mem_singleton] at found
    exact found.trans (or_congr_left ⟨fun same => ⟨same, same ▸ filled⟩, And.left⟩)
  cases event with
  | read other =>
    rw [record]
    split
    next empty => cases access <;> simp_all [Access.name]
    next filled =>
      cases access with
      | read name => simpa [holds, Access.name] using added accesses.reads filled
      | write name => simp [holds]
  | write other =>
    rw [record]
    split
    next empty => cases access <;> simp_all [Access.name]
    next filled =>
      cases access with
      | read name => simp [holds]
      | write name => simpa [holds, Access.name] using added accesses.writes filled

theorem holds_ofList (events : List Access) (access : Access) :
    (ofList events).holds access = true ↔ access ∈ events ∧ access.name ≠ "" := by
  have collected (start : Accesses) : (events.foldl record start).holds access = true ↔
      access ∈ events ∧ access.name ≠ "" ∨ start.holds access = true := by
    induction events generalizing start with
    | nil => simp
    | cons first rest ih =>
      rw [List.foldl_cons, ih, holds_record, List.mem_cons, or_and_right, or_left_comm, or_assoc]
  rw [ofList, collected]
  cases access <;> simp [holds, empty, Table.contains]

theorem holds_union (left right : Accesses) (access : Access) :
    (left.union right).holds access = true ↔
      left.holds access = true ∨ right.holds access = true := by
  cases access with
  | read name => exact Names.contains_union _ _ name
  | write name => exact Names.contains_union _ _ name

theorem holds_unionAll (sets : List Accesses) (access : Access) :
    (unionAll sets).holds access = true ↔ ∃ accesses ∈ sets, accesses.holds access = true := by
  have collected (start : Accesses) : (sets.foldl union start).holds access = true ↔
      start.holds access = true ∨ ∃ accesses ∈ sets, accesses.holds access = true := by
    induction sets generalizing start with
    | nil => simp
    | cons first rest ih =>
      rw [List.foldl_cons, ih, holds_union, or_assoc]
      simp only [List.mem_cons, exists_eq_or_imp]
  rw [unionAll, collected]
  cases access <;> simp [holds, Table.contains]

end Accesses
end Reentrancy
