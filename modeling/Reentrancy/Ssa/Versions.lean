import Reentrancy.Ssa.Instruction

/-! Version tables. The counter of a name only grows; its current version is what a read
sees. Both are 0 for a name that was never defined. -/
namespace Reentrancy

structure Versions where
  counter : Table Nat := Table.empty
  current : Table Nat := Table.empty
  calls : Nat := 0
deriving Inhabited

def Table.version (table : Table Nat) (name : String) : Nat := (table.get? name).getD 0

namespace Versions

def seed (versions : Versions) (name : String) : Versions :=
  { versions with
    counter := versions.counter.insert name (versions.counter.version name)
    current := versions.current.insert name (versions.current.version name) }

def read (versions : Versions) (name : String) : Variable := ⟨name, versions.current.version name⟩

/-- A new version that does not become the current one. -/
def allocate (versions : Versions) (name : String) : Variable × Versions :=
  let version := versions.counter.version name + 1
  (⟨name, version⟩, { versions with counter := versions.counter.insert name version })

def setCurrent (versions : Versions) (name : String) (version : Nat) : Versions :=
  { versions with current := versions.current.insert name version }

def define (versions : Versions) (name : String) : Variable × Versions :=
  let (defined, allocated) := versions.allocate name
  (defined, allocated.setCurrent name defined.version)

def resultName (call : Nat) : String := "ret" ++ toString call

def nextResult (versions : Versions) : Variable × Versions :=
  { versions with calls := versions.calls + 1 }.define (resultName (versions.calls + 1))

/-- Counts at least `count` calls as taken. -/
def reserve (versions : Versions) (count : Nat) : Versions :=
  { versions with calls := max versions.calls count }

/-- Goes on from the later of two versions of every name. -/
def resume (versions : Versions) (earlier : Table Nat) : Versions :=
  { versions with
    current := earlier.entries.foldl (fun current entry =>
      if current.version entry.1 < entry.2 then current.insert entry.1 entry.2 else current)
      versions.current }

end Versions
end Reentrancy
